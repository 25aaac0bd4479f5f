import MqttDevice.Lib.Links

/-!
# Timeouts (`timeouts.c`, `memp.c`)

A timeout is a cell of a pool. Those that wait are linked in the order in which they are due, and
the free cells of the pool are linked through the same field.

* `Timeouts.Holds`: which cells wait, in which order, and which ones are free;
* `abs_items`, `untimeout_items`, `pop_items`: what the functions do to the timeouts that wait.
-/

namespace MqttDevice.Lwip

open MqttDevice.Links

/-! ## The program -/

/-- `LWIP_NUM_SYS_TIMEOUT_INTERNAL`: TCP, IP reassembly and ARP. -/
def lwipNumSysTimeoutInternal : Nat := 3

def mempNumSysTimeout : Nat := lwipNumSysTimeoutInternal + 8

/-- `lwip_cyclic_timers` -/
inductive CyclicTimer where
  | tcp
  | ipReass
  | etharp
  deriving DecidableEq

def CyclicTimer.intervalMs : CyclicTimer → Nat
  | .tcp => 250
  | .ipReass => 1000
  | .etharp => 1000

/-- A handler with its argument; `other` is for those that are not of the stack. -/
inductive Handler (κ : Type*) where
  | lwipCyclicTimer (cyclic : CyclicTimer)
  | tcpipTcpTimer
  | other (k : κ)
  deriving DecidableEq

/-- `struct sys_timeo`; in a free cell `next` is that of `struct memp`. -/
structure SysTimeo (κ : Type*) where
  next : Option Nat
  time : BitVec 32
  h : Handler κ

/-- The pool, the first of its free cells, and `next_timeout`. -/
structure Timeouts (κ : Type*) where
  memory : Nat → SysTimeo κ
  tab : Option Nat
  nextTimeout : Option Nat

/-- `TIME_LESS_THAN` -/
def timeLessThan (t compareTo : BitVec 32) : Bool := 0x7fffffff#32 < t - compareTo

namespace Timeouts

variable {κ : Type*}

def next (s : Timeouts κ) (i : Nat) : Option Nat := (s.memory i).next

def set (s : Timeouts κ) (i : Nat) (t : SysTimeo κ) : Timeouts κ :=
  { s with memory := Function.update s.memory i t }

def setNext (s : Timeouts κ) (i : Nat) (next : Option Nat) : Timeouts κ :=
  s.set i { s.memory i with next := next }

end Timeouts

section Program

variable {κ : Type*}

/-- `memp_init_pool` -/
def mempInitPool (s : Timeouts κ) : Timeouts κ :=
  (List.range mempNumSysTimeout).foldl (fun s i => { s.setNext i s.tab with tab := some i })
    { s with tab := none }

/-- `memp_malloc` -/
def mempMalloc (s : Timeouts κ) : Option (Nat × Timeouts κ) :=
  s.tab.map fun i => (i, { s with tab := s.next i })

/-- `memp_free` -/
def mempFree (i : Nat) (s : Timeouts κ) : Timeouts κ := { s.setNext i s.tab with tab := some i }

/-- The loop of `sys_timeout_abs`. A loop over the timeouts is followed for as many rounds as there
are cells; there is no result if it goes on. -/
def insertLoop (s : Timeouts κ) (timeout : Nat) : Nat → Nat → Option (Timeouts κ)
  | 0, _ => none
  | n + 1, t =>
    match s.next t with
    | none => some ((s.setNext timeout none).setNext t (some timeout))
    | some u =>
      if timeLessThan (s.memory timeout).time (s.memory u).time then
        some ((s.setNext timeout (some u)).setNext t (some timeout))
      else insertLoop s timeout n u

/-- `sys_timeout_abs` -/
def sysTimeoutAbs (absTime : BitVec 32) (h : Handler κ) (s : Timeouts κ) : Option (Timeouts κ) :=
  match mempMalloc s with
  | none => some s
  | some (timeout, s) =>
    let s := s.set timeout ⟨none, absTime, h⟩
    match s.nextTimeout with
    | none => some { s with nextTimeout := some timeout }
    | some t =>
      if timeLessThan absTime (s.memory t).time then
        some { s.setNext timeout (some t) with nextTimeout := some timeout }
      else insertLoop s timeout mempNumSysTimeout t

/-- A timeout that matches is unlinked from the one before it, and freed. -/
def takeOut (s : Timeouts κ) (t : Nat) : Option Nat → Timeouts κ
  | none => mempFree t { s with nextTimeout := s.next t }
  | some prev => mempFree t (s.setNext prev (s.next t))

/-- The loop of `sys_untimeout`, with `prev_t`. -/
def untimeoutLoop [DecidableEq κ] (s : Timeouts κ) (h : Handler κ) :
    Nat → Option Nat → Option Nat → Option (Timeouts κ)
  | _, none, _ => some s
  | 0, some _, _ => none
  | n + 1, some t, prev =>
    if (s.memory t).h = h then some (takeOut s t prev)
    else untimeoutLoop s h n (s.next t) (some t)

/-- `sys_untimeout` -/
def sysUntimeout [DecidableEq κ] (h : Handler κ) (s : Timeouts κ) : Option (Timeouts κ) :=
  untimeoutLoop s h mempNumSysTimeout s.nextTimeout none

/-- A round of `sys_check_timeouts` up to the call of the handler: the handler and its
`current_timeout_due_time`, if a timeout has expired. -/
def popTimeout (now : BitVec 32) (s : Timeouts κ) : Option ((Handler κ × BitVec 32) × Timeouts κ) :=
  match s.nextTimeout with
  | none => none
  | some t =>
    if timeLessThan now (s.memory t).time then none
    else some (((s.memory t).h, (s.memory t).time), mempFree t { s with nextTimeout := s.next t })

end Program

/-! ## The timeouts that wait -/

namespace Timeouts

variable {κ : Type*}

/-- These cells wait, in this order, and those are free. -/
structure Holds (s : Timeouts κ) (slots free : List Nat) : Prop where
  links : LinksTo s.next s.nextTimeout slots
  freeLinks : LinksTo s.next s.tab free
  nodup : (slots ++ free).Nodup
  length : slots.length + free.length = mempNumSysTimeout

/-- The handler, and when it is due. -/
def item (s : Timeouts κ) (i : Nat) : Handler κ × BitVec 32 := ((s.memory i).h, (s.memory i).time)

def items (s : Timeouts κ) (slots : List Nat) : List (Handler κ × BitVec 32) := slots.map s.item

/-- What comes first in the list. -/
def Earlier (x y : Handler κ × BitVec 32) : Prop := timeLessThan x.2 y.2 = true

instance : DecidableRel (Earlier (κ := κ)) := fun _ _ => inferInstanceAs (Decidable (_ = true))

variable {s : Timeouts κ} {slots free : List Nat}

theorem memory_set_of_ne (s : Timeouts κ) {i j : Nat} (h : j ≠ i) (t : SysTimeo κ) :
    (s.set i t).memory j = s.memory j := Function.update_of_ne h ..

@[simp] theorem memory_set_self (s : Timeouts κ) (i : Nat) (t : SysTimeo κ) :
    (s.set i t).memory i = t := Function.update_self ..

theorem next_setNext (s : Timeouts κ) (i : Nat) (n : Option Nat) :
    (s.setNext i n).next = Function.update s.next i n := by
  funext j
  by_cases hj : j = i
  · rw [hj, next, setNext, memory_set_self, Function.update_self]
  · rw [next, setNext, s.memory_set_of_ne hj, Function.update_of_ne hj]
    rfl

@[simp] theorem item_setNext (s : Timeouts κ) (i : Nat) (n : Option Nat) :
    (s.setNext i n).item = s.item := by
  funext j
  by_cases hj : j = i
  · rw [hj, item, setNext, memory_set_self]
    rfl
  · rw [item, setNext, s.memory_set_of_ne hj]
    rfl

@[simp] theorem items_setNext (s : Timeouts κ) (i : Nat) (n : Option Nat) (slots : List Nat) :
    (s.setNext i n).items slots = s.items slots := by
  rw [items, items, item_setNext]

/-- The pointers of other cells do not matter. -/
theorem links_setNext {p : Option Nat} {l : List Nat} (h : LinksTo s.next p l) {i : Nat}
    (hi : i ∉ l) (n : Option Nat) : LinksTo (s.setNext i n).next p l := by
  rw [next_setNext]
  exact h.congr fun j hj => Function.update_of_ne (ne_of_mem_of_not_mem hj hi) ..

/-! ## `sys_timeout_abs` -/

/-- **The loop finds the place** and hangs the timeout in. -/
theorem insertLoop_spec {x t n : Nat} {p : Option Nat} {xs ys : List Nat}
    (h : LinksTo s.next p (xs ++ t :: ys)) (hl : (xs ++ t :: ys).Nodup)
    (hx : x ∉ xs ++ t :: ys) (hn : ys.length < n) :
    ∃ i ∈ t :: ys, ∃ q, insertLoop s x n t = some ((s.setNext x q).setNext i (some x)) ∧
      LinksTo ((s.setNext x q).setNext i (some x)).next p
        (xs ++ t :: ys.orderedInsert (fun i j => Earlier (s.item i) (s.item j)) x) := by
  induction ys generalizing xs t n with
  | nil =>
    obtain ⟨n, rfl⟩ := Nat.exists_eq_succ_of_ne_zero hn.ne'
    have hnext : s.next t = none := h.tail
    have hinsert := h.insert hl hx
    refine ⟨t, List.mem_cons_self, none, ?_, ?_⟩
    · rw [insertLoop, hnext]
    · rw [next_setNext, next_setNext, ← hnext]
      exact hinsert
  | cons u ys ih =>
    obtain ⟨n, rfl⟩ := Nat.exists_eq_succ_of_ne_zero (Nat.ne_zero_of_lt hn)
    have hnext : s.next t = some u := h.tail.1
    rw [insertLoop, hnext, List.orderedInsert_cons]
    dsimp only
    by_cases hless : Earlier (s.item x) (s.item u)
    · have hinsert := h.insert hl hx
      refine ⟨t, List.mem_cons_self, some u, if_pos hless, ?_⟩
      rw [next_setNext, next_setNext, ← hnext, if_pos hless]
      exact hinsert
    · have hnot : ¬timeLessThan (s.memory x).time (s.memory u).time = true := hless
      rw [if_neg hless, if_neg hnot]
      rw [List.append_cons xs t] at h hl hx ⊢
      obtain ⟨i, hi, q, hloop, hlinks⟩ := ih h hl hx (Nat.lt_of_succ_lt_succ hn)
      exact ⟨i, List.mem_cons_of_mem t hi, q, hloop, hlinks⟩

/-- A cell that is neither linked nor free. -/
structure Taken (s : Timeouts κ) (slots : List Nat) (x : Nat) (free : List Nat) : Prop where
  links : LinksTo s.next s.nextTimeout slots
  freeLinks : LinksTo s.next s.tab free
  nodup : (slots ++ x :: free).Nodup
  length : slots.length + free.length + 1 = mempNumSysTimeout

theorem Taken.not_mem {x : Nat} (h : s.Taken slots x free) : x ∉ slots ∧ x ∉ free := by
  obtain ⟨-, hcons, hdisj⟩ := List.nodup_append.mp h.nodup
  exact ⟨fun hx => hdisj x hx x List.mem_cons_self rfl, (List.nodup_cons.mp hcons).1⟩

/-- The first free cell, when it is filled. -/
theorem Holds.malloc {f : Nat} (h : s.Holds slots (f :: free)) (t : SysTimeo κ) :
    mempMalloc s = some (f, { s with tab := s.next f }) ∧
      Taken (set { s with tab := s.next f } f t) slots f free ∧
      (set { s with tab := s.next f } f t).items slots = s.items slots := by
  obtain ⟨-, hcons, hdisj⟩ := List.nodup_append.mp h.nodup
  have hslots : f ∉ slots := fun hf => hdisj f hf f List.mem_cons_self rfl
  have hfree : f ∉ free := (List.nodup_cons.mp hcons).1
  have hsame : ∀ i ≠ f, (set { s with tab := s.next f } f t).memory i = s.memory i :=
    fun i hi => memory_set_of_ne _ hi t
  have hlinks : ∀ {p : Option Nat} {l : List Nat}, f ∉ l → LinksTo s.next p l →
      LinksTo (set { s with tab := s.next f } f t).next p l := fun hf hl =>
    hl.congr fun i hi => congrArg SysTimeo.next (hsame i (ne_of_mem_of_not_mem hi hf))
  refine ⟨?_, ⟨hlinks hslots h.links, hlinks hfree h.freeLinks.2, h.nodup, ?_⟩, ?_⟩
  · rw [mempMalloc, h.freeLinks.1]
    rfl
  · rw [← h.length]
    rfl
  · refine List.map_congr_left fun i hi => ?_
    rw [item, item, hsame i (ne_of_mem_of_not_mem hi hslots)]

/-- The cell is hung in. -/
theorem Taken.hang {x : Nat} (h : s.Taken slots x free) {s' : Timeouts κ} {slots' : List Nat}
    (hlinks : LinksTo s'.next s'.nextTimeout slots') (hperm : slots'.Perm (x :: slots))
    (hfree : LinksTo s'.next s'.tab free) : s'.Holds slots' free := by
  have hall : (slots' ++ free).Perm (slots ++ x :: free) :=
    (hperm.append_right free).trans List.perm_middle.symm
  refine ⟨hlinks, hfree, hall.nodup_iff.mpr h.nodup, ?_⟩
  have hlen := hperm.length_eq
  have hsum := h.length
  rw [List.length_cons] at hlen
  omega

/-- `sys_timeout_abs`, when it has a cell. -/
def hangIn (absTime : BitVec 32) (x : Nat) (s : Timeouts κ) : Option (Timeouts κ) :=
  match s.nextTimeout with
  | none => some { s with nextTimeout := some x }
  | some t =>
    if timeLessThan absTime (s.memory t).time then
      some { s.setNext x (some t) with nextTimeout := some x }
    else insertLoop s x mempNumSysTimeout t

/-- **A filled cell goes where its time belongs.** -/
theorem Taken.hangIn {x : Nat} (h : s.Taken slots x free) (hnone : s.next x = none) :
    ∃ s' slots', hangIn (s.memory x).time x s = some s' ∧ s'.Holds slots' free ∧
      s'.items slots' = (s.items slots).orderedInsert Earlier (s.item x) := by
  obtain ⟨hxs, hxf⟩ := h.not_mem
  have horder : s.items (slots.orderedInsert (fun i j => Earlier (s.item i) (s.item j)) x) =
      (s.items slots).orderedInsert Earlier (s.item x) :=
    List.map_orderedInsert _ _ _ slots x (fun _ _ => Iff.rfl) fun _ _ => Iff.rfl
  have hperm := List.perm_orderedInsert (fun i j => Earlier (s.item i) (s.item j)) x slots
  rw [← horder]
  cases slots with
  | nil =>
    have hhead : s.nextTimeout = none := h.links
    refine ⟨{ s with nextTimeout := some x }, [x], ?_, h.hang ⟨rfl, hnone⟩ hperm h.freeLinks, rfl⟩
    rw [Timeouts.hangIn, hhead]
  | cons t slots =>
    have hhead : s.nextTimeout = some t := h.links.1
    rw [Timeouts.hangIn, hhead]
    dsimp only
    rw [List.orderedInsert_cons] at hperm ⊢
    by_cases hless : Earlier (s.item x) (s.item t)
    · have hyes : timeLessThan (s.memory x).time (s.memory t).time = true := hless
      rw [if_pos hless] at hperm ⊢
      rw [if_pos hyes]
      refine ⟨_, x :: t :: slots, rfl, h.hang ⟨rfl, ?_⟩ hperm ?_, items_setNext ..⟩
      · have hnext : (s.setNext x (some t)).next x = s.nextTimeout := by
          rw [next_setNext, Function.update_self, hhead]
        exact hnext ▸ links_setNext h.links hxs (some t)
      · exact links_setNext h.freeLinks hxf (some t)
    · have hno : ¬timeLessThan (s.memory x).time (s.memory t).time = true := hless
      rw [if_neg hless] at hperm ⊢
      rw [if_neg hno]
      have hlen : slots.length < mempNumSysTimeout := by
        have := h.length
        rw [List.length_cons] at this
        omega
      have hnodup : (t :: slots).Nodup := (List.nodup_append.mp h.nodup).1
      have hlist : LinksTo s.next s.nextTimeout ([] ++ t :: slots) := h.links
      obtain ⟨i, hi, q, hloop, hlinks⟩ := insertLoop_spec hlist hnodup hxs hlen
      refine ⟨_, _, hloop, h.hang hlinks hperm ?_, ?_⟩
      · have hif : i ∉ free := fun hif =>
          (List.nodup_append.mp h.nodup).2.2 i hi i (List.mem_cons_of_mem x hif) rfl
        exact links_setNext (links_setNext h.freeLinks hxf q) hif (some x)
      · rw [items_setNext, items_setNext]
        rfl

/-- **A timeout goes where its time belongs**, if there is a free cell. -/
theorem abs_items (h : s.Holds slots free) (absTime : BitVec 32) (handler : Handler κ) :
    ∃ s' slots' free', sysTimeoutAbs absTime handler s = some s' ∧ s'.Holds slots' free' ∧
      s'.items slots' = if slots.length < mempNumSysTimeout
        then (s.items slots).orderedInsert Earlier (handler, absTime) else s.items slots := by
  have hlen := h.length
  cases free with
  | nil =>
    have hfull : ¬slots.length < mempNumSysTimeout := by
      rw [← hlen]
      exact Nat.lt_irrefl _
    have hnone : s.tab = none := h.freeLinks
    refine ⟨s, slots, [], ?_, h, (if_neg hfull).symm⟩
    rw [sysTimeoutAbs, mempMalloc, hnone]
    rfl
  | cons x free =>
    have hroom : slots.length < mempNumSysTimeout := by
      rw [← hlen, List.length_cons]
      omega
    obtain ⟨hmalloc, htaken, hitems⟩ := h.malloc ⟨none, absTime, handler⟩
    have hself := memory_set_self { s with tab := s.next x } x ⟨none, absTime, handler⟩
    obtain ⟨s', slots', hhang, hholds, hitems'⟩ := htaken.hangIn (by rw [next, hself])
    refine ⟨s', slots', free, ?_, hholds, ?_⟩
    · rw [sysTimeoutAbs, hmalloc]
      rw [hself] at hhang
      exact hhang
    · rw [hitems', hitems, if_pos hroom, item, hself]

/-! ## `sys_untimeout` -/

theorem Holds.nodup_slots (h : s.Holds slots free) : slots.Nodup := (List.nodup_append.mp h.nodup).1

theorem Holds.length_le (h : s.Holds slots free) : slots.length ≤ mempNumSysTimeout := by
  rw [← h.length]
  exact Nat.le_add_right _ _

/-- A cell that has been taken out is freed. -/
theorem Taken.release {x : Nat} (h : s.Taken slots x free) : (mempFree x s).Holds slots (x :: free) := by
  obtain ⟨hxs, hxf⟩ := h.not_mem
  have hnext : (mempFree x s).next x = s.tab := by
    have := congrFun (next_setNext s x s.tab) x
    rw [Function.update_self] at this
    exact this
  refine ⟨links_setNext h.links hxs s.tab, ⟨rfl, ?_⟩, h.nodup, ?_⟩
  · rw [hnext]
    exact links_setNext h.freeLinks hxf s.tab
  · have := h.length
    rw [List.length_cons]
    omega

@[simp] theorem items_mempFree (s : Timeouts κ) (x : Nat) (slots : List Nat) :
    (mempFree x s).items slots = s.items slots := items_setNext ..

/-- A timeout is taken out of the list. -/
theorem Holds.takeOut {xs ys : List Nat} {i : Nat} (h : s.Holds (xs ++ i :: ys) free) :
    (takeOut s i xs.getLast?).Holds (xs ++ ys) (i :: free) ∧
      (takeOut s i xs.getLast?).items (xs ++ ys) = s.items (xs ++ ys) := by
  have hnodup : (xs ++ ys ++ i :: free).Nodup := by
    refine (List.Perm.nodup_iff ?_).mp h.nodup
    rw [List.append_assoc, List.append_assoc]
    exact (List.perm_middle.symm).append_left xs
  have hlen : (xs ++ ys).length + free.length + 1 = mempNumSysTimeout := by
    rw [← h.length, List.length_append, List.length_append, List.length_cons]
    omega
  rcases h.links.dropBehind h.nodup_slots with ⟨rfl, hlinks⟩ | ⟨prev, hlast, hmem, hlinks⟩
  · have htaken : Taken { s with nextTimeout := s.next i } ys i free :=
      ⟨hlinks, h.freeLinks, hnodup, hlen⟩
    exact ⟨htaken.release, items_mempFree ..⟩
  · have hprev : prev ∉ free := fun hf =>
      (List.nodup_append.mp h.nodup).2.2 prev (List.mem_append_left _ hmem) prev hf rfl
    have htaken : Taken (s.setNext prev (s.next i)) (xs ++ ys) i free := by
      refine ⟨?_, links_setNext h.freeLinks hprev _, hnodup, hlen⟩
      rw [next_setNext]
      exact hlinks
    rw [hlast]
    refine ⟨htaken.release, ?_⟩
    rw [Lwip.takeOut, items_mempFree, items_setNext]

section Untimeout

variable [DecidableEq κ]

theorem untimeoutLoop_none {handler : Handler κ} {p : Option Nat} (h : LinksTo s.next p slots)
    (hslots : ∀ i ∈ slots, (s.memory i).h ≠ handler) {n : Nat} (hn : slots.length ≤ n)
    (prev : Option Nat) : untimeoutLoop s handler n p prev = some s := by
  induction slots generalizing p n prev with
  | nil =>
    have hp : p = none := h
    rw [hp]
    cases n <;> rfl
  | cons i slots ih =>
    obtain ⟨rfl, hrest⟩ := h
    obtain ⟨hi, hslots⟩ := List.forall_mem_cons.mp hslots
    obtain ⟨n, rfl⟩ := Nat.exists_eq_succ_of_ne_zero (Nat.ne_zero_of_lt hn)
    rw [untimeoutLoop, if_neg hi]
    exact ih hrest hslots (Nat.le_of_succ_le_succ hn) (some i)

/-- The loop finds the first timeout with the handler. -/
theorem untimeoutLoop_some {handler : Handler κ} {xs ys : List Nat} {i : Nat} {p : Option Nat}
    (h : LinksTo s.next p (xs ++ i :: ys)) (hxs : ∀ x ∈ xs, (s.memory x).h ≠ handler)
    (hi : (s.memory i).h = handler) {n : Nat} (hn : (xs ++ i :: ys).length ≤ n)
    (prev : Option Nat) :
    untimeoutLoop s handler n p prev = some (takeOut s i (xs.getLast?.or prev)) := by
  induction xs generalizing p n prev with
  | nil =>
    obtain ⟨rfl, -⟩ := h
    obtain ⟨n, rfl⟩ := Nat.exists_eq_succ_of_ne_zero (Nat.ne_zero_of_lt hn)
    rw [untimeoutLoop, if_pos hi]
    cases prev <;> rfl
  | cons x xs ih =>
    obtain ⟨rfl, hrest⟩ := h
    obtain ⟨hx, hxs⟩ := List.forall_mem_cons.mp hxs
    obtain ⟨n, rfl⟩ := Nat.exists_eq_succ_of_ne_zero (Nat.ne_zero_of_lt hn)
    rw [untimeoutLoop, if_neg hx, ih hrest hxs (Nat.le_of_succ_le_succ hn)]
    cases hl : xs.getLast? <;> simp [List.getLast?_cons, hl]

/-- **The first timeout with the handler is taken out**, if there is one. -/
theorem untimeout_items (h : s.Holds slots free) (handler : Handler κ) :
    ∃ s' slots' free', sysUntimeout handler s = some s' ∧ s'.Holds slots' free' ∧
      s'.items slots' = (s.items slots).eraseP fun x => x.1 = handler := by
  by_cases hno : ∀ i ∈ slots, (s.memory i).h ≠ handler
  · refine ⟨s, slots, free, untimeoutLoop_none h.links hno h.length_le none, h, ?_⟩
    rw [List.eraseP_of_forall_not]
    intro x hx
    obtain ⟨i, hi, rfl⟩ := List.mem_map.mp hx
    exact decide_eq_true_iff.not.mpr (hno i hi)
  · push Not at hno
    obtain ⟨i, hi, hmatch⟩ := hno
    obtain ⟨i, xs, ys, hxs, hmatch, rfl, -⟩ := List.exists_of_eraseP
      (p := fun i => (s.memory i).h = handler) hi (decide_eq_true hmatch)
    have hno : ∀ x ∈ xs, (s.memory x).h ≠ handler := fun x hx => by simpa using hxs x hx
    obtain ⟨hholds, hitems⟩ := h.takeOut
    refine ⟨_, xs ++ ys, i :: free, ?_, hholds, ?_⟩
    · have hloop := untimeoutLoop_some h.links hno (of_decide_eq_true hmatch) h.length_le none
      rw [Option.or_none] at hloop
      exact hloop
    · rw [hitems, items, items, List.map_append, List.map_append, List.map_cons,
        List.eraseP_append_right, List.eraseP_cons_of_pos]
      · exact hmatch
      · intro x hx
        obtain ⟨j, hj, rfl⟩ := List.mem_map.mp hx
        exact decide_eq_true_iff.not.mpr (hno j hj)

end Untimeout

/-! ## `sys_check_timeouts` -/

/-- **The first timeout**, if it has expired. -/
theorem pop_items (h : s.Holds slots free) (now : BitVec 32) :
    (popTimeout now s = none ∧ ∀ x ∈ (s.items slots).head?, timeLessThan now x.2 = true) ∨
    ∃ x l s' slots' free', popTimeout now s = some (x, s') ∧ s.items slots = x :: l ∧
      timeLessThan now x.2 = false ∧ s'.Holds slots' free' ∧ s'.items slots' = l := by
  cases slots with
  | nil =>
    have hhead : s.nextTimeout = none := h.links
    refine .inl ⟨?_, by simp [items]⟩
    rw [popTimeout, hhead]
  | cons t slots =>
    have hhead : s.nextTimeout = some t := h.links.1
    rw [popTimeout, hhead]
    dsimp only
    by_cases hless : timeLessThan now (s.memory t).time
    · exact .inl ⟨if_pos hless, by simpa [items, item] using hless⟩
    · have hnodup : (slots ++ t :: free).Nodup :=
        (List.perm_middle.symm.nodup_iff).mp h.nodup
      have hlen : slots.length + free.length + 1 = mempNumSysTimeout := by
        rw [← h.length, List.length_cons]
        omega
      have htaken : Taken { s with nextTimeout := s.next t } slots t free :=
        ⟨h.links.2, h.freeLinks, hnodup, hlen⟩
      refine .inr ⟨s.item t, s.items slots, _, slots, t :: free, if_neg hless, rfl,
        Bool.eq_false_iff.mpr hless, htaken.release, items_mempFree ..⟩

/-! ## `memp_init` -/

/-- **At the start** all cells are free, whatever the memory. -/
theorem holds_init (memory : Nat → SysTimeo κ) (tab : Option Nat) :
    (mempInitPool ⟨memory, tab, none⟩).Holds [] (List.range mempNumSysTimeout).reverse := by
  let link (s : Timeouts κ) (i : Nat) : Timeouts κ := { s.setNext i s.tab with tab := some i }
  have hloop : ∀ n, ((List.range n).foldl link ⟨memory, none, none⟩).nextTimeout = none ∧
      LinksTo ((List.range n).foldl link ⟨memory, none, none⟩).next
        ((List.range n).foldl link ⟨memory, none, none⟩).tab (List.range n).reverse := by
    intro n
    induction n with
    | zero => exact ⟨rfl, rfl⟩
    | succ n ih =>
      obtain ⟨hhead, hlinks⟩ := ih
      rw [List.range_succ, List.foldl_append, List.reverse_append]
      refine ⟨hhead, rfl, ?_⟩
      have hnot : n ∉ (List.range n).reverse := by simp
      have hnext := links_setNext hlinks hnot
        ((List.range n).foldl link ⟨memory, none, none⟩).tab
      have hself : (((List.range n).foldl link ⟨memory, none, none⟩).setNext n
          ((List.range n).foldl link ⟨memory, none, none⟩).tab).next n =
          ((List.range n).foldl link ⟨memory, none, none⟩).tab := by
        rw [next_setNext, Function.update_self]
      exact hself.symm ▸ hnext
  obtain ⟨hhead, hlinks⟩ := hloop mempNumSysTimeout
  refine ⟨hhead, hlinks, ?_, ?_⟩
  · rw [List.nil_append, List.nodup_reverse]
    exact List.nodup_range
  · rw [List.length_nil, Nat.zero_add, List.length_reverse, List.length_range]

end Timeouts

end MqttDevice.Lwip
