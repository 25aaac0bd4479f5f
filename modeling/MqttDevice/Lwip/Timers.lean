import MqttDevice.Lib.Machine
import MqttDevice.Lwip.Timeouts
import MqttDevice.Tick

/-!
# The timers of the stack (`timeouts.c`)

`sys_check_timeouts` calls the handlers of the timeouts that have expired; the handlers set
timeouts again, and the counter that the times are read from wraps.

* `Agenda`: the handlers that are to be called, with their true times;
* `Agenda.Sound.step`: the agenda stays in order;
* `timers_refine`: the program behaves like the agenda, as long as nothing is late by more than
  2^30 ms.
-/

namespace MqttDevice.Timers

open MqttDevice.Lwip MqttDevice.Machine MqttDevice.Tick

variable {κ : Type*}

/-! ## The program -/

/-- `TCP_TMR_INTERVAL` -/
def tcpTmrInterval : Nat := 250

/-- Where `sys_check_timeouts` is: not running, before a round, or in a handler; `now` is its
reading of `sys_now`. -/
inductive Checking (κ τ : Type*) where
  | idle
  | between (now : τ)
  | calling (now : τ) (h : Handler κ)

/-- The variables of the module, whether there are active or time-wait connections, and the true
time. -/
structure Stack (κ : Type*) where
  timeouts : Timeouts κ
  currentTimeoutDueTime : BitVec 32
  tcpipTcpTimerActive : Bool
  tcpPcbs : Bool
  checking : Checking κ (BitVec 32)
  clock : Nat

namespace Stack

def sysNow (s : Stack κ) : BitVec 32 := uwTick s.clock

/-- `sys_timeout_abs` -/
def abs (absTime : BitVec 32) (h : Handler κ) (s : Stack κ) : Option (Stack κ) :=
  (sysTimeoutAbs absTime h s.timeouts).map fun t => { s with timeouts := t }

/-- `sys_timeout` -/
def sysTimeout (msecs : Nat) (h : Handler κ) (s : Stack κ) : Option (Stack κ) :=
  s.abs (s.sysNow + BitVec.ofNat 32 msecs) h

/-- `tcp_timer_needed` -/
def tcpTimerNeeded (s : Stack κ) : Option (Stack κ) :=
  if ¬s.tcpipTcpTimerActive ∧ s.tcpPcbs then
    sysTimeout tcpTmrInterval .tcpipTcpTimer { s with tcpipTcpTimerActive := true }
  else some s

/-- `tcpip_tcp_timer`, behind `tcp_tmr`. -/
def tcpipTcpTimer (s : Stack κ) : Option (Stack κ) :=
  if s.tcpPcbs then s.sysTimeout tcpTmrInterval .tcpipTcpTimer
  else some { s with tcpipTcpTimerActive := false }

/-- `lwip_cyclic_timer`, behind the handler of the timer. -/
def lwipCyclicTimer (cyclic : CyclicTimer) (s : Stack κ) : Option (Stack κ) :=
  let nextTimeoutTime := s.currentTimeoutDueTime + BitVec.ofNat 32 cyclic.intervalMs
  if timeLessThan nextTimeoutTime s.sysNow then
    s.abs (s.sysNow + BitVec.ofNat 32 cyclic.intervalMs) (.lwipCyclicTimer cyclic)
  else s.abs nextTimeoutTime (.lwipCyclicTimer cyclic)

/-- `sys_timeouts_init`: `tcp_tmr` is started on demand. -/
def sysTimeoutsInit (s : Stack κ) : Option (Stack κ) :=
  [CyclicTimer.ipReass, .etharp].foldlM
    (fun s cyclic => s.sysTimeout cyclic.intervalMs (.lwipCyclicTimer cyclic)) s

/-- When `memp_init` has run. -/
def boot (memory : Nat → SysTimeo κ) (tab : Option Nat) (t : Nat) : Stack κ :=
  ⟨mempInitPool ⟨memory, tab, none⟩, 0, false, false, .idle, t⟩

end Stack

/-! ## What happens -/

inductive TimerEvent (κ : Type*) where
  /-- Time passes. -/
  | pass (ms : Nat)
  /-- `sys_timeout` and `sys_untimeout`, by the program or by a handler. -/
  | timeout (msecs : Nat) (k : κ)
  | untimeout (k : κ)
  /-- `TCP_REG`, for a list of active or time-wait connections or another one. -/
  | tcpReg (alive : Bool)
  /-- The last active or time-wait connection is removed. -/
  | tcpRmv
  /-- `sys_check_timeouts` is called. -/
  | check
  /-- It goes round. -/
  | round
  /-- The handler returns. -/
  | ret
  deriving DecidableEq

/-- The argument of `sys_timeout`. -/
def TimerEvent.msecs : TimerEvent κ → Option Nat
  | .timeout msecs _ => some msecs
  | _ => none

/-- The event does not call `sys_timeout`. -/
theorem fair_of_none {e : TimerEvent κ} (h : e.msecs = none) : ∀ msecs ∈ e.msecs,
    msecs ≤ 0xffffffff / 4 := by
  rw [h]
  rintro _ ⟨⟩

/-- A call: the handler, and `current_timeout_due_time`. -/
abbrev Called (κ : Type*) := Option (Handler κ × BitVec 32)

/-- The end of a handler. -/
def finish (s : Stack κ) : Handler κ → Option (Stack κ)
  | .lwipCyclicTimer cyclic => s.lwipCyclicTimer cyclic
  | .tcpipTcpTimer => s.tcpipTcpTimer
  | .other _ => some s

/-- What cannot happen where the check is has no effect. -/
def timerStep [DecidableEq κ] (s : Stack κ) : TimerEvent κ → Option (Called κ × Stack κ)
  | .pass ms => some (none, { s with clock := s.clock + ms })
  | .timeout msecs k => (s.sysTimeout msecs (.other k)).map (none, ·)
  | .untimeout k =>
    (sysUntimeout (.other k) s.timeouts).map fun t => (none, { s with timeouts := t })
  | .tcpReg alive => ({ s with tcpPcbs := s.tcpPcbs || alive }.tcpTimerNeeded).map (none, ·)
  | .tcpRmv => some (none, { s with tcpPcbs := false })
  | .check =>
    match s.checking with
    | .idle => some (none, { s with checking := .between s.sysNow })
    | _ => some (none, s)
  | .round =>
    match s.checking with
    | .between now =>
      match popTimeout now s.timeouts with
      | none => some (none, { s with checking := .idle })
      | some ((h, time), t) =>
        some (some (h, time),
          { s with timeouts := t, currentTimeoutDueTime := time, checking := .calling now h })
    | _ => some (none, s)
  | .ret =>
    match s.checking with
    | .calling now h => (finish s h).map fun s => (none, { s with checking := .between now })
    | _ => some (none, s)

/-! ## The purpose -/

/-- The handlers that are to be called, with their true times. -/
structure Agenda (κ : Type*) where
  pending : List (Handler κ × Nat)
  due : Nat
  active : Bool
  tcpPcbs : Bool
  checking : Checking κ Nat
  clock : Nat

namespace Agenda

def Before (x y : Handler κ × Nat) : Prop := x.2 < y.2

instance : DecidableRel (Before (κ := κ)) := fun x y => Nat.decLt x.2 y.2

/-- A handler is entered behind those that are due at the same time. -/
def enter (a : Agenda κ) (h : Handler κ) (t : Nat) : Agenda κ :=
  if a.pending.length < mempNumSysTimeout then
    { a with pending := a.pending.orderedInsert Before (h, t) }
  else a

/-- The end of a handler. A cyclic timer is entered an interval after it was due, or after now, if
it would be late again. -/
def finish (a : Agenda κ) : Handler κ → Agenda κ
  | .lwipCyclicTimer c =>
    a.enter (.lwipCyclicTimer c)
      (if a.due + c.intervalMs < a.clock then a.clock + c.intervalMs else a.due + c.intervalMs)
  | .tcpipTcpTimer =>
    if a.tcpPcbs then a.enter .tcpipTcpTimer (a.clock + tcpTmrInterval)
    else { a with active := false }
  | .other _ => a

def step [DecidableEq κ] (a : Agenda κ) : TimerEvent κ → Called κ × Agenda κ
  | .pass ms => (none, { a with clock := a.clock + ms })
  | .timeout msecs k => (none, a.enter (.other k) (a.clock + msecs))
  | .untimeout k => (none, { a with pending := a.pending.eraseP fun x => x.1 = .other k })
  | .tcpReg alive =>
    (none,
      if ¬a.active ∧ (a.tcpPcbs || alive) then
        { a with tcpPcbs := true, active := true }.enter .tcpipTcpTimer (a.clock + tcpTmrInterval)
      else { a with tcpPcbs := a.tcpPcbs || alive })
  | .tcpRmv => (none, { a with tcpPcbs := false })
  | .check =>
    match a.checking with
    | .idle => (none, { a with checking := .between a.clock })
    | _ => (none, a)
  | .round =>
    match a.checking, a.pending with
    | .between now, (h, t) :: l =>
      if now < t then (none, { a with checking := .idle })
      else (some (h, uwTick t), { a with pending := l, due := t, checking := .calling now h })
    | .between _, [] => (none, { a with checking := .idle })
    | _, _ => (none, a)
  | .ret =>
    match a.checking with
    | .calling now h => (none, { a.finish h with checking := .between now })
    | _ => (none, a)

/-- When the timers of the stack have been started. -/
def start (t : Nat) : Agenda κ :=
  ⟨[(.lwipCyclicTimer .ipReass, t + 1000), (.lwipCyclicTimer .etharp, t + 1000)], 0, false, false,
    .idle, t⟩

end Agenda

/-! ## The agenda -/

def Checking.reading {τ : Type*} : Checking κ τ → Option τ
  | .idle => none
  | .between now => some now
  | .calling now _ => some now

/-- The handler that is being called. -/
def Checking.handler {τ : Type*} : Checking κ τ → List (Handler κ)
  | .calling _ h => [h]
  | _ => []

/-- What is entered behind those that are not later keeps the order. -/
theorem pairwise_orderedInsert {l : List (Handler κ × Nat)}
    (h : l.Pairwise fun x y => x.2 ≤ y.2) (x : Handler κ × Nat) :
    (l.orderedInsert Agenda.Before x).Pairwise fun x y => x.2 ≤ y.2 := by
  induction l with
  | nil => exact List.pairwise_singleton ..
  | cons y l ih =>
    obtain ⟨hy, hl⟩ := List.pairwise_cons.mp h
    rw [List.orderedInsert_cons]
    split
    · rename_i hxy
      have hlt : x.2 < y.2 := hxy
      refine List.pairwise_cons.mpr ⟨List.forall_mem_cons.mpr ⟨hlt.le, fun z hz => ?_⟩, h⟩
      exact hlt.le.trans (hy z hz)
    · rename_i hxy
      have hle : y.2 ≤ x.2 := Nat.le_of_not_lt hxy
      refine List.pairwise_cons.mpr ⟨fun z hz => ?_, ih hl⟩
      rcases (List.mem_orderedInsert _).mp hz with rfl | hz
      · exact hle
      · exact hy z hz

namespace Agenda

/-- The handlers are in the order of their times, none before the last one that was called, and
none as far ahead as 2^30 ms. -/
structure Sound (a : Agenda κ) : Prop where
  sorted : a.pending.Pairwise fun x y => x.2 ≤ y.2
  due_le : ∀ x ∈ a.pending, a.due ≤ x.2
  horizon : ∀ x ∈ a.pending, x.2 < a.clock + 2 ^ 30
  due_clock : a.due ≤ a.clock
  reading : ∀ now ∈ a.checking.reading, now ≤ a.clock ∧ a.due ≤ now

/-- Nothing is late by more than 2^30 ms. -/
structure Punctual (a : Agenda κ) : Prop where
  pending : ∀ x ∈ a.pending, a.clock ≤ x.2 + 2 ^ 30
  reading : ∀ now ∈ a.checking.reading, a.clock ≤ now + 2 ^ 30
  calling : a.checking.handler ≠ [] → a.clock ≤ a.due + 2 ^ 30

/-- What `sys_timeout` asserts of its argument. -/
def Fair (e : TimerEvent κ) : Prop := ∀ msecs ∈ e.msecs, msecs ≤ 0xffffffff / 4

def InTime (a : Agenda κ) (e : TimerEvent κ) : Prop := a.Punctual ∧ Fair e

instance (a : Agenda κ) : Decidable a.Punctual :=
  decidable_of_iff ((∀ x ∈ a.pending, a.clock ≤ x.2 + 2 ^ 30) ∧
    (∀ now ∈ a.checking.reading, a.clock ≤ now + 2 ^ 30) ∧
      (a.checking.handler ≠ [] → a.clock ≤ a.due + 2 ^ 30))
    ⟨fun h => ⟨h.1, h.2.1, h.2.2⟩, fun h => ⟨h.1, h.2, h.3⟩⟩

instance (a : Agenda κ) (e : TimerEvent κ) : Decidable (a.InTime e) :=
  inferInstanceAs (Decidable (_ ∧ ∀ msecs ∈ e.msecs, msecs ≤ 0xffffffff / 4))

variable {a : Agenda κ}

theorem mem_enter {h : Handler κ} {t : Nat} {x : Handler κ × Nat} (hx : x ∈ (a.enter h t).pending) :
    x = (h, t) ∨ x ∈ a.pending := by
  unfold enter at hx
  split at hx
  · exact (List.mem_orderedInsert _).mp hx
  · exact .inr hx

/-- Nothing but the list changes. -/
theorem enter_eq (a : Agenda κ) (h : Handler κ) (t : Nat) :
    a.enter h t = { a with pending := (a.enter h t).pending } := by
  unfold enter
  split <;> rfl

theorem enter_clock (a : Agenda κ) (h : Handler κ) (t : Nat) : (a.enter h t).clock = a.clock := by
  rw [enter_eq]

theorem enter_due (a : Agenda κ) (h : Handler κ) (t : Nat) : (a.enter h t).due = a.due := by
  rw [enter_eq]

theorem finish_clock (a : Agenda κ) (h : Handler κ) : (a.finish h).clock = a.clock := by
  cases h with
  | lwipCyclicTimer c => exact a.enter_clock ..
  | tcpipTcpTimer =>
    simp only [finish]
    split
    · exact a.enter_clock ..
    · rfl
  | other k => rfl

theorem finish_due (a : Agenda κ) (h : Handler κ) : (a.finish h).due = a.due := by
  cases h with
  | lwipCyclicTimer c => exact a.enter_due ..
  | tcpipTcpTimer =>
    simp only [finish]
    split
    · exact a.enter_due ..
    · rfl
  | other k => rfl

theorem Sound.enter (hs : a.Sound) (h : Handler κ) {t : Nat} (hlo : a.clock ≤ t)
    (hhi : t < a.clock + 2 ^ 30) : (a.enter h t).Sound := by
  rw [enter_eq]
  refine ⟨?_, fun x hx => ?_, fun x hx => ?_, hs.due_clock, hs.reading⟩
  · unfold Agenda.enter
    split
    · exact pairwise_orderedInsert hs.sorted _
    · exact hs.sorted
  · rcases mem_enter hx with rfl | hx
    · exact hs.due_clock.trans hlo
    · exact hs.due_le x hx
  · rcases mem_enter hx with rfl | hx
    · exact hhi
    · exact hs.horizon x hx

/-- Where a cyclic timer is entered again. -/
theorem Sound.next (hs : a.Sound) (c : CyclicTimer) {t : Nat}
    (ht : t = if a.due + c.intervalMs < a.clock then a.clock + c.intervalMs
      else a.due + c.intervalMs) : a.clock ≤ t ∧ t < a.clock + 2 ^ 30 := by
  have hdue := hs.due_clock
  have hinterval : c.intervalMs < 2 ^ 30 := by cases c <;> decide
  split at ht <;> omega

theorem Sound.finish (hs : a.Sound) (h : Handler κ) : (a.finish h).Sound := by
  cases h with
  | lwipCyclicTimer c =>
    obtain ⟨hlo, hhi⟩ := hs.next c rfl
    exact hs.enter _ hlo hhi
  | tcpipTcpTimer =>
    have hinterval : tcpTmrInterval < 2 ^ 30 := by decide
    simp only [Agenda.finish]
    split
    · exact hs.enter _ (Nat.le_add_right _ _) (Nat.add_lt_add_left hinterval _)
    · exact ⟨hs.sorted, hs.due_le, hs.horizon, hs.due_clock, hs.reading⟩
  | other k => exact hs

variable [DecidableEq κ]

/-- **The order is kept** by every step. -/
theorem Sound.step (hs : a.Sound) {e : TimerEvent κ} (he : Fair e) : (a.step e).2.Sound := by
  cases e with
  | pass ms =>
    refine ⟨hs.sorted, hs.due_le, fun x hx => ?_, hs.due_clock.trans (Nat.le_add_right _ _),
      fun now hnow => ?_⟩
    · exact (hs.horizon x hx).trans_le (Nat.add_le_add_right (Nat.le_add_right _ _) _)
    · obtain ⟨hle, hdue⟩ := hs.reading now hnow
      exact ⟨hle.trans (Nat.le_add_right _ _), hdue⟩
  | timeout msecs k =>
    have hmsecs := he msecs rfl
    exact hs.enter _ (Nat.le_add_right _ _) (by omega)
  | untimeout k =>
    have hsub := List.eraseP_sublist (p := fun x : Handler κ × Nat => x.1 = .other k)
      (l := a.pending)
    exact ⟨hs.sorted.sublist hsub, fun x hx => hs.due_le x (hsub.subset hx),
      fun x hx => hs.horizon x (hsub.subset hx), hs.due_clock, hs.reading⟩
  | tcpReg alive =>
    have hinterval : tcpTmrInterval < 2 ^ 30 := by decide
    simp only [Agenda.step]
    split
    · have hs' : Sound { a with tcpPcbs := true, active := true } :=
        ⟨hs.sorted, hs.due_le, hs.horizon, hs.due_clock, hs.reading⟩
      exact hs'.enter _ (Nat.le_add_right _ _) (Nat.add_lt_add_left hinterval _)
    · exact ⟨hs.sorted, hs.due_le, hs.horizon, hs.due_clock, hs.reading⟩
  | tcpRmv => exact ⟨hs.sorted, hs.due_le, hs.horizon, hs.due_clock, hs.reading⟩
  | check =>
    simp only [Agenda.step]
    split
    · refine ⟨hs.sorted, hs.due_le, hs.horizon, hs.due_clock, ?_⟩
      rintro now ⟨⟩
      exact ⟨Nat.le_refl _, hs.due_clock⟩
    · exact hs
  | round =>
    simp only [Agenda.step]
    split
    · rename_i now h t l hchecking hpending
      obtain ⟨hle, hdue⟩ := hs.reading now (by rw [hchecking]; rfl)
      have hsorted := hs.sorted
      rw [hpending] at hsorted
      obtain ⟨hfirst, hrest⟩ := List.pairwise_cons.mp hsorted
      have hsub : ∀ x ∈ l, x ∈ a.pending := fun x hx => hpending ▸ List.mem_cons_of_mem _ hx
      split
      · exact ⟨hs.sorted, hs.due_le, hs.horizon, hs.due_clock, by rintro _ ⟨⟩⟩
      · rename_i hexpired
        have ht : t ≤ now := Nat.le_of_not_lt hexpired
        refine ⟨hrest, hfirst, fun x hx => hs.horizon x (hsub x hx), ht.trans hle, ?_⟩
        rintro _ ⟨⟩
        exact ⟨hle, ht⟩
    · exact ⟨hs.sorted, hs.due_le, hs.horizon, hs.due_clock, by rintro _ ⟨⟩⟩
    · exact hs
  | ret =>
    simp only [Agenda.step]
    split
    · rename_i now h hchecking
      have hreading := hs.reading now (by rw [hchecking]; rfl)
      have hfin := hs.finish h
      refine ⟨hfin.sorted, hfin.due_le, hfin.horizon, hfin.due_clock, ?_⟩
      rintro _ ⟨⟩
      rw [finish_clock, finish_due]
      exact hreading
    · exact hs

end Agenda

/-! ## Refinement -/

/-- **The counter may wrap** between two times that are not too far apart. -/
theorem timeLessThan_uwTick {t u : Nat} (htu : t < u + 2 ^ 31) (hut : u ≤ t + 2 ^ 31) :
    timeLessThan (uwTick t) (uwTick u) = decide (t < u) := by
  simp only [timeLessThan, uwTick, BitVec.lt_def, BitVec.toNat_sub, BitVec.toNat_ofNat]
  congr 1
  apply propext
  omega

theorem uwTick_add (t ms : Nat) : uwTick t + BitVec.ofNat 32 ms = uwTick (t + ms) :=
  (BitVec.ofNat_add t ms).symm

def stamp (x : Handler κ × Nat) : Handler κ × BitVec 32 := (x.1, uwTick x.2)

def Checking.stamp : Checking κ Nat → Checking κ (BitVec 32)
  | .idle => .idle
  | .between now => .between (uwTick now)
  | .calling now h => .calling (uwTick now) h

/-- The program has the agenda, with the times as the counter shows them. -/
structure Represents (s : Stack κ) (a : Agenda κ) : Prop where
  sound : a.Sound
  list : ∃ slots free, s.timeouts.Holds slots free ∧
    s.timeouts.items slots = a.pending.map stamp
  due : s.currentTimeoutDueTime = uwTick a.due
  active : s.tcpipTcpTimerActive = a.active
  tcpPcbs : s.tcpPcbs = a.tcpPcbs
  checking : s.checking = a.checking.stamp
  clock : s.clock = a.clock

namespace Represents

variable {s : Stack κ} {a : Agenda κ}

/-- **A handler is entered** at the same place. -/
theorem abs (h : Represents s a) (hp : a.Punctual) (handler : Handler κ) {t : Nat}
    (hlo : a.clock ≤ t) (hhi : t < a.clock + 2 ^ 30) :
    ∃ s', s.abs (uwTick t) handler = some s' ∧ Represents s' (a.enter handler t) := by
  obtain ⟨slots, free, hholds, hitems⟩ := h.list
  obtain ⟨t', slots', free', habs, hholds', hitems'⟩ :=
    Timeouts.abs_items hholds (uwTick t) handler
  have hlen : slots.length = a.pending.length := by
    have := congrArg List.length hitems
    rwa [Timeouts.items, List.length_map, List.length_map] at this
  have horder : (a.pending.map stamp).orderedInsert Timeouts.Earlier (handler, uwTick t) =
      (a.pending.orderedInsert Agenda.Before (handler, t)).map stamp := by
    refine (List.map_orderedInsert _ _ stamp a.pending (handler, t) ?_ ?_).symm
    · intro x hx
      have hlate := hp.pending x hx
      have hahead := h.sound.horizon x hx
      rw [Timeouts.Earlier, stamp, stamp, timeLessThan_uwTick (by omega) (by omega),
        decide_eq_true_iff]
      rfl
    · intro x hx
      have hlate := hp.pending x hx
      have hahead := h.sound.horizon x hx
      rw [Timeouts.Earlier, stamp, stamp, timeLessThan_uwTick (by omega) (by omega),
        decide_eq_true_iff]
      rfl
  refine ⟨{ s with timeouts := t' }, ?_, h.sound.enter handler hlo hhi,
    ⟨slots', free', hholds', ?_⟩, ?_, ?_, ?_, ?_, ?_⟩
  · rw [Stack.abs, habs]
    rfl
  · rw [hitems', hlen, hitems, horder, Agenda.enter]
    split <;> rfl
  · rw [Agenda.enter_eq]
    exact h.due
  · rw [Agenda.enter_eq]
    exact h.active
  · rw [Agenda.enter_eq]
    exact h.tcpPcbs
  · rw [Agenda.enter_eq]
    exact h.checking
  · rw [Agenda.enter_eq]
    exact h.clock

theorem sysTimeout (h : Represents s a) (hp : a.Punctual) (handler : Handler κ) {msecs : Nat}
    (hmsecs : msecs < 2 ^ 30) :
    ∃ s', s.sysTimeout msecs handler = some s' ∧
      Represents s' (a.enter handler (a.clock + msecs)) := by
  rw [Stack.sysTimeout, Stack.sysNow, h.clock, uwTick_add]
  exact h.abs hp handler (Nat.le_add_right _ _) (Nat.add_lt_add_left hmsecs _)

/-- **A handler ends** in the same way. -/
theorem finish (h : Represents s a) (hp : a.Punctual) {now : Nat} {handler : Handler κ}
    (hcalling : a.checking = .calling now handler) :
    ∃ s', Timers.finish s handler = some s' ∧ Represents s' (a.finish handler) := by
  cases handler with
  | lwipCyclicTimer c =>
    have hlate := hp.calling (by rw [hcalling]; exact List.cons_ne_nil _ _)
    have hdue := h.sound.due_clock
    have hinterval : c.intervalMs < 2 ^ 30 := by cases c <;> decide
    obtain ⟨hlo, hhi⟩ := h.sound.next c rfl
    rw [Timers.finish, Stack.lwipCyclicTimer, Stack.sysNow, h.due, h.clock, uwTick_add, uwTick_add]
    rw [timeLessThan_uwTick (by omega) (by omega)]
    obtain ⟨s', habs, hrep⟩ := h.abs hp (.lwipCyclicTimer c) hlo hhi
    refine ⟨s', ?_, hrep⟩
    rw [← habs]
    split
    · rename_i hoverload
      rw [if_pos (of_decide_eq_true hoverload)]
    · rename_i hontime
      rw [if_neg fun hlt => hontime (decide_eq_true hlt)]
  | tcpipTcpTimer =>
    have hpcbs := h.tcpPcbs
    simp only [Timers.finish, Stack.tcpipTcpTimer, Agenda.finish, hpcbs]
    split
    · exact h.sysTimeout hp _ (by decide)
    · refine ⟨_, rfl, ?_, h.list, h.due, rfl, rfl, h.checking, h.clock⟩
      exact ⟨h.sound.sorted, h.sound.due_le, h.sound.horizon, h.sound.due_clock, h.sound.reading⟩
  | other k => exact ⟨s, rfl, h⟩

variable [DecidableEq κ]

/-- The program has the output of the agenda, and represents it after the step. -/
def Follows (s : Stack κ) (a : Agenda κ) (e : TimerEvent κ) : Prop :=
  ∃ t, timerStep s e = some ((a.step e).1, t) ∧ Represents t (a.step e).2

theorem untimeout (h : Represents s a) (k : κ) : Follows s a (.untimeout k) := by
  obtain ⟨slots, free, hholds, hitems⟩ := h.list
  obtain ⟨t', slots', free', hun, hholds', hitems'⟩ :=
    Timeouts.untimeout_items hholds (.other k)
  refine ⟨{ s with timeouts := t' }, ?_, h.sound.step (fair_of_none rfl), ⟨slots', free', hholds', ?_⟩, h.due,
    h.active, h.tcpPcbs, h.checking, h.clock⟩
  · rw [timerStep, hun]
    rfl
  · rw [hitems', hitems, List.eraseP_map]
    rfl

theorem tcpReg (h : Represents s a) (hp : a.Punctual) (alive : Bool) :
    Follows s a (.tcpReg alive) := by
  obtain ⟨timeouts, due, active, tcpPcbs, checking, clock⟩ := s
  obtain ⟨hs, hlist, rfl, rfl, rfl, rfl, rfl⟩ := h
  simp only [Follows, timerStep, Agenda.step, Stack.tcpTimerNeeded]
  split
  · rename_i hneeded
    have hactive : Represents
        ⟨timeouts, uwTick a.due, true, a.tcpPcbs || alive, a.checking.stamp, a.clock⟩
        { a with tcpPcbs := true, active := true } :=
      ⟨⟨hs.sorted, hs.due_le, hs.horizon, hs.due_clock, hs.reading⟩, hlist, rfl, rfl, hneeded.2, rfl,
        rfl⟩
    have hp' : Agenda.Punctual { a with tcpPcbs := true, active := true } :=
      ⟨hp.pending, hp.reading, hp.calling⟩
    have hinterval : tcpTmrInterval < 2 ^ 30 := by decide
    obtain ⟨s', habs, hrep⟩ := hactive.sysTimeout hp' .tcpipTcpTimer hinterval
    exact ⟨s', by rw [habs]; rfl, hrep⟩
  · refine ⟨_, rfl, ?_, hlist, rfl, rfl, rfl, rfl, rfl⟩
    exact ⟨hs.sorted, hs.due_le, hs.horizon, hs.due_clock, hs.reading⟩

theorem check (h : Represents s a) : Follows s a .check := by
  have hsound := h.sound.step (e := .check) (fair_of_none rfl)
  obtain ⟨timeouts, due, active, tcpPcbs, checking, clock⟩ := s
  obtain ⟨hs, hlist, rfl, rfl, rfl, rfl, rfl⟩ := h
  cases hc : a.checking with
  | idle =>
    simp only [Follows, timerStep, Agenda.step, hc, Checking.stamp] at hsound ⊢
    exact ⟨_, rfl, hsound, hlist, rfl, rfl, rfl, rfl, rfl⟩
  | between now =>
    simp only [Follows, timerStep, Agenda.step, hc, Checking.stamp]
    exact ⟨_, rfl, hs, hlist, rfl, rfl, rfl, by rw [hc]; rfl, rfl⟩
  | calling now handler =>
    simp only [Follows, timerStep, Agenda.step, hc, Checking.stamp]
    exact ⟨_, rfl, hs, hlist, rfl, rfl, rfl, by rw [hc]; rfl, rfl⟩

/-- **A round** calls the same handler, or ends the check. -/
theorem round (h : Represents s a) (hp : a.Punctual) : Follows s a .round := by
  have hsound := h.sound.step (e := .round) (fair_of_none rfl)
  obtain ⟨timeouts, due, active, tcpPcbs, checking, clock⟩ := s
  obtain ⟨hs, ⟨slots, free, hholds, hitems⟩, rfl, rfl, rfl, rfl, rfl⟩ := h
  cases hc : a.checking with
  | idle =>
    simp only [Follows, timerStep, Agenda.step, hc, Checking.stamp]
    exact ⟨_, rfl, hs, ⟨slots, free, hholds, hitems⟩, rfl, rfl, rfl, by rw [hc]; rfl, rfl⟩
  | calling now handler =>
    simp only [Follows, timerStep, Agenda.step, hc, Checking.stamp]
    exact ⟨_, rfl, hs, ⟨slots, free, hholds, hitems⟩, rfl, rfl, rfl, by rw [hc]; rfl, rfl⟩
  | between now =>
    have hreading : now ∈ a.checking.reading := by rw [hc]; rfl
    obtain ⟨hnow, -⟩ := hs.reading now hreading
    have hlate := hp.reading now hreading
    have hless : ∀ x ∈ a.pending, timeLessThan (uwTick now) (uwTick x.2) = decide (now < x.2) := by
      intro x hx
      have hahead := hs.horizon x hx
      have hbehind := hp.pending x hx
      exact timeLessThan_uwTick (by omega) (by omega)
    rcases Timeouts.pop_items hholds (uwTick now) with ⟨hpop, hhead⟩ |
      ⟨x, l, t', slots', free', hpop, hcons, hexpired, hholds', hitems'⟩
    · have hidle : Agenda.step a .round = (none, { a with checking := .idle }) := by
        cases hl : a.pending with
        | nil => simp only [Agenda.step, hc, hl]
        | cons y ys =>
          have hy := hless y (hl ▸ List.mem_cons_self)
          rw [hitems, hl, List.map_cons, List.head?_cons] at hhead
          have hlt : now < y.2 := of_decide_eq_true (hy.symm.trans (hhead _ rfl))
          simp only [Agenda.step, hc, hl, hlt, if_true]
      rw [hidle] at hsound
      rw [Follows, hidle]
      simp only [timerStep, Checking.stamp, hpop]
      exact ⟨_, rfl, hsound, ⟨slots, free, hholds, hitems⟩, rfl, rfl, rfl, rfl, rfl⟩
    · rw [hitems] at hcons
      obtain ⟨y, ys, hl, rfl, hys⟩ := List.map_eq_cons_iff.mp hcons
      have hy := hless y (hl ▸ List.mem_cons_self)
      have hnot : ¬now < y.2 := fun hlt =>
        Bool.eq_false_iff.mp hexpired (hy.trans (decide_eq_true hlt))
      have hcall : Agenda.step a .round = (some (y.1, uwTick y.2),
          { a with pending := ys, due := y.2, checking := .calling now y.1 }) := by
        simp only [Agenda.step, hc, hl, hnot, if_false]
      rw [hcall] at hsound
      rw [Follows, hcall]
      simp only [timerStep, Checking.stamp, hpop]
      exact ⟨_, rfl, hsound, ⟨slots', free', hholds', hitems'.trans hys.symm⟩, rfl, rfl, rfl, rfl,
        rfl⟩

theorem ret (h : Represents s a) (hp : a.Punctual) : Follows s a .ret := by
  have hsound := h.sound.step (e := .ret) (fair_of_none rfl)
  cases hc : a.checking with
  | idle =>
    rw [Follows, timerStep, h.checking, hc]
    simp only [Agenda.step, hc, Checking.stamp]
    exact ⟨s, rfl, h⟩
  | between now =>
    rw [Follows, timerStep, h.checking, hc]
    simp only [Agenda.step, hc, Checking.stamp]
    exact ⟨s, rfl, h⟩
  | calling now handler =>
    obtain ⟨s', hfinish, hrep⟩ := h.finish hp hc
    simp only [Agenda.step, hc] at hsound
    rw [Follows, timerStep, h.checking, hc]
    simp only [Agenda.step, hc, Checking.stamp, hfinish]
    exact ⟨_, rfl, hsound, hrep.list, hrep.due, hrep.active, hrep.tcpPcbs, rfl, hrep.clock⟩

/-- **Every step** of the program is that of the agenda. -/
theorem step (h : Represents s a) {e : TimerEvent κ} (he : a.InTime e) : Follows s a e := by
  obtain ⟨hp, hfair⟩ := he
  cases e with
  | pass ms =>
    have hsound := h.sound.step hfair
    exact ⟨_, rfl, hsound, h.list, h.due, h.active, h.tcpPcbs, h.checking,
      congrArg (· + ms) h.clock⟩
  | timeout msecs k =>
    have hmsecs := hfair msecs rfl
    have hlt : msecs < 2 ^ 30 := by omega
    obtain ⟨s', habs, hrep⟩ := h.sysTimeout hp (.other k) hlt
    exact ⟨s', by rw [timerStep, habs]; rfl, hrep⟩
  | untimeout k => exact h.untimeout k
  | tcpReg alive => exact h.tcpReg hp alive
  | tcpRmv =>
    exact ⟨_, rfl, h.sound.step (fair_of_none rfl), h.list, h.due, h.active, rfl, h.checking, h.clock⟩
  | check => exact h.check
  | round => exact h.round hp
  | ret => exact h.ret hp

end Represents

/-! ## Runs -/

namespace Agenda

theorem sound_start (t : Nat) : (start t : Agenda κ).Sound := by
  refine ⟨?_, fun _ _ => Nat.zero_le _, ?_, Nat.zero_le _, by rintro _ ⟨⟩⟩
  · simp [start]
  · intro x hx
    have hx' : x.2 = t + 1000 := by
      rcases List.mem_cons.mp hx with rfl | hx
      · rfl
      · rw [List.mem_singleton.mp hx]
    show x.2 < t + 2 ^ 30
    omega

end Agenda

/-- **The timers are started.** -/
theorem init_represents (memory : Nat → SysTimeo κ) (tab : Option Nat) (t : Nat) :
    ∃ s, (Stack.boot memory tab t).sysTimeoutsInit = some s ∧ Represents s (Agenda.start t) := by
  have hboot : Represents (Stack.boot memory tab t) ⟨[], 0, false, false, .idle, t⟩ :=
    ⟨⟨.nil, List.forall_mem_nil _, List.forall_mem_nil _, Nat.zero_le _, by rintro _ ⟨⟩⟩,
      ⟨[], _, Timeouts.holds_init memory tab, rfl⟩, rfl, rfl, rfl, rfl, rfl⟩
  have hpunctual : Agenda.Punctual (⟨[], 0, false, false, .idle, t⟩ : Agenda κ) :=
    ⟨List.forall_mem_nil _, by rintro _ ⟨⟩, fun h => absurd rfl h⟩
  obtain ⟨s₁, hs₁, hrep₁⟩ := hboot.sysTimeout hpunctual (.lwipCyclicTimer .ipReass)
    (show 1000 < 2 ^ 30 by decide)
  have hpunctual₁ : Agenda.Punctual (Agenda.enter (⟨[], 0, false, false, .idle, t⟩ : Agenda κ)
      (.lwipCyclicTimer .ipReass) (t + 1000)) := by
    refine ⟨fun x hx => ?_, by rintro _ ⟨⟩, fun h => absurd rfl h⟩
    rcases Agenda.mem_enter hx with rfl | hx
    · show t ≤ t + 1000 + 2 ^ 30
      omega
    · cases hx
  obtain ⟨s₂, hs₂, hrep₂⟩ := hrep₁.sysTimeout hpunctual₁ (.lwipCyclicTimer .etharp)
    (show 1000 < 2 ^ 30 by decide)
  have hstart : ((⟨[], 0, false, false, .idle, t⟩ : Agenda κ).enter (.lwipCyclicTimer .ipReass)
      (t + 1000)).enter (.lwipCyclicTimer .etharp) (t + 1000) = Agenda.start t := by
    have hnot : ¬Agenda.Before (Handler.lwipCyclicTimer (κ := κ) .etharp, t + 1000)
        (.lwipCyclicTimer .ipReass, t + 1000) := Nat.lt_irrefl _
    simp [Agenda.enter, Agenda.start, mempNumSysTimeout, lwipNumSysTimeoutInternal, hnot]
  rw [Agenda.enter_clock, hstart] at hrep₂
  refine ⟨s₂, ?_, hrep₂⟩
  have hrest : ([CyclicTimer.etharp].foldlM (fun s cyclic =>
      s.sysTimeout cyclic.intervalMs (.lwipCyclicTimer cyclic)) s₁ : Option (Stack κ)) = some s₂ := by
    rw [List.foldlM_cons, CyclicTimer.intervalMs, hs₂]
    rfl
  rw [Stack.sysTimeoutsInit, List.foldlM_cons, CyclicTimer.intervalMs, hs₁]
  exact hrest

variable [DecidableEq κ]

section Along

variable {s : Stack κ} {a : Agenda κ} {es : List (TimerEvent κ)}

/-- Along a run that is in time the program does what the agenda does. -/
theorem Represents.runs (hrep : Represents s a) (h : SpecAlong Agenda.step Agenda.InTime a es) :
    ∃ u, run timerStep s es = some ((specRun Agenda.step a es).1, u) ∧
      Represents u (specRun Agenda.step a es).2 :=
  run_refines_along (fun _ _ _ hR hG => hR.step hG) hrep h

theorem Represents.of_run (hrep : Represents s a) (h : SpecAlong Agenda.step Agenda.InTime a es)
    {log : List (TimerEvent κ × Option (Handler κ × BitVec 32))} {u : Stack κ}
    (hrun : run timerStep s es = some (log, u)) : Represents u (specRun Agenda.step a es).2 := by
  obtain ⟨u', hrun', hu⟩ := hrep.runs h
  obtain ⟨-, rfl⟩ := Prod.mk.inj (Option.some.inj (hrun.symm.trans hrun'))
  exact hu

end Along

/-- **The program refines the agenda**: as long as nothing is late by more than 2^30 ms, the same
handlers are called in the same order, at the times that they are due, and no loop over the timeouts
goes on for ever; that the counter wraps does not matter. -/
theorem timers_refine (memory : Nat → SysTimeo κ) (tab : Option Nat) (t : Nat)
    {es : List (TimerEvent κ)} (h : SpecAlong Agenda.step Agenda.InTime (Agenda.start t) es) :
    ∃ s₀ s, (Stack.boot memory tab t).sysTimeoutsInit = some s₀ ∧
      run timerStep s₀ es = some ((specRun Agenda.step (Agenda.start t) es).1, s) ∧
      Represents s (specRun Agenda.step (Agenda.start t) es).2 := by
  obtain ⟨s₀, hinit, hrep⟩ := init_represents memory tab t
  obtain ⟨s, hrun, hlast⟩ := hrep.runs h
  exact ⟨s₀, s, hinit, hrun, hlast⟩

/-- A connection and a timeout, and a check after both have expired. -/
def halfSecond : List (TimerEvent Nat) :=
  [.tcpReg true, .timeout 500 7, .pass 600, .check, .round, .ret, .round, .ret, .round]

/-- The counter wraps while the timeouts wait. -/
theorem timers_refine_halfSecond :
    ∃ s₀ s, (Stack.boot (fun _ => ⟨none, 0, .other 0⟩) none (2 ^ 32 - 300)).sysTimeoutsInit =
        some s₀ ∧
      run timerStep s₀ halfSecond =
        some ((specRun Agenda.step (Agenda.start (2 ^ 32 - 300)) halfSecond).1, s) ∧
      Represents s (specRun Agenda.step (Agenda.start (2 ^ 32 - 300)) halfSecond).2 :=
  timers_refine _ _ _ (by decide +kernel)

end MqttDevice.Timers
