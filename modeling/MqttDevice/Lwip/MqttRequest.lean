import MqttDevice.Lib.DeltaList
import MqttDevice.Lib.Links

/-!
# The request queue of the MQTT client (`mqtt.c`)

A request that waits for an answer is an item of a small array. The items in use are linked, each
with the time by which it times out after the one before it; an item that is not in use points to
itself.

* `Requests.Holds`: which items are in the queue, and in which order;
* `append_items`, `take_items`, `elapsed_items`, `sent_items`, `clear_items`: what the functions
  do to the queue, as a queue with time differences.
-/

namespace MqttDevice.Lwip

open MqttDevice.DeltaList MqttDevice.Links

/-! ## The program -/

def mqttReqMaxInFlight : Nat := 4

/-- `MQTT_REQ_TIMEOUT`, in seconds. -/
def mqttReqTimeout : Nat := 30

/-- `struct mqtt_request_t`; `cb` is the callback with its argument. -/
structure MqttRequest (ρ : Type*) where
  next : Option Nat
  cb : Option ρ
  pktId : BitVec 16
  timeoutDiff : BitVec 16

/-- `pend_req_queue` and `req_list` of a client. -/
structure Requests (ρ : Type*) where
  pendReqQueue : Option Nat
  reqList : Nat → MqttRequest ρ

namespace Requests

variable {ρ : Type*}

def set (s : Requests ρ) (i : Nat) (r : MqttRequest ρ) : Requests ρ :=
  { s with reqList := Function.update s.reqList i r }

/-- The pointers. -/
def next (s : Requests ρ) (i : Nat) : Option Nat := (s.reqList i).next

def setNext (s : Requests ρ) (i : Nat) (next : Option Nat) : Requests ρ :=
  s.set i { s.reqList i with next := next }

def setTimeoutDiff (s : Requests ρ) (i : Nat) (timeoutDiff : BitVec 16) : Requests ρ :=
  s.set i { s.reqList i with timeoutDiff := timeoutDiff }

end Requests

section Program

variable {ρ : Type*}

/-- The items of a client that `mqtt_client_new` has allocated: none can be used before
`mqtt_init_requests`. -/
def mqttNoRequests : Requests ρ := ⟨none, fun _ => ⟨none, none, 0, 0⟩⟩

/-- `mqtt_init_requests`, of a client that is wiped clean. -/
def mqttInitRequests : Requests ρ := ⟨none, fun i => ⟨some i, none, 0, 0⟩⟩

/-- `mqtt_create_request` -/
def mqttCreateRequest (pktId : BitVec 16) (cb : Option ρ) (s : Requests ρ) :
    Option (Nat × Requests ρ) :=
  match (List.range mqttReqMaxInFlight).find? fun n => s.next n = some n with
  | none => none
  | some n => some (n, s.set n { s.reqList n with next := none, cb := cb, pktId := pktId })

/-- `mqtt_delete_request` -/
def mqttDeleteRequest (r : Nat) (s : Requests ρ) : Requests ρ := s.setNext r (some r)

/-- The loop of `mqtt_append_request`: `time_before` and `head`. A loop over the queue is followed
for as many rounds as there are items; there is no result if it goes on. -/
def appendLoop (s : Requests ρ) : Nat → Option Nat → BitVec 16 → Option Nat →
    Option (BitVec 16 × Option Nat)
  | _, none, timeBefore, head => some (timeBefore, head)
  | 0, some _, _, _ => none
  | n + 1, some i, timeBefore, _ =>
    appendLoop s n (s.next i) (timeBefore + (s.reqList i).timeoutDiff) (some i)

/-- `mqtt_append_request` -/
def mqttAppendRequest (r : Nat) (s : Requests ρ) : Option (Requests ρ) :=
  (appendLoop s mqttReqMaxInFlight s.pendReqQueue 0 none).map fun (timeBefore, head) =>
    let s := s.setTimeoutDiff r (BitVec.ofNat 16 mqttReqTimeout - timeBefore)
    match head with
    | none => { s with pendReqQueue := some r }
    | some head => s.setNext head (some r)

/-- The loop of `mqtt_take_request`: `iter` and `prev`. -/
def takeLoop (s : Requests ρ) (pktId : BitVec 16) : Nat → Option Nat → Option Nat →
    Option (Option Nat × Option Nat)
  | _, none, prev => some (none, prev)
  | 0, some _, _ => none
  | n + 1, some i, prev =>
    if (s.reqList i).pktId = pktId then some (some i, prev)
    else takeLoop s pktId n (s.next i) (some i)

/-- `mqtt_take_request` -/
def mqttTakeRequest (pktId : BitVec 16) (s : Requests ρ) : Option (Option Nat × Requests ρ) :=
  (takeLoop s pktId mqttReqMaxInFlight s.pendReqQueue none).map fun (iter, prev) =>
    match iter with
    | none => (none, s)
    | some i =>
      let s :=
        match prev with
        | none => { s with pendReqQueue := s.next i }
        | some prev => s.setNext prev (s.next i)
      let s :=
        match s.next i with
        | none => s
        | some next => s.setTimeoutDiff next
          ((s.reqList next).timeoutDiff + (s.reqList i).timeoutDiff)
      (some i, s.setNext i none)

/-- `mqtt_request_time_elapsed`: the callbacks that are called for a timeout, and the queue. They
do not touch the queue themselves. -/
def mqttRequestTimeElapsed : Nat → BitVec 8 → Requests ρ → Option (List (Option ρ) × Requests ρ)
  | rounds, t, s =>
    if t = 0 then some ([], s)
    else
      match s.pendReqQueue, rounds with
      | none, _ => some ([], s)
      | some _, 0 => none
      | some r, n + 1 =>
        if (s.reqList r).timeoutDiff.toNat ≤ t.toNat then
          let rest := mqttRequestTimeElapsed n (t - (s.reqList r).timeoutDiff.setWidth 8)
            (mqttDeleteRequest r { s with pendReqQueue := s.next r })
          rest.map fun (cbs, s') => ((s.reqList r).cb :: cbs, s')
        else
          some ([], s.setTimeoutDiff r ((s.reqList r).timeoutDiff - t.setWidth 16))

/-- The loop of `mqtt_clear_requests`. -/
def clearLoop : Nat → Option Nat → Requests ρ → Option (Requests ρ)
  | _, none, s => some s
  | 0, some _, _ => none
  | n + 1, some i, s => clearLoop n (s.next i) (mqttDeleteRequest i s)

/-- `mqtt_clear_requests` -/
def mqttClearRequests (s : Requests ρ) : Option (Requests ρ) :=
  (clearLoop mqttReqMaxInFlight s.pendReqQueue s).map fun s => { s with pendReqQueue := none }

/-- The loop of `mqtt_tcp_sent_cb` over the requests with the packet identifier 0. -/
def sentLoop : Nat → Requests ρ → Option (List (Option ρ) × Requests ρ)
  | rounds, s =>
    match mqttTakeRequest 0 s, rounds with
    | none, _ => none
    | some (none, s), _ => some ([], s)
    | some (some _, _), 0 => none
    | some (some r, s), n + 1 =>
      (sentLoop n (mqttDeleteRequest r s)).map fun (cbs, s') => ((s.reqList r).cb :: cbs, s')

end Program

/-! ## The queue -/

section Queue

variable {ρ : Type*}

/-- What a request is looked up by, and its callback. -/
abbrev Pending (ρ : Type*) := BitVec 16 × Option ρ

/-- The request, and its time after the one before it. -/
def MqttRequest.item (r : MqttRequest ρ) : Pending ρ × Nat := ((r.pktId, r.cb), r.timeoutDiff.toNat)

namespace Requests

/-- The queue consists of the items `slots`. Those in `busy` are in use without being in the queue,
and all others are free. -/
structure Holds (s : Requests ρ) (slots busy : List Nat) : Prop where
  links : LinksTo s.next s.pendReqQueue slots
  nodup : (slots ++ busy).Nodup
  lt : ∀ i ∈ slots ++ busy, i < mqttReqMaxInFlight
  free : ∀ i < mqttReqMaxInFlight, i ∉ slots ++ busy → s.next i = some i
  used : ∀ i ∈ busy, s.next i ≠ some i

/-- The requests in the queue with the time from one to the next. -/
def items (s : Requests ρ) (slots : List Nat) : List (Pending ρ × Nat) :=
  slots.map fun i => (s.reqList i).item

variable {s : Requests ρ} {slots busy : List Nat}

theorem items_congr {s' : Requests ρ} (h : ∀ i ∈ slots, (s'.reqList i).item = (s.reqList i).item) :
    s'.items slots = s.items slots := List.map_congr_left h

theorem set_of_ne (s : Requests ρ) {i j : Nat} (h : j ≠ i) (r : MqttRequest ρ) :
    (s.set i r).reqList j = s.reqList j := Function.update_of_ne h ..

@[simp] theorem set_self (s : Requests ρ) (i : Nat) (r : MqttRequest ρ) :
    (s.set i r).reqList i = r := Function.update_self ..

theorem next_setNext (s : Requests ρ) (i : Nat) (n : Option Nat) :
    (s.setNext i n).next = Function.update s.next i n := by
  funext j
  by_cases hj : j = i
  · rw [hj, next, setNext, set_self, Function.update_self]
  · rw [next, setNext, s.set_of_ne hj, Function.update_of_ne hj]
    rfl

theorem item_setNext (s : Requests ρ) (i : Nat) (n : Option Nat) (j : Nat) :
    ((s.setNext i n).reqList j).item = (s.reqList j).item := by
  by_cases hj : j = i
  · rw [hj, setNext, set_self]
    rfl
  · rw [setNext, s.set_of_ne hj]

@[simp] theorem items_setNext (s : Requests ρ) (i : Nat) (n : Option Nat) (slots : List Nat) :
    (s.setNext i n).items slots = s.items slots := items_congr fun j _ => s.item_setNext i n j

theorem next_setTimeoutDiff (s : Requests ρ) (i : Nat) (d : BitVec 16) :
    (s.setTimeoutDiff i d).next = s.next := by
  funext j
  by_cases hj : j = i
  · rw [hj, next, setTimeoutDiff, set_self]
    rfl
  · rw [next, setTimeoutDiff, s.set_of_ne hj]
    rfl

theorem Holds.nodup_slots (h : s.Holds slots busy) : slots.Nodup :=
  (List.nodup_append.mp h.nodup).1

theorem Holds.not_mem_busy (h : s.Holds slots busy) {i : Nat} (hi : i ∈ slots) : i ∉ busy :=
  fun hbusy => (List.nodup_append.mp h.nodup).2.2 i hi i hbusy rfl

theorem Holds.length_le (h : s.Holds slots busy) :
    slots.length + busy.length ≤ mqttReqMaxInFlight := by
  have hsub := h.nodup.subperm fun i hi => List.mem_range.mpr (h.lt i hi)
  simpa using hsub.length_le

theorem Holds.length_slots_le (h : s.Holds slots busy) : slots.length ≤ mqttReqMaxInFlight :=
  (Nat.le_add_right ..).trans h.length_le

theorem holds_none : (mqttNoRequests : Requests ρ).Holds [] (List.range mqttReqMaxInFlight) :=
  ⟨rfl, List.nodup_range, fun _ => List.mem_range.mp,
    fun _ hi hnot => absurd (List.mem_range.mpr hi) hnot, fun _ _ => nofun⟩

theorem holds_init : (mqttInitRequests : Requests ρ).Holds [] [] :=
  ⟨rfl, List.nodup_nil, List.forall_mem_nil _, fun _ _ _ => rfl, List.forall_mem_nil _⟩

/-- An item is free exactly when it points to itself. -/
theorem Holds.free_iff (h : s.Holds slots busy) {i : Nat} (hi : i < mqttReqMaxInFlight) :
    s.next i = some i ↔ i ∉ slots ++ busy := by
  refine ⟨fun hself hmem => ?_, h.free i hi⟩
  rcases List.mem_append.mp hmem with hmem | hmem
  · exact h.links.ne_self h.nodup_slots hmem hself
  · exact h.used i hmem hself

/-- **An item is found** exactly when one is free. -/
theorem Holds.create (h : s.Holds slots busy) (pktId : BitVec 16) (cb : Option ρ) :
    if slots.length + busy.length < mqttReqMaxInFlight then
      ∃ r < mqttReqMaxInFlight, r ∉ slots ++ busy ∧ mqttCreateRequest pktId cb s =
        some (r, s.set r { s.reqList r with next := none, cb := cb, pktId := pktId })
    else mqttCreateRequest pktId cb s = none := by
  unfold mqttCreateRequest
  cases hfind : (List.range mqttReqMaxInFlight).find? fun n => s.next n = some n with
  | some r =>
    have hself : s.next r = some r := by simpa using List.find?_some hfind
    have hr := List.mem_range.mp (List.mem_of_find?_eq_some hfind)
    have hnot := (h.free_iff hr).mp hself
    have hall : ∀ i ∈ r :: (slots ++ busy), i < mqttReqMaxInFlight :=
      List.forall_mem_cons.mpr ⟨hr, h.lt⟩
    have hsub := (List.nodup_cons.mpr ⟨hnot, h.nodup⟩).subperm fun i hi =>
      List.mem_range.mpr (hall i hi)
    have hlen := hsub.length_le
    rw [List.length_cons, List.length_append, List.length_range] at hlen
    rw [if_pos (by omega)]
    exact ⟨r, hr, hnot, rfl⟩
  | none =>
    have hused : ∀ i < mqttReqMaxInFlight, i ∈ slots ++ busy := by
      intro i hi
      by_contra hmem
      exact absurd (h.free i hi hmem)
        (by simpa using List.find?_eq_none.mp hfind i (List.mem_range.mpr hi))
    have hsub := List.nodup_range.subperm fun i hi => hused i (List.mem_range.mp hi)
    have hlen := hsub.length_le
    rw [List.length_append, List.length_range] at hlen
    rw [if_neg (by omega)]

/-- A free item is filled in, and is in use from then on. -/
theorem Holds.occupy (h : s.Holds slots busy) {r : Nat} (hr : r < mqttReqMaxInFlight)
    (hnot : r ∉ slots ++ busy) (q : MqttRequest ρ) (hq : q.next ≠ some r) :
    (s.set r q).Holds slots (r :: busy) ∧ (s.set r q).items slots = s.items slots := by
  have hother {i : Nat} (hi : i ≠ r) : (s.set r q).next i = s.next i :=
    congrArg MqttRequest.next (s.set_of_ne hi q)
  have hslot {i : Nat} (hi : i ∈ slots) : i ≠ r := by
    rintro rfl
    exact hnot (List.mem_append_left busy hi)
  refine ⟨⟨h.links.congr fun i hi => hother (hslot hi), ?_, ?_, fun i hi hmem => ?_, ?_⟩,
    items_congr fun i hi => congrArg MqttRequest.item (s.set_of_ne (hslot hi) q)⟩
  · exact List.nodup_middle.mpr (List.nodup_cons.mpr ⟨hnot, h.nodup⟩)
  · intro i hi
    rcases List.mem_cons.mp (List.perm_middle.mem_iff.mp hi) with rfl | hi
    · exact hr
    · exact h.lt i hi
  · obtain ⟨hir, hmem⟩ := not_or.mp fun hor =>
      hmem (List.perm_middle.mem_iff.mpr (List.mem_cons.mpr hor))
    rw [hother hir]
    exact h.free i hi hmem
  · rintro i (_ | ⟨_, hi⟩)
    · rw [next, set_self]
      exact hq
    · have hir : i ≠ r := fun heq => hnot (List.mem_append_right slots (heq ▸ hi))
      rw [hother hir]
      exact h.used i hi

/-- The time of an item is set. -/
theorem Holds.setTimeoutDiff (h : s.Holds slots busy) (i : Nat) (d : BitVec 16) :
    (s.setTimeoutDiff i d).Holds slots busy := by
  have hnext := s.next_setTimeoutDiff i d
  exact ⟨hnext ▸ h.links, h.nodup, h.lt, hnext ▸ h.free, hnext ▸ h.used⟩

/-- An item that is not in the queue is given back. -/
theorem Holds.delete {i : Nat} (h : s.Holds slots (i :: busy)) :
    (mqttDeleteRequest i s).Holds slots busy := by
  obtain ⟨hnot, hnodup⟩ := List.nodup_cons.mp (List.nodup_middle.mp h.nodup)
  have hother {j : Nat} (hj : j ≠ i) : (mqttDeleteRequest i s).next j = s.next j := by
    rw [mqttDeleteRequest, next_setNext, Function.update_of_ne hj]
  have hne {j : Nat} (hj : j ∈ slots ++ busy) : j ≠ i := ne_of_mem_of_not_mem hj hnot
  refine ⟨h.links.congr fun j hj => hother (hne (List.mem_append_left busy hj)), hnodup,
    fun j hj => h.lt j (List.perm_middle.mem_iff.mpr (List.mem_cons_of_mem i hj)),
    fun j hj hmem => ?_, fun j hj => ?_⟩
  · by_cases hji : j = i
    · rw [mqttDeleteRequest, next_setNext, hji, Function.update_self]
    · rw [hother hji]
      refine h.free j hj fun hin => ?_
      rcases List.mem_cons.mp (List.perm_middle.mem_iff.mp hin) with heq | hin
      · exact hji heq
      · exact hmem hin
  · rw [hother (hne (List.mem_append_right slots hj))]
    exact h.used j (List.mem_cons_of_mem i hj)

@[simp] theorem items_delete (i : Nat) (slots : List Nat) :
    (mqttDeleteRequest i s).items slots = s.items slots := items_setNext ..

theorem appendLoop_eq {p : Option Nat} (h : LinksTo s.next p slots) {n : Nat}
    (hn : slots.length ≤ n) (timeBefore : BitVec 16) (head : Option Nat) :
    appendLoop s n p timeBefore head =
      some (timeBefore + BitVec.ofNat 16 (total (s.items slots)), slots.getLast?.or head) := by
  induction slots generalizing p n timeBefore head with
  | nil =>
    have hp : p = none := h
    rw [hp]
    cases n <;> simp [appendLoop, items, total]
  | cons i slots ih =>
    obtain ⟨rfl, hrest⟩ := h
    obtain ⟨n, rfl⟩ := Nat.exists_eq_succ_of_ne_zero (by
      rw [List.length_cons] at hn
      omega : n ≠ 0)
    have hitems : s.items (i :: slots) = (s.reqList i).item :: s.items slots := rfl
    rw [appendLoop, ih hrest (Nat.le_of_succ_le_succ hn), hitems, MqttRequest.item, total_cons,
      BitVec.ofNat_add, BitVec.ofNat_toNat, BitVec.setWidth_eq, BitVec.add_assoc]
    cases hl : slots.getLast? <;> simp [List.getLast?_cons, hl]

/-- An item is hung behind the queue. -/
theorem Holds.link {r : Nat} (h : s.Holds slots (r :: busy)) (hnext : s.next r = none)
    {s' : Requests ρ} (hs' : s' = match slots.getLast? with
      | none => { s with pendReqQueue := some r }
      | some head => s.setNext head (some r)) :
    s'.Holds (slots ++ [r]) busy ∧ s'.items (slots ++ [r]) = s.items (slots ++ [r]) := by
  have hassoc : slots ++ [r] ++ busy = slots ++ r :: busy := by simp
  have hr : r ∉ slots ++ busy := (List.nodup_cons.mp (List.nodup_middle.mp h.nodup)).1
  cases hlast : slots.getLast? with
  | none =>
    rw [hlast] at hs'
    obtain rfl := List.getLast?_eq_none_iff.mp hlast
    subst hs'
    exact ⟨⟨⟨rfl, hnext⟩, hassoc ▸ h.nodup, hassoc ▸ h.lt, hassoc ▸ h.free,
      fun i hi => h.used i (List.mem_cons_of_mem r hi)⟩, rfl⟩
  | some head =>
    rw [hlast] at hs'
    obtain ⟨xs, rfl⟩ := List.getLast?_eq_some_iff.mp hlast
    subst hs'
    have hmem : head ∈ xs ++ [head] := List.mem_append_right _ (List.mem_singleton_self _)
    have hhead : head ∉ xs := fun hin =>
      (List.nodup_append.mp h.nodup_slots).2.2 head hin head (List.mem_singleton_self _) rfl
    have hne : r ≠ head := fun heq => hr (List.mem_append_left busy (heq ▸ hmem))
    have hother {i : Nat} (hi : i ≠ head) : (s.setNext head (some r)).next i = s.next i := by
      rw [next_setNext, Function.update_of_ne hi]
    refine ⟨⟨?_, hassoc ▸ h.nodup, hassoc ▸ h.lt, fun i hi hnot => ?_, fun i hi => ?_⟩,
      items_setNext ..⟩
    · rw [next_setNext, List.append_assoc]
      exact h.links.snoc hhead hne hnext
    · rw [hassoc] at hnot
      have hin : i ≠ head := by
        rintro rfl
        exact hnot (List.mem_append_left _ hmem)
      rw [hother hin]
      exact h.free i hi hnot
    · have hbusy := List.mem_cons_of_mem r hi
      have hin : i ≠ head := by
        rintro rfl
        exact h.not_mem_busy hmem hbusy
      rw [hother hin]
      exact h.used i hbusy

/-- **A request is put at the end** of the queue, so that it times out after half a minute. -/
theorem append_items {r : Nat} (h : s.Holds slots (r :: busy)) (hnext : s.next r = none)
    (htotal : total (s.items slots) ≤ mqttReqTimeout) :
    ∃ s', mqttAppendRequest r s = some s' ∧ s'.Holds (slots ++ [r]) busy ∧
      s'.items (slots ++ [r]) = push mqttReqTimeout (s.reqList r).item.1 (s.items slots) := by
  have hr : r ∉ slots := fun hmem => h.not_mem_busy hmem List.mem_cons_self
  have hloop := appendLoop_eq h.links h.length_slots_le 0 none
  rw [mqttAppendRequest, hloop, Option.map_some]
  refine ⟨_, rfl, ?_⟩
  generalize hd : BitVec.ofNat 16 mqttReqTimeout - (0 + BitVec.ofNat 16 (total (s.items slots))) = d
  have hdiff : d.toNat = mqttReqTimeout - total (s.items slots) := by
    simp only [mqttReqTimeout] at htotal hd ⊢
    simp only [← hd, BitVec.ofNat_eq_ofNat, BitVec.zero_add, BitVec.toNat_sub, BitVec.toNat_ofNat]
    omega
  have hitems : (s.setTimeoutDiff r d).items slots = s.items slots := items_congr fun i hi => by
    rw [Requests.setTimeoutDiff, s.set_of_ne (ne_of_mem_of_not_mem hi hr)]
  have hnext' : (s.setTimeoutDiff r d).next r = none := by
    rw [next_setTimeoutDiff]
    exact hnext
  obtain ⟨hholds, hsame⟩ := (h.setTimeoutDiff r d).link hnext' rfl
  dsimp only
  rw [hd, Option.or_none]
  refine ⟨hholds, hsame.trans ?_⟩
  rw [items, List.map_append, ← items, hitems, push, ← hdiff, List.map_singleton,
    Requests.setTimeoutDiff, set_self]
  rfl

/-! ### Taking a request -/

/-- The request has the packet identifier. -/
def hasId (pktId : BitVec 16) (x : Pending ρ) : Bool := x.1 = pktId

/-- The loop finds the first item with the packet identifier. -/
theorem takeLoop_some {pktId : BitVec 16} {xs ys : List Nat} {i : Nat} {p : Option Nat}
    (h : LinksTo s.next p (xs ++ i :: ys)) (hxs : ∀ x ∈ xs, (s.reqList x).pktId ≠ pktId)
    (hi : (s.reqList i).pktId = pktId) {n : Nat} (hn : (xs ++ i :: ys).length ≤ n)
    (prev : Option Nat) :
    takeLoop s pktId n p prev = some (some i, xs.getLast?.or prev) := by
  induction xs generalizing p n prev with
  | nil =>
    obtain ⟨rfl, -⟩ := h
    obtain ⟨n, rfl⟩ := Nat.exists_eq_succ_of_ne_zero (by
      rw [List.nil_append, List.length_cons] at hn
      omega : n ≠ 0)
    rw [takeLoop, if_pos hi]
    rfl
  | cons x xs ih =>
    obtain ⟨rfl, hrest⟩ := h
    obtain ⟨hx, hxs⟩ := List.forall_mem_cons.mp hxs
    obtain ⟨n, rfl⟩ := Nat.exists_eq_succ_of_ne_zero (by
      rw [List.cons_append, List.length_cons] at hn
      omega : n ≠ 0)
    rw [takeLoop, if_neg hx, ih hrest hxs (Nat.le_of_succ_le_succ hn)]
    cases hl : xs.getLast? <;> simp [List.getLast?_cons, hl]

theorem takeLoop_none {pktId : BitVec 16} {p : Option Nat} (h : LinksTo s.next p slots)
    (hslots : ∀ x ∈ slots, (s.reqList x).pktId ≠ pktId) {n : Nat} (hn : slots.length ≤ n)
    (prev : Option Nat) : takeLoop s pktId n p prev = some (none, slots.getLast?.or prev) := by
  induction slots generalizing p n prev with
  | nil =>
    have hp : p = none := h
    rw [hp]
    cases n <;> rfl
  | cons x slots ih =>
    obtain ⟨rfl, hrest⟩ := h
    obtain ⟨hx, hslots⟩ := List.forall_mem_cons.mp hslots
    obtain ⟨n, rfl⟩ := Nat.exists_eq_succ_of_ne_zero (by
      rw [List.length_cons] at hn
      omega : n ≠ 0)
    rw [takeLoop, if_neg hx, ih hrest hslots (Nat.le_of_succ_le_succ hn)]
    cases hl : slots.getLast? <;> simp [List.getLast?_cons, hl]

/-- The pointer to an item is led past it. -/
def unlink (s : Requests ρ) (prev next : Option Nat) : Requests ρ :=
  match prev with
  | none => { s with pendReqQueue := next }
  | some prev => s.setNext prev next

theorem item_unlink (s : Requests ρ) (prev next : Option Nat) (j : Nat) :
    ((s.unlink prev next).reqList j).item = (s.reqList j).item := by
  cases prev with
  | none => rfl
  | some prev => exact s.item_setNext prev next j

theorem unlink_links {xs ys : List Nat} {i : Nat} (h : s.Holds (xs ++ i :: ys) busy) :
    LinksTo (s.unlink xs.getLast? (s.next i)).next (s.unlink xs.getLast? (s.next i)).pendReqQueue
        (xs ++ ys) ∧
      ∀ j ∉ xs, (s.unlink xs.getLast? (s.next i)).next j = s.next j := by
  rcases h.links.dropBehind h.nodup_slots with ⟨rfl, hlinks⟩ | ⟨prev, hlast, hmem, hlinks⟩
  · exact ⟨hlinks, fun j _ => rfl⟩
  · rw [hlast, unlink, next_setNext]
    exact ⟨hlinks, fun j hj => Function.update_of_ne (ne_of_mem_of_not_mem hmem hj).symm ..⟩

/-- The time of an item goes to the next one. -/
def passTime (s : Requests ρ) (next : Option Nat) (timeoutDiff : BitVec 16) : Requests ρ :=
  match next with
  | none => s
  | some next => s.setTimeoutDiff next ((s.reqList next).timeoutDiff + timeoutDiff)

theorem next_passTime (s : Requests ρ) (next : Option Nat) (timeoutDiff : BitVec 16) :
    (s.passTime next timeoutDiff).next = s.next := by
  cases next with
  | none => rfl
  | some next => exact s.next_setTimeoutDiff next _

theorem pend_passTime (s : Requests ρ) (next : Option Nat) (timeoutDiff : BitVec 16) :
    (s.passTime next timeoutDiff).pendReqQueue = s.pendReqQueue := by
  cases next <;> rfl

theorem passTime_items {p : Option Nat} {ys : List Nat} (h : LinksTo s.next p ys)
    (hnodup : ys.Nodup) {d : BitVec 16}
    (hsum : ∀ y ∈ ys, (s.reqList y).timeoutDiff.toNat + d.toNat < 2 ^ 16) :
    (s.passTime p d).items ys = addHead d.toNat (s.items ys) ∧
      ∀ j ∉ ys, (s.passTime p d).reqList j = s.reqList j := by
  cases ys with
  | nil =>
    have hp : p = none := h
    rw [hp]
    exact ⟨rfl, fun _ _ => rfl⟩
  | cons y ys =>
    obtain ⟨rfl, -⟩ := h
    have hy := (List.nodup_cons.mp hnodup).1
    have hadd := hsum y List.mem_cons_self
    refine ⟨?_, fun j hj => ?_⟩
    · have hrest : (s.passTime (some y) d).items ys = s.items ys := items_congr fun j hj => by
        rw [passTime, setTimeoutDiff, s.set_of_ne (ne_of_mem_of_not_mem hj hy)]
      rw [items, List.map_cons, ← items, hrest, passTime, setTimeoutDiff, set_self]
      rw [MqttRequest.item, BitVec.toNat_add, Nat.mod_eq_of_lt hadd]
      rfl
    · have hne : j ≠ y := fun heq => hj (heq ▸ List.mem_cons_self)
      rw [passTime, setTimeoutDiff, s.set_of_ne hne]

theorem take_eq {pktId : BitVec 16} {i : Nat} {prev : Option Nat}
    (hloop : takeLoop s pktId mqttReqMaxInFlight s.pendReqQueue none = some (some i, prev)) :
    mqttTakeRequest pktId s = some (some i,
      (passTime (s.unlink prev (s.next i)) ((s.unlink prev (s.next i)).next i)
        ((s.unlink prev (s.next i)).reqList i).timeoutDiff).setNext i none) := by
  rw [mqttTakeRequest, hloop]
  rfl

/-- **A request is taken out** of the queue; its time goes to the next one. -/
theorem take_items {pktId : BitVec 16} {xs ys : List Nat} {i : Nat}
    (h : s.Holds (xs ++ i :: ys) busy) (hxs : ∀ x ∈ xs, (s.reqList x).pktId ≠ pktId)
    (hi : (s.reqList i).pktId = pktId)
    (hsum : ∀ y ∈ ys, (s.reqList y).timeoutDiff.toNat + (s.reqList i).timeoutDiff.toNat < 2 ^ 16) :
    ∃ s', mqttTakeRequest pktId s = some (some i, s') ∧ s'.Holds (xs ++ ys) (i :: busy) ∧
      (s'.reqList i).cb = (s.reqList i).cb ∧
      s'.items (xs ++ ys) = s.items xs ++ addHead (s.reqList i).item.2 (s.items ys) := by
  have hloop := takeLoop_some h.links hxs hi h.length_slots_le none
  rw [Option.or_none] at hloop
  refine ⟨_, take_eq hloop, ?_⟩
  have hmiddle : (ys ++ i :: busy).Perm (i :: (ys ++ busy)) := List.perm_middle
  have hperm : (xs ++ ys ++ i :: busy).Perm (xs ++ i :: ys ++ busy) := by
    simpa using hmiddle.append_left xs
  have hnodup := h.nodup_slots
  obtain ⟨hnotin, hnodup⟩ := List.nodup_cons.mp (List.nodup_middle.mp hnodup)
  obtain ⟨hnotxs, hnotys⟩ : i ∉ xs ∧ i ∉ ys := by simpa using hnotin
  obtain ⟨hlinks, hkeep⟩ := unlink_links h
  generalize hu : s.unlink xs.getLast? (s.next i) = u at hlinks hkeep ⊢
  have hitem : ∀ j, (u.reqList j).item = (s.reqList j).item := by
    rw [← hu]
    exact s.item_unlink _ _
  have hdiff : ∀ j, (u.reqList j).timeoutDiff = (s.reqList j).timeoutDiff := fun j =>
    BitVec.eq_of_toNat_eq (congrArg Prod.snd (hitem j))
  have hdisj : ∀ j ∈ ys, j ∉ xs := fun j hj hjx => List.disjoint_of_nodup_append hnodup hjx hj
  have htail : LinksTo u.next (u.next i) ys := by
    rw [hkeep i hnotxs]
    exact h.links.tail.congr fun j hj => hkeep j (hdisj j hj)
  obtain ⟨hys, hrest⟩ := passTime_items htail (List.nodup_append.mp hnodup).2.1
    (d := (u.reqList i).timeoutDiff) fun y hy => by simpa only [hdiff] using hsum y hy
  generalize hv : u.passTime (u.next i) (u.reqList i).timeoutDiff = v at hys hrest ⊢
  have hvnext : v.next = u.next := by rw [← hv, next_passTime]
  have hvpend : v.pendReqQueue = u.pendReqQueue := by rw [← hv, pend_passTime]
  -- an item outside the queue, other than the one that is taken, keeps its pointer
  have hout : ∀ j ∉ xs, j ≠ i → (v.setNext i none).next j = s.next j := by
    intro j hjxs hji
    rw [next_setNext, Function.update_of_ne hji, hvnext, hkeep j hjxs]
  refine ⟨⟨?_, hperm.nodup_iff.mpr h.nodup, fun j hj => h.lt j (hperm.mem_iff.mp hj),
    fun j hj hnot => ?_, fun j hj => ?_⟩, ?_, ?_⟩
  · rw [next_setNext, hvnext]
    refine (hvpend ▸ hlinks :).congr fun j hj => Function.update_of_ne ?_ ..
    rintro rfl
    exact hnotin hj
  · have hnot' : j ∉ xs ++ i :: ys ++ busy := fun hmem => hnot (hperm.mem_iff.mpr hmem)
    rw [hout j (fun hmem => hnot' (by simp [hmem])) fun heq => hnot' (by simp [heq])]
    exact h.free j hj hnot'
  · rcases List.mem_cons.mp hj with rfl | hj
    · rw [next_setNext, Function.update_self]
      exact nofun
    · have hslot : j ∉ xs ++ i :: ys := fun hmem => h.not_mem_busy hmem hj
      rw [hout j (fun hmem => hslot (by simp [hmem])) fun heq => hslot (by simp [heq])]
      exact h.used j hj
  · exact congrArg (fun x => x.1.2) ((item_setNext v i none i).trans
      ((congrArg MqttRequest.item (hrest i hnotys)).trans (hitem i)))
  · rw [items_setNext, items, List.map_append, ← items, ← items, hys, hdiff]
    congr 1
    · exact items_congr fun j hj => by
        rw [hrest j (fun hjy => hdisj j hjy hj), hitem]
    · rw [items_congr fun j _ => hitem j]
      rfl

/-- **No request has the packet identifier.** -/
theorem take_none {pktId : BitVec 16} (h : s.Holds slots busy)
    (hslots : ∀ x ∈ slots, (s.reqList x).pktId ≠ pktId) :
    mqttTakeRequest pktId s = some (none, s) := by
  rw [mqttTakeRequest, takeLoop_none h.links hslots h.length_slots_le none]
  rfl

/-- What `mqtt_take_request` does to the queue: one request goes, its item stays in use, and the
other requests are due when they were. -/
structure Taken (s : Requests ρ) (slots busy : List Nat) (pktId : BitVec 16) (i : Nat)
    (s' : Requests ρ) : Prop where
  take : mqttTakeRequest pktId s = some (some i, s')
  queue : ∃ slots', slots'.length < slots.length ∧ s'.Holds slots' (i :: busy) ∧
    ∃ xs n ys pktId', due (s.items slots) = xs ++ ((pktId', (s'.reqList i).cb), n) :: ys ∧
      due (s'.items slots') = xs ++ ys ∧ pktId' = pktId ∧ ∀ x ∈ xs, x.1.1 ≠ pktId

theorem take_cases (h : s.Holds slots busy) (htotal : total (s.items slots) ≤ mqttReqTimeout)
    (pktId : BitVec 16) :
    (mqttTakeRequest pktId s = some (none, s) ∧ ∀ x ∈ due (s.items slots), x.1.1 ≠ pktId) ∨
      ∃ i s', s.Taken slots busy pktId i s' := by
  have hfst : ∀ x ∈ due (s.items slots), ∃ i ∈ slots, (s.reqList i).item.1 = x.1 := by
    intro x hx
    have hmem : x.1 ∈ (s.items slots).map Prod.fst :=
      map_due (s.items slots) ▸ List.mem_map_of_mem hx
    simpa [items] using hmem
  cases hfind : slots.find? fun i => (s.reqList i).pktId = pktId with
  | none =>
    have hslots : ∀ i ∈ slots, (s.reqList i).pktId ≠ pktId := by
      simpa using List.find?_eq_none.mp hfind
    refine .inl ⟨take_none h hslots, fun x hx => ?_⟩
    obtain ⟨i, hi, hix⟩ := hfst x hx
    rw [← hix]
    exact hslots i hi
  | some i =>
    obtain ⟨hi, xs, ys, rfl, hxs⟩ := List.find?_eq_some_iff_append.mp hfind
    simp only [decide_eq_true_eq, Bool.not_eq_eq_eq_not, Bool.not_true, decide_eq_false_iff_not]
      at hi hxs
    have hle : ∀ j ∈ xs ++ i :: ys, (s.reqList j).timeoutDiff.toNat ≤ 30 := fun j hj =>
      (le_total (List.mem_map_of_mem hj : (s.reqList j).item ∈ s.items (xs ++ i :: ys))).trans
        htotal
    have hilt := hle i (by simp)
    obtain ⟨s', htake, hholds, hcb, hitems⟩ := take_items h hxs hi fun y hy => by
      have hylt := hle y (by simp [hy])
      omega
    refine .inr ⟨i, s', htake, xs ++ ys, by simp, hholds, ?_⟩
    have hremove : remove (hasId pktId) (s.items (xs ++ i :: ys)) =
        some ((s.reqList i).item.1, s'.items (xs ++ ys)) := by
      rw [items, List.map_append, List.map_cons, ← items, ← items, hitems]
      refine remove_append (fun x hx => ?_) (by simpa [hasId, MqttRequest.item] using hi) ..
      obtain ⟨j, hj, rfl⟩ := List.mem_map.mp hx
      exact decide_eq_false (hxs j hj)
    obtain ⟨as, n, bs, hdue, hrest, hid, has⟩ := due_remove hremove
    refine ⟨as, n, bs, (s.reqList i).pktId, ?_, hrest, hi, fun x hx => ?_⟩
    · rw [hdue, hcb]
      rfl
    · simpa [hasId] using has x hx

theorem sent_stop {rounds : Nat} (h : mqttTakeRequest 0 s = some (none, s)) :
    sentLoop rounds s = some ([], s) := by
  unfold sentLoop
  rw [h]

theorem sent_first {rounds r : Nat} {s' : Requests ρ}
    (h : mqttTakeRequest 0 s = some (some r, s')) :
    sentLoop (rounds + 1) s = (sentLoop rounds (mqttDeleteRequest r s')).map
      fun (cbs, t) => ((s'.reqList r).cb :: cbs, t) := by
  conv_lhs => unfold sentLoop
  rw [h]

/-- **The requests without an answer are completed**, and only they. -/
theorem sent_items (h : s.Holds slots busy) (htotal : total (s.items slots) ≤ mqttReqTimeout)
    {rounds : Nat} (hrounds : slots.length ≤ rounds) :
    ∃ slots' s', sentLoop rounds s =
        some (((due (s.items slots)).filter fun x => x.1.1 = 0).map fun x => x.1.2, s') ∧
      s'.Holds slots' busy ∧
      due (s'.items slots') = (due (s.items slots)).filter fun x => x.1.1 ≠ 0 := by
  induction rounds generalizing s slots with
  | zero =>
    obtain rfl := List.length_eq_zero_iff.mp (Nat.le_zero.mp hrounds)
    refine ⟨[], s, ?_, h, rfl⟩
    rw [sent_stop (take_none h (List.forall_mem_nil _))]
    rfl
  | succ rounds ih =>
    rcases take_cases h htotal 0 with ⟨hnone, hall⟩ | ⟨i, s', htake, slots', hlen, hholds, hqueue⟩
    · refine ⟨slots, s, ?_, h, ?_⟩
      · rw [sent_stop hnone]
        have hfilter : (due (s.items slots)).filter (fun x => x.1.1 = 0) = [] :=
          List.filter_eq_nil_iff.mpr fun x hx => by simpa using hall x hx
        rw [hfilter]
        rfl
      · refine (List.filter_eq_self.mpr fun x hx => ?_).symm
        simpa using hall x hx
    · obtain ⟨xs, n, ys, pktId, hdue, hrest, rfl, hxs⟩ := hqueue
      have htotal' : total ((mqttDeleteRequest i s').items slots') ≤ mqttReqTimeout := by
        rw [total_le_iff] at htotal ⊢
        rw [hdue] at htotal
        rw [items_delete, hrest]
        exact fun x hx => htotal x (List.mem_append.mpr
          ((List.mem_append.mp hx).imp_right (List.mem_cons_of_mem _)))
      obtain ⟨slots'', s'', hrun, hholds', hlast⟩ := ih hholds.delete htotal' (by omega)
      refine ⟨slots'', s'', ?_, hholds', ?_⟩
      · rw [sent_first htake]
        have hbefore : xs.filter (fun x => x.1.1 = 0) = [] :=
          List.filter_eq_nil_iff.mpr fun x hx => by simpa using hxs x hx
        rw [hrun, items_delete, hrest, hdue, List.filter_append, List.filter_append, hbefore]
        rfl
      · rw [hlast, items_delete, hrest, hdue, List.filter_append, List.filter_append]
        rfl

/-! ### Time -/

/-- The first item is given back. -/
theorem Holds.dropHead {i : Nat} (h : s.Holds (i :: slots) busy) :
    (mqttDeleteRequest i { s with pendReqQueue := s.next i }).Holds slots busy := by
  have hperm : (slots ++ i :: busy).Perm (i :: slots ++ busy) := List.perm_middle
  have hself := h.links.ne_self h.nodup_slots List.mem_cons_self
  have hdropped : Holds { s with pendReqQueue := s.next i } slots (i :: busy) :=
    ⟨h.links.2, hperm.nodup_iff.mpr h.nodup, fun j hj => h.lt j (hperm.mem_iff.mp hj),
      fun j hj hnot => h.free j hj fun hmem => hnot (hperm.mem_iff.mpr hmem),
      List.forall_mem_cons.mpr ⟨hself, h.used⟩⟩
  exact hdropped.delete

/-- The time of the first item is shortened. -/
theorem items_shorten {i : Nat} (hi : i ∉ slots) (d : BitVec 16) :
    (s.setTimeoutDiff i d).items (i :: slots) =
      ((s.reqList i).item.1, d.toNat) :: s.items slots := by
  have hrest : (s.setTimeoutDiff i d).items slots = s.items slots := items_congr fun j hj => by
    rw [setTimeoutDiff, s.set_of_ne (ne_of_mem_of_not_mem hj hi)]
  rw [items, List.map_cons, ← items, hrest, setTimeoutDiff, set_self]
  rfl

theorem elapsed_stop {rounds : Nat} {t : BitVec 8} (h : t = 0 ∨ s.pendReqQueue = none) :
    mqttRequestTimeElapsed rounds t s = some ([], s) := by
  unfold mqttRequestTimeElapsed
  rcases h with rfl | hp
  · exact if_pos rfl
  · rw [hp]
    exact ite_self _

theorem elapsed_first {rounds : Nat} {t : BitVec 8} {r : Nat} (ht : t ≠ 0)
    (hp : s.pendReqQueue = some r) :
    mqttRequestTimeElapsed (rounds + 1) t s =
      if (s.reqList r).timeoutDiff.toNat ≤ t.toNat then
        (mqttRequestTimeElapsed rounds (t - (s.reqList r).timeoutDiff.setWidth 8)
          (mqttDeleteRequest r { s with pendReqQueue := s.next r })).map
            fun (cbs, s') => ((s.reqList r).cb :: cbs, s')
      else some ([], s.setTimeoutDiff r ((s.reqList r).timeoutDiff - t.setWidth 16)) := by
  conv_lhs => unfold mqttRequestTimeElapsed
  rw [if_neg ht, hp]

/-- **Time goes by**, as for the list of the requests. -/
theorem elapsed_items (h : s.Holds slots busy) {rounds : Nat} (hrounds : slots.length ≤ rounds)
    (t : BitVec 8) :
    ∃ slots' s', mqttRequestTimeElapsed rounds t s =
        some ((elapse t.toNat (s.items slots)).1.map Prod.snd, s') ∧
      s'.Holds slots' busy ∧ s'.items slots' = (elapse t.toNat (s.items slots)).2 := by
  induction slots generalizing s rounds t with
  | nil =>
    have hp : s.pendReqQueue = none := h.links
    refine ⟨[], s, ?_, h, ?_⟩
    · rw [elapsed_stop (.inr hp), items, List.map_nil, elapse_nil]
      rfl
    · rw [items, List.map_nil, elapse_nil]
  | cons i slots ih =>
    obtain ⟨rounds, rfl⟩ := Nat.exists_eq_succ_of_ne_zero (by
      rw [List.length_cons] at hrounds
      omega : rounds ≠ 0)
    have hp : s.pendReqQueue = some i := h.links.1
    have hitems : s.items (i :: slots) = (s.reqList i).item :: s.items slots := rfl
    by_cases ht : t = 0
    · refine ⟨i :: slots, s, ?_, h, ?_⟩
      · rw [elapsed_stop (.inl ht), ht, BitVec.ofNat_eq_ofNat, BitVec.toNat_zero, elapse_zero]
        rfl
      · rw [ht, BitVec.ofNat_eq_ofNat, BitVec.toNat_zero, elapse_zero]
    · have hpos : t.toNat ≠ 0 := fun hzero => ht (BitVec.eq_of_toNat_eq hzero)
      obtain ⟨n, hn⟩ := Nat.exists_eq_succ_of_ne_zero hpos
      rw [elapsed_first ht hp, hitems, MqttRequest.item]
      by_cases hle : (s.reqList i).timeoutDiff.toNat ≤ t.toNat
      · obtain ⟨slots', s', hrun, hholds, hrest⟩ :=
          ih h.dropHead (Nat.le_of_succ_le_succ hrounds) (t - (s.reqList i).timeoutDiff.setWidth 8)
        have hsub : (t - (s.reqList i).timeoutDiff.setWidth 8).toNat =
            n + 1 - (s.reqList i).timeoutDiff.toNat := by
          have hlt := t.isLt
          rw [BitVec.toNat_sub, BitVec.toNat_setWidth]
          omega
        have hsame : (mqttDeleteRequest i { s with pendReqQueue := s.next i }).items slots =
            s.items slots := items_delete i slots
        rw [hsame, hsub] at hrun hrest
        refine ⟨slots', s', ?_, hholds, ?_⟩
        · rw [if_pos hle, hrun, hn, elapse, if_pos (by omega)]
          rfl
        · rw [hrest, hn, elapse, if_pos (by omega)]
      · have hi := (List.nodup_cons.mp h.nodup_slots).1
        have hsub : ((s.reqList i).timeoutDiff - t.setWidth 16).toNat =
            (s.reqList i).timeoutDiff.toNat - t.toNat := by
          have hlt := (s.reqList i).timeoutDiff.isLt
          have ht' := t.isLt
          rw [BitVec.toNat_sub, BitVec.toNat_setWidth]
          omega
        refine ⟨i :: slots, _, ?_, h.setTimeoutDiff i
          ((s.reqList i).timeoutDiff - t.setWidth 16), ?_⟩
        · rw [if_neg hle, hn, elapse, if_neg (by omega)]
          rfl
        · rw [items_shorten hi, hsub, hn, elapse, if_neg (by omega)]
          rfl

/-- **The queue is emptied**, and its items are free. -/
theorem clear_items (h : s.Holds slots busy) :
    ∃ s', mqttClearRequests s = some s' ∧ s'.Holds [] busy := by
  have hloop : ∀ n p (xs : List Nat) (s : Requests ρ), xs.length ≤ n → LinksTo s.next p xs →
      xs.Nodup → ∃ s', clearLoop n p s = some s' ∧ (∀ i ∈ xs, s'.next i = some i) ∧
        ∀ i ∉ xs, s'.next i = s.next i := by
    intro n p xs
    induction xs generalizing n p with
    | nil =>
      intro s _ hp _
      have hnone : p = none := hp
      refine ⟨s, ?_, List.forall_mem_nil _, fun _ _ => rfl⟩
      rw [hnone]
      cases n <;> rfl
    | cons x xs ih =>
      rintro s hn ⟨rfl, hlinks⟩ hnodup
      obtain ⟨hx, hnodup⟩ := List.nodup_cons.mp hnodup
      obtain ⟨n, rfl⟩ := Nat.exists_eq_succ_of_ne_zero (by
        rw [List.length_cons] at hn
        omega : n ≠ 0)
      have hnext : (mqttDeleteRequest x s).next = Function.update s.next x (some x) :=
        s.next_setNext x (some x)
      have hlinks' : LinksTo (mqttDeleteRequest x s).next (s.next x) xs := by
        rw [hnext]
        exact hlinks.congr fun j hj => Function.update_of_ne (ne_of_mem_of_not_mem hj hx) ..
      obtain ⟨s', hrun, hfreed, hkept⟩ := ih n _ _ (Nat.le_of_succ_le_succ hn) hlinks' hnodup
      refine ⟨s', hrun, List.forall_mem_cons.mpr ⟨?_, hfreed⟩, fun i hi => ?_⟩
      · rw [hkept x hx, hnext, Function.update_self]
      · obtain ⟨hix, hi⟩ := List.ne_and_not_mem_of_not_mem_cons hi
        rw [hkept i hi, hnext, Function.update_of_ne hix]
  obtain ⟨s', hs', hfreed, hkept⟩ := hloop mqttReqMaxInFlight s.pendReqQueue slots s
    h.length_slots_le h.links h.nodup_slots
  refine ⟨{ s' with pendReqQueue := none }, ?_, rfl, (List.nodup_append.mp h.nodup).2.1,
    fun i hi => h.lt i (List.mem_append_right slots hi), fun i hi hnot => ?_, fun i hi => ?_⟩
  · rw [mqttClearRequests, hs']
    rfl
  · by_cases hmem : i ∈ slots
    · exact hfreed i hmem
    · exact (hkept i hmem).trans (h.free i hi (by simpa [hmem] using hnot))
  · have hmem : i ∉ slots := fun hmem => h.not_mem_busy hmem hi
    exact fun hself => h.used i hi ((hkept i hmem).symm.trans hself)

end Requests

end Queue

end MqttDevice.Lwip
