import MqttDevice.Lib.Machine
import MqttDevice.Lwip.MqttParse
import MqttDevice.Lwip.MqttRequest

/-!
# The requests of the MQTT client (`mqtt.c`)

The calls of the request queue in `mqtt_client_connect`, `mqtt_publish`, `mqtt_sub_unsub`,
`mqtt_message_received`, `mqtt_tcp_sent_cb`, `mqtt_cyclic_timer` and `mqtt_close`, in any order. The
callbacks do not call the client themselves.

A SUBACK of less than three bytes takes the request that it answers out of the queue and leaves its
item in use, so that the item is lost until the client connects again.

* `requests_refine`: the array of items behaves like a list of requests, each with its age in ticks
  of the cyclic timer, and a number of items that are lost.
-/

namespace MqttDevice.Lwip

open MqttDevice.DeltaList MqttDevice.Links MqttDevice.Machine

variable {ρ : Type*}

/-! ## The calls -/

/-- The error codes that a callback gets. -/
inductive ReqErr where
  | ok
  | abrt
  | timeout
  deriving DecidableEq

/-- `conn_state` of a client, with its requests. -/
structure ReqClient (ρ : Type*) where
  connState : ConnState
  requests : Requests ρ

inductive ReqEvent (ρ : Type*) where
  /-- `mqtt_client_connect`, which gets as far as `TCP_CONNECTING` or fails before. -/
  | connect (started : Bool)
  /-- `mqtt_tcp_connect_cb` -/
  | established
  /-- A CONNACK that accepts the client. -/
  | connack
  /-- `mqtt_publish` or `mqtt_sub_unsub`, when the message fits in the output ring or not. -/
  | request (pktId : BitVec 16) (cb : Option ρ) (space : Bool)
  /-- A message that comes to the last branch of `mqtt_message_received`. `result` is the byte
  behind the packet identifier; `checked` says whether the caller looks at the status. -/
  | answer (pktType : MqttMessageType) (pktId : BitVec 16) (length : Nat) (result : BitVec 8)
      (checked : Bool)
  | sent
  | tick
  | close

/-- Whether a request was accepted, the callbacks that were called, those that were dropped without
a call, and whether the time of the requests went on. -/
structure ReqOut (ρ : Type*) where
  accepted : Bool := false
  completed : List (Option ρ × ReqErr) := []
  dropped : List (Option ρ) := []
  timed : Bool := false

/-- The callbacks of the items that wait, in the order of the queue. -/
def Requests.pendingFrom (s : Requests ρ) : Nat → Option Nat → List (Option ρ)
  | n + 1, some i => (s.reqList i).cb :: s.pendingFrom n (s.next i)
  | _, _ => []

def Requests.pending (s : Requests ρ) : List (Option ρ) :=
  s.pendingFrom mqttReqMaxInFlight s.pendReqQueue

/-- The callbacks have all the same result. -/
def completedWith (err : ReqErr) (cbs : List (Option ρ)) : ReqOut ρ :=
  { completed := cbs.map (·, err) }

/-- `mqtt_incomming_suback`: what the callback gets. -/
def mqttIncommingSuback (result : BitVec 8) : ReqErr := if result.toNat < 3 then .ok else .abrt

/-- The last branch of `mqtt_message_received`, and whether it goes to `out_disconnect`. -/
def mqttAnswerReceived (pktType : MqttMessageType) (pktId : BitVec 16) (length : Nat)
    (result : BitVec 8) (s : Requests ρ) : Option (ReqOut ρ × Bool × Requests ρ) :=
  if pktId = 0 then some ({}, true, s)
  else
    match pktType with
    | .pubrec | .pubrel => some ({}, false, s)
    | .suback | .unsuback | .pubcomp | .puback =>
      (mqttTakeRequest pktId s).map fun (r, s) =>
        match r with
        | none => ({}, false, s)
        | some r =>
          if pktType = .suback then
            -- the item is not in the queue any more, and not deleted either
            if length < 3 then ({ dropped := [(s.reqList r).cb] }, true, s)
            else
              (completedWith (mqttIncommingSuback result) [(s.reqList r).cb], false,
                mqttDeleteRequest r s)
          else (completedWith .ok [(s.reqList r).cb], false, mqttDeleteRequest r s)
    | _ => some ({}, true, s)

namespace ReqClient

/-- `mqtt_client_new` -/
def new : ReqClient ρ := ⟨.tcpDisconnected, mqttNoRequests⟩

/-- `mqtt_close`: the requests that it drops, and the client. -/
def close (c : ReqClient ρ) : Option (List (Option ρ) × ReqClient ρ) :=
  (mqttClearRequests c.requests).map fun s => (c.requests.pending, ⟨.tcpDisconnected, s⟩)

end ReqClient

def reqStep (c : ReqClient ρ) : ReqEvent ρ → Option (ReqOut ρ × ReqClient ρ)
  | .connect started =>
    if c.connState ≠ .tcpDisconnected then some ({}, c)
    else
      some ({ dropped := c.requests.pending },
        ⟨if started then .tcpConnecting else .tcpDisconnected, mqttInitRequests⟩)
  | .established => some ({}, { c with connState := .mqttConnecting })
  | .connack =>
    some ({}, if c.connState = .mqttConnecting then { c with connState := .mqttConnected } else c)
  | .request pktId cb space =>
    if c.connState = .tcpDisconnected then some ({}, c)
    else
      match mqttCreateRequest pktId cb c.requests with
      | none => some ({}, c)
      | some (r, s) =>
        if space then
          (mqttAppendRequest r s).map fun s => ({ accepted := true }, { c with requests := s })
        else some ({}, { c with requests := mqttDeleteRequest r s })
  | .answer pktType pktId length result checked =>
    (mqttAnswerReceived pktType pktId length result c.requests).bind
      fun (out, disconnect, s) =>
        if disconnect ∧ checked then
          ReqClient.close { c with requests := s } |>.map fun (dropped, c) =>
            ({ out with dropped := out.dropped ++ dropped }, c)
        else some (out, { c with requests := s })
  | .sent =>
    if c.connState = .mqttConnected then
      (sentLoop mqttReqMaxInFlight c.requests).map fun (cbs, s) =>
        (completedWith .ok cbs, { c with requests := s })
    else some ({}, c)
  | .tick =>
    if c.connState = .mqttConnected then
      (mqttRequestTimeElapsed mqttReqMaxInFlight (BitVec.ofNat 8 mqttCyclicTimerInterval)
        c.requests).map fun (cbs, s) =>
          ({ completedWith .timeout cbs with timed := true }, { c with requests := s })
    else some ({}, c)
  | .close => c.close.map fun (dropped, c) => ({ dropped := dropped }, c)

/-- The packet identifier of a message. -/
def Received.pktId (k : Received) : BitVec 16 :=
  BitVec.ofNat 16 ((k.varHdrPayload 0).toNat * 256 + (k.varHdrPayload 1).toNat)

/-- The bytes of a message decide whether it ends the connection, as in `Received.acknowledged`. -/
theorem answer_acknowledged {k : Received} {s t : Requests ρ} {out : ReqOut ρ} {disconnect : Bool}
    (h : mqttAnswerReceived k.pktType k.pktId k.length (k.varHdrPayload 2) s =
      some (out, disconnect, t))
    (hfound : k.found = ((mqttTakeRequest k.pktId s).bind Prod.fst).isSome) :
    disconnect = !k.acknowledged := by
  have hzero : k.pktId = 0 ↔ k.varHdrPayload 0 = 0 ∧ k.varHdrPayload 1 = 0 := by
    unfold Received.pktId
    bv_omega
  unfold mqttAnswerReceived at h
  unfold Received.acknowledged
  by_cases hid : k.pktId = 0
  · rw [if_pos hid] at h
    cases h
    rw [if_pos (hzero.mp hid)]
    rfl
  · rw [if_neg hid] at h
    rw [if_neg fun hand => hid (hzero.mpr hand), hfound]
    cases htype : k.pktType with
    | suback =>
      rw [htype] at h
      obtain ⟨⟨r, u⟩, htake, hout⟩ := Option.map_eq_some_iff.mp h
      rw [htake]
      cases r with
      | none =>
        cases hout
        rfl
      | some r =>
        by_cases hlen : k.length < 3 <;> simp_all
    | puback | pubcomp | unsuback =>
      rw [htype] at h
      obtain ⟨⟨r, u⟩, -, hout⟩ := Option.map_eq_some_iff.mp h
      cases r with
      | none =>
        cases hout
        rfl
      | some r =>
        cases hout
        rfl
    | connack | publish | pubrec | pubrel | pingresp | unknown =>
      rw [htype] at h
      cases h
      rfl

/-! ## The purpose -/

/-- A request that waits, with the number of ticks since it was accepted. -/
structure Entry (ρ : Type*) where
  pktId : BitVec 16
  cb : Option ρ
  age : Nat

def Entry.older (e : Entry ρ) : Entry ρ := { e with age := e.age + 1 }

/-- A tick: the requests that are timed out, and those that wait on. Of those at their sixth tick
only the first is timed out, and if one is at its seventh, that goes before. -/
def tick : List (Entry ρ) → List (Entry ρ) × List (Entry ρ)
  | [] => ([], [])
  | e :: es =>
    if e.age = 6 then (e :: (tick es).1, (tick es).2)
    else if e.age = 5 then ([e], es.map Entry.older)
    else ([], (e :: es).map Entry.older)

/-- What a message means for the request with its packet identifier. -/
inductive Meaning where
  | nothing
  | answer (err : ReqErr)
  /-- A SUBACK that ends before the result. -/
  | cutOff
  | illegal

def meaning (pktType : MqttMessageType) (pktId : BitVec 16) (length : Nat)
    (result : BitVec 8) : Meaning :=
  if pktId = 0 then .illegal
  else
    match pktType with
    | .pubrec | .pubrel => .nothing
    | .suback => if length < 3 then .cutOff else .answer (mqttIncommingSuback result)
    | .unsuback | .pubcomp | .puback => .answer .ok
    | _ => .illegal

/-- The requests that wait, and how many items are in use for nothing. -/
structure Outstanding (ρ : Type*) where
  connState : ConnState
  entries : List (Entry ρ)
  lost : Nat

namespace Outstanding

def start : Outstanding ρ := ⟨.tcpDisconnected, [], mqttReqMaxInFlight⟩

def cbs (w : Outstanding ρ) : List (Option ρ) := w.entries.map Entry.cb

/-- The first request with a packet identifier goes. -/
def without (pktId : BitVec 16) (w : Outstanding ρ) : Outstanding ρ :=
  { w with entries := w.entries.eraseP fun e => e.pktId = pktId }

def found (pktId : BitVec 16) (w : Outstanding ρ) : Option (Option ρ) :=
  (w.entries.find? fun e => e.pktId = pktId).map Entry.cb

/-- The end of the connection, if the caller looks at the status. -/
def hangUp (checked : Bool) (dropped : List (Option ρ)) (w : Outstanding ρ) :
    ReqOut ρ × Outstanding ρ :=
  if checked then ({ dropped := dropped ++ w.cbs }, ⟨.tcpDisconnected, [], w.lost⟩)
  else ({ dropped := dropped }, w)

end Outstanding

def pendingStep (w : Outstanding ρ) : ReqEvent ρ → ReqOut ρ × Outstanding ρ
  | .connect started =>
    if w.connState ≠ .tcpDisconnected then ({}, w)
    else
      ({ dropped := w.cbs }, ⟨if started then .tcpConnecting else .tcpDisconnected, [], 0⟩)
  | .established => ({}, { w with connState := .mqttConnecting })
  | .connack =>
    ({}, if w.connState = .mqttConnecting then { w with connState := .mqttConnected } else w)
  | .request pktId cb space =>
    if w.connState ≠ .tcpDisconnected ∧ w.entries.length + w.lost < mqttReqMaxInFlight ∧ space then
      ({ accepted := true }, { w with entries := w.entries ++ [⟨pktId, cb, 0⟩] })
    else ({}, w)
  | .answer pktType pktId length result checked =>
    match meaning pktType pktId length result with
    | .nothing => ({}, w)
    | .answer err => (completedWith err (w.found pktId).toList, w.without pktId)
    | .cutOff =>
      match w.found pktId with
      | none => ({}, w)
      | some cb => { w.without pktId with lost := w.lost + 1 }.hangUp checked [cb]
    | .illegal => w.hangUp checked []
  | .sent =>
    if w.connState = .mqttConnected then
      (completedWith .ok ((w.entries.filter fun e => e.pktId = 0).map Entry.cb),
        { w with entries := w.entries.filter fun e => e.pktId ≠ 0 })
    else ({}, w)
  | .tick =>
    if w.connState = .mqttConnected then
      ({ completedWith .timeout ((tick w.entries).1.map Entry.cb) with timed := true },
        { w with entries := (tick w.entries).2 })
    else ({}, w)
  | .close => w.hangUp true []

/-! ## Refinement -/

/-- The older requests come first, and none is older than six ticks. -/
structure Ordered (es : List (Entry ρ)) : Prop where
  age : ∀ e ∈ es, e.age ≤ 6
  sorted : es.Pairwise fun e f => f.age ≤ e.age

theorem Ordered.sublist {es fs : List (Entry ρ)} (h : Ordered es) (hsub : fs.Sublist es) :
    Ordered fs := ⟨fun e he => h.age e (hsub.subset he), h.sorted.sublist hsub⟩

theorem Ordered.snoc {es : List (Entry ρ)} (h : Ordered es) (pktId : BitVec 16) (cb : Option ρ) :
    Ordered (es ++ [⟨pktId, cb, 0⟩]) := by
  refine ⟨List.forall_mem_append.mpr ⟨h.age, by simp⟩, List.pairwise_append.mpr ⟨h.sorted, ?_, ?_⟩⟩
  · exact List.pairwise_singleton ..
  · intro e _ f hf
    rw [List.mem_singleton.mp hf]
    exact Nat.zero_le _

theorem Ordered.older {es : List (Entry ρ)} (h : Ordered es) (hage : ∀ e ∈ es, e.age ≤ 5) :
    Ordered (es.map Entry.older) := by
  refine ⟨fun e he => ?_, ?_⟩
  · obtain ⟨f, hf, rfl⟩ := List.mem_map.mp he
    exact Nat.succ_le_succ (hage f hf)
  · rw [List.pairwise_map]
    exact h.sorted.imp Nat.succ_le_succ

/-- The first request decides what a tick does. -/
theorem Ordered.tick_cons {e : Entry ρ} {es : List (Entry ρ)} (h : Ordered (e :: es)) :
    (e.age = 6 ∧ tick (e :: es) = (e :: (tick es).1, (tick es).2)) ∨
    (e.age = 5 ∧ tick (e :: es) = ([e], es.map Entry.older) ∧ ∀ f ∈ es, f.age ≤ 5) ∨
    (e.age ≤ 4 ∧ tick (e :: es) = ([], (e :: es).map Entry.older) ∧ ∀ f ∈ e :: es, f.age ≤ 4) := by
  have hhead := (List.pairwise_cons.mp h.sorted).1
  have hage := h.age e List.mem_cons_self
  by_cases h6 : e.age = 6
  · exact .inl ⟨h6, by rw [tick, if_pos h6]⟩
  · by_cases h5 : e.age = 5
    · refine .inr (.inl ⟨h5, by rw [tick, if_neg h6, if_pos h5], fun f hf => ?_⟩)
      exact (hhead f hf).trans h5.le
    · have h4 : e.age ≤ 4 := by omega
      refine .inr (.inr ⟨h4, by rw [tick, if_neg h6, if_neg h5], ?_⟩)
      exact List.forall_mem_cons.mpr ⟨h4, fun f hf => (hhead f hf).trans h4⟩

/-- At its seventh tick a request is timed out. -/
theorem Ordered.timedOut {es : List (Entry ρ)} (h : Ordered es) {f : Entry ρ} (hf : f ∈ es)
    (h6 : f.age = 6) : f ∈ (tick es).1 := by
  induction es with
  | nil => exact hf
  | cons e es ih =>
    have hes := h.sublist (List.sublist_cons_self e es)
    rcases h.tick_cons with ⟨-, ht⟩ | ⟨h5, -, hage⟩ | ⟨-, -, hage⟩
    · rw [ht]
      rcases List.mem_cons.mp hf with rfl | hf
      · exact List.mem_cons_self
      · exact List.mem_cons_of_mem e (ih hes hf)
    · rcases List.mem_cons.mp hf with rfl | hf
      · omega
      · have hle := hage f hf
        omega
    · have hle := hage f hf
      omega

theorem Ordered.tick {es : List (Entry ρ)} (h : Ordered es) : Ordered (tick es).2 := by
  induction es with
  | nil => exact h
  | cons e es ih =>
    have hes := h.sublist (List.sublist_cons_self e es)
    rcases h.tick_cons with ⟨-, ht⟩ | ⟨-, ht, hage⟩ | ⟨-, ht, hage⟩
    · rw [ht]
      exact ih hes
    · rw [ht]
      exact hes.older hage
    · rw [ht]
      exact h.older fun f hf => (hage f hf).trans (by omega)

/-- The request with the seconds that are left. -/
def Entry.due (e : Entry ρ) : Pending ρ × Nat := ((e.pktId, e.cb), mqttReqTimeout - 5 * e.age)

theorem advance_due {es : List (Entry ρ)} (hage : ∀ e ∈ es, e.age ≤ 5) :
    advance 5 (es.map Entry.due) = (es.map Entry.older).map Entry.due := by
  rw [advance, List.map_map, List.map_map]
  refine List.map_congr_left fun e he => ?_
  have hle := hage e he
  simp only [Function.comp, Entry.due, Entry.older, mqttReqTimeout, Prod.mk.injEq, true_and]
  omega

/-- **A tick is five seconds.** -/
theorem expire_due {es : List (Entry ρ)} (h : Ordered es) :
    expire 5 (es.map Entry.due) =
      ((tick es).1.map fun e => (e.pktId, e.cb), (tick es).2.map Entry.due) := by
  induction es with
  | nil => rfl
  | cons e es ih =>
    have hes := h.sublist (List.sublist_cons_self e es)
    rw [List.map_cons, Entry.due, expire]
    rcases h.tick_cons with ⟨h6, ht⟩ | ⟨h5, ht, hage⟩ | ⟨h4, ht, hage⟩
    · rw [if_pos (by simp [h6, mqttReqTimeout]), ih hes, ht]
      rfl
    · rw [if_neg (by simp [h5, mqttReqTimeout]), if_pos (by simp [h5, mqttReqTimeout]),
        advance_due hage, ht]
      rfl
    · have hleft : 10 ≤ mqttReqTimeout - 5 * e.age := by
        simp only [mqttReqTimeout]
        omega
      have holder := advance_due fun f hf => (hage f hf).trans (by omega)
      rw [if_neg (by omega), if_neg (by omega), ht, ← holder]
      rfl

/-- The array holds these requests, and so many items are lost. -/
structure HoldsEntries (s : Requests ρ) (es : List (Entry ρ)) (lost : Nat) : Prop where
  ordered : Ordered es
  slots : ∃ slots busy, s.Holds slots busy ∧ busy.length = lost ∧
    due (s.items slots) = es.map Entry.due

structure Represents (c : ReqClient ρ) (w : Outstanding ρ) : Prop where
  connState : c.connState = w.connState
  requests : HoldsEntries c.requests w.entries w.lost

theorem represents_start : Represents (.new : ReqClient ρ) .start :=
  ⟨rfl, ⟨List.forall_mem_nil _, .nil⟩, [], _, Requests.holds_none, List.length_range, rfl⟩

theorem total_le_of_due {slots : List Nat} {s : Requests ρ} {es : List (Entry ρ)}
    (hdue : due (s.items slots) = es.map Entry.due) : total (s.items slots) ≤ mqttReqTimeout := by
  rw [total_le_iff, hdue]
  intro x hx
  obtain ⟨e, -, rfl⟩ := List.mem_map.mp hx
  exact Nat.sub_le _ _

theorem length_of_due {slots : List Nat} {s : Requests ρ} {es : List (Entry ρ)}
    (hdue : due (s.items slots) = es.map Entry.due) : es.length = slots.length := by
  have hlen := congrArg List.length hdue
  rwa [length_due, List.length_map, Requests.items, List.length_map, eq_comm] at hlen

theorem eraseP_first {p : Entry ρ → Bool} {e : Entry ρ} {as bs : List (Entry ρ)}
    (has : ∀ f ∈ as, ¬p f = true) (he : p e = true) : (as ++ e :: bs).eraseP p = as ++ bs := by
  rw [List.eraseP_append_right _ has, List.eraseP_cons_of_pos he]

namespace HoldsEntries

variable {s : Requests ρ} {es : List (Entry ρ)} {lost : Nat}

theorem init : HoldsEntries (mqttInitRequests : Requests ρ) [] 0 :=
  ⟨⟨List.forall_mem_nil _, .nil⟩, [], [], Requests.holds_init, rfl, rfl⟩

/-- The callbacks that wait are those of the list. -/
theorem pending_eq (h : HoldsEntries s es lost) : s.pending = es.map Entry.cb := by
  obtain ⟨-, slots, busy, hholds, -, hdue⟩ := h
  have hwalk : ∀ n p (xs : List Nat), xs.length ≤ n → LinksTo s.next p xs →
      s.pendingFrom n p = xs.map fun i => (s.reqList i).cb := by
    intro n p xs
    induction xs generalizing n p with
    | nil =>
      intro _ hp
      have hnone : p = none := hp
      rw [hnone]
      cases n <;> rfl
    | cons x xs ih =>
      rintro hn ⟨rfl, hlinks⟩
      obtain ⟨n, rfl⟩ := Nat.exists_eq_succ_of_ne_zero (by
        rw [List.length_cons] at hn
        omega : n ≠ 0)
      rw [Requests.pendingFrom, ih n _ (Nat.le_of_succ_le_succ hn) hlinks]
      rfl
  have hcbs := congrArg (List.map fun x => x.1.2) hdue
  have hfst : (due (s.items slots)).map (fun x => x.1.2) = (s.items slots).map fun x => x.1.2 := by
    have hmap := congrArg (List.map Prod.snd) (map_due (s.items slots))
    rwa [List.map_map, List.map_map] at hmap
  rw [hfst, Requests.items, List.map_map, List.map_map] at hcbs
  rw [Requests.pending, hwalk _ _ slots hholds.length_slots_le hholds.links]
  exact hcbs

/-- **A new request** is put at the end, if an item is free. -/
theorem create (h : HoldsEntries s es lost) (pktId : BitVec 16) (cb : Option ρ) :
    if es.length + lost < mqttReqMaxInFlight then
      ∃ r t, mqttCreateRequest pktId cb s = some (r, t) ∧
        HoldsEntries (mqttDeleteRequest r t) es lost ∧
        ∃ u, mqttAppendRequest r t = some u ∧ HoldsEntries u (es ++ [⟨pktId, cb, 0⟩]) lost
    else mqttCreateRequest pktId cb s = none := by
  obtain ⟨hord, slots, busy, hholds, rfl, hdue⟩ := h
  have hcreate := hholds.create pktId cb
  rw [← length_of_due hdue] at hcreate
  split at hcreate
  · rename_i hlen
    obtain ⟨r, hr, hnot, hcreated⟩ := hcreate
    obtain ⟨hused, hsame⟩ := hholds.occupy hr hnot
      { s.reqList r with next := none, cb := cb, pktId := pktId } nofun
    have hdue' := hdue
    rw [← hsame] at hdue'
    obtain ⟨u, happend, hholds', hitems⟩ := Requests.append_items hused
      (by rw [Requests.next, Requests.set_self]) (total_le_of_due hdue')
    rw [if_pos hlen]
    refine ⟨r, _, hcreated, ⟨hord, slots, busy, hused.delete, rfl, ?_⟩, u, happend,
      hord.snoc pktId cb, _, busy, hholds', rfl, ?_⟩
    · rw [Requests.items_delete, hdue']
    · rw [hitems, Requests.set_self, due_push _ (total_le_of_due hdue'), hdue', List.map_append]
      rfl
  · rename_i hlen
    rw [if_neg hlen]
    exact hcreate

/-- **A request is taken out**; its item can be given back, or is lost. -/
theorem take (h : HoldsEntries s es lost) (pktId : BitVec 16) :
    (mqttTakeRequest pktId s = some (none, s) ∧ (es.find? fun e => e.pktId = pktId) = none) ∨
      ∃ i t e, mqttTakeRequest pktId s = some (some i, t) ∧
        (es.find? fun e => e.pktId = pktId) = some e ∧ (t.reqList i).cb = e.cb ∧
        HoldsEntries t (es.eraseP fun e => e.pktId = pktId) (lost + 1) ∧
        HoldsEntries (mqttDeleteRequest i t) (es.eraseP fun e => e.pktId = pktId) lost := by
  obtain ⟨hord, slots, busy, hholds, rfl, hdue⟩ := h
  rcases Requests.take_cases hholds (total_le_of_due hdue) pktId with
    ⟨hnone, hall⟩ | ⟨i, t, htake, slots', -, hholds', xs, n, ys, _, hqueue, hrest, rfl, hxs⟩
  · refine .inl ⟨hnone, List.find?_eq_none.mpr fun e he => ?_⟩
    rw [hdue] at hall
    simpa [Entry.due] using hall e.due (List.mem_map_of_mem he)
  · rename_i id
    rw [hdue] at hqueue
    obtain ⟨as, bs, rfl, hxs', hbs⟩ := List.map_eq_append_iff.mp hqueue
    obtain ⟨e, bs, rfl, he, hys⟩ := List.map_eq_cons_iff.mp hbs
    have hid : decide (e.pktId = id) = true := decide_eq_true (congrArg (fun x => x.1.1) he)
    have has : ∀ f ∈ as, ¬decide (f.pktId = id) = true := by
      intro f hf
      rw [← hxs'] at hxs
      simpa [Entry.due] using hxs f.due (List.mem_map_of_mem hf)
    have hord' := hord.sublist (List.Sublist.append_left (List.sublist_cons_self e bs) as)
    have hrest' : due (t.items slots') = (as ++ bs).map Entry.due := by
      rw [hrest, ← hxs', ← hys, List.map_append]
    refine .inr ⟨i, t, e, htake,
      List.find?_eq_some_iff_append.mpr ⟨hid, as, bs, rfl, by simpa using has⟩,
      (congrArg (fun x => x.1.2) he).symm, ?_, ?_⟩
    · rw [eraseP_first has hid]
      exact ⟨hord', slots', _, hholds', List.length_cons, hrest'⟩
    · rw [eraseP_first has hid]
      refine ⟨hord', slots', busy, hholds'.delete, rfl, ?_⟩
      rw [Requests.items_delete, hrest']

theorem sent (h : HoldsEntries s es lost) :
    ∃ t, sentLoop mqttReqMaxInFlight s =
        some ((es.filter fun e => e.pktId = 0).map Entry.cb, t) ∧
      HoldsEntries t (es.filter fun e => e.pktId ≠ 0) lost := by
  obtain ⟨hord, slots, busy, hholds, hlost, hdue⟩ := h
  obtain ⟨slots', t, hrun, hholds', hrest⟩ :=
    Requests.sent_items hholds (total_le_of_due hdue) hholds.length_slots_le
  refine ⟨t, ?_, hord.sublist List.filter_sublist, slots', busy, hholds', hlost, ?_⟩
  · rw [hrun, hdue, List.filter_map, List.map_map]
    rfl
  · rw [hrest, hdue, List.filter_map]
    rfl

theorem tick (h : HoldsEntries s es lost) :
    ∃ t, mqttRequestTimeElapsed mqttReqMaxInFlight (BitVec.ofNat 8 mqttCyclicTimerInterval) s =
        some ((Lwip.tick es).1.map Entry.cb, t) ∧ HoldsEntries t (Lwip.tick es).2 lost := by
  obtain ⟨hord, slots, busy, hholds, hlost, hdue⟩ := h
  obtain ⟨slots', t, hrun, hholds', hitems⟩ :=
    Requests.elapsed_items hholds hholds.length_slots_le (BitVec.ofNat 8 mqttCyclicTimerInterval)
  have hsecs : (BitVec.ofNat 8 mqttCyclicTimerInterval).toNat = 5 := rfl
  rw [hsecs] at hrun hitems
  obtain ⟨hout, hrest⟩ := due_elapse (Nat.succ_pos 4) (s.items slots)
  have hexpire : expire 5 (due (s.items slots)) = _ := hdue ▸ expire_due hord
  refine ⟨t, ?_, hord.tick, slots', busy, hholds', hlost, ?_⟩
  · rw [hrun, hout, hexpire, List.map_map]
    rfl
  · rw [hitems, hrest, hexpire]

theorem clear (h : HoldsEntries s es lost) :
    ∃ t, mqttClearRequests s = some t ∧ HoldsEntries t [] lost := by
  obtain ⟨-, slots, busy, hholds, hlost, -⟩ := h
  obtain ⟨t, hclear, hempty⟩ := Requests.clear_items hholds
  exact ⟨t, hclear, ⟨List.forall_mem_nil _, .nil⟩, [], busy, hempty, hlost, rfl⟩

end HoldsEntries

namespace Represents

variable {c : ReqClient ρ} {w : Outstanding ρ}

/-- The step of the client has the output of the list, and the client holds the list after it. -/
def Follows (c : ReqClient ρ) (w : Outstanding ρ) (e : ReqEvent ρ) : Prop :=
  ∃ d, reqStep c e = some ((pendingStep w e).1, d) ∧ Represents d (pendingStep w e).2

theorem connect (h : Represents c w) (started : Bool) : Follows c w (.connect started) := by
  rw [Follows, reqStep, pendingStep, h.connState]
  by_cases hstate : w.connState = .tcpDisconnected
  · rw [if_neg (not_not.mpr hstate), if_neg (not_not.mpr hstate), h.requests.pending_eq]
    exact ⟨_, rfl, rfl, .init⟩
  · rw [if_pos hstate, if_pos hstate]
    exact ⟨c, rfl, h⟩

theorem connack (h : Represents c w) : Follows c w .connack := by
  rw [Follows, reqStep, pendingStep, h.connState]
  split
  · exact ⟨_, rfl, rfl, h.requests⟩
  · exact ⟨c, rfl, h⟩

theorem request (h : Represents c w) (pktId : BitVec 16) (cb : Option ρ) (space : Bool) :
    Follows c w (.request pktId cb space) := by
  have hcreate := h.requests.create pktId cb
  rw [Follows, reqStep, pendingStep, h.connState]
  by_cases hstate : w.connState = .tcpDisconnected
  · rw [if_pos hstate, if_neg fun hand => hand.1 hstate]
    exact ⟨c, rfl, h⟩
  · rw [if_neg hstate]
    split at hcreate
    · rename_i hlen
      obtain ⟨r, t, hcreated, hdeleted, u, happend, hadded⟩ := hcreate
      rw [hcreated]
      dsimp only
      cases space with
      | true =>
        rw [if_pos rfl, happend, if_pos ⟨hstate, hlen, rfl⟩]
        exact ⟨_, rfl, rfl, hadded⟩
      | false =>
        rw [if_neg Bool.false_ne_true, if_neg (by simp)]
        exact ⟨_, rfl, rfl, hdeleted⟩
    · rename_i hlen
      rw [hcreate, if_neg fun hand => hlen hand.2.1]
      exact ⟨c, rfl, h⟩

/-- The end of the connection, behind a step that may have dropped requests itself. -/
theorem hangUp (h : Represents c w) (checked : Bool) (dropped : List (Option ρ)) :
    ∃ d, (if true ∧ checked then
        c.close.map fun (more, d) => (({ dropped := dropped ++ more } : ReqOut ρ), d)
      else some ({ dropped := dropped }, c)) = some ((w.hangUp checked dropped).1, d) ∧
      Represents d (w.hangUp checked dropped).2 := by
  cases checked with
  | false => exact ⟨c, rfl, h⟩
  | true =>
    obtain ⟨t, hclear, hempty⟩ := h.requests.clear
    refine ⟨⟨.tcpDisconnected, t⟩, ?_, rfl, hempty⟩
    rw [ReqClient.close, hclear, h.requests.pending_eq]
    rfl

theorem answer (h : Represents c w) (pktType : MqttMessageType) (pktId : BitVec 16) (length : Nat)
    (result : BitVec 8) (checked : Bool) :
    Follows c w (.answer pktType pktId length result checked) := by
  rw [Follows, reqStep, pendingStep]
  unfold mqttAnswerReceived meaning
  by_cases hid : pktId = 0
  · rw [if_pos hid, if_pos hid]
    exact h.hangUp checked []
  rw [if_neg hid, if_neg hid]
  rcases h.requests.take pktId with ⟨htake, hfind⟩ | ⟨i, t, e, htake, hfind, hcb, hlost, hdeleted⟩
  · have hfound : w.found pktId = none := by
      rw [Outstanding.found, hfind]
      rfl
    have hwithout : w.without pktId = w := by
      rw [Outstanding.without, List.eraseP_of_forall_not (List.find?_eq_none.mp hfind)]
    rw [htake, hfound, hwithout]
    cases pktType with
    | connack | publish | pingresp | unknown => exact h.hangUp checked []
    | puback | pubrec | pubrel | pubcomp | unsuback => exact ⟨c, rfl, h⟩
    | suback =>
      by_cases hlen : length < 3
      · rw [if_pos hlen]
        exact ⟨c, rfl, h⟩
      · rw [if_neg hlen]
        exact ⟨c, rfl, h⟩
  · have hfound : w.found pktId = some e.cb := by
      rw [Outstanding.found, hfind]
      rfl
    have hcompleted : Represents ⟨c.connState, mqttDeleteRequest i t⟩ (w.without pktId) :=
      ⟨h.connState, hdeleted⟩
    have hcut : Represents ⟨c.connState, t⟩ { w.without pktId with lost := w.lost + 1 } :=
      ⟨h.connState, hlost⟩
    rw [htake, hfound, Option.map_some]
    dsimp only
    rw [hcb]
    cases pktType with
    | connack | publish | pingresp | unknown => exact h.hangUp checked []
    | pubrec | pubrel => exact ⟨c, rfl, h⟩
    | puback | pubcomp | unsuback => exact ⟨_, rfl, hcompleted⟩
    | suback =>
      by_cases hlen : length < 3
      · rw [if_pos rfl, if_pos hlen, if_pos hlen]
        exact hcut.hangUp checked [e.cb]
      · rw [if_pos rfl, if_neg hlen, if_neg hlen]
        exact ⟨_, rfl, hcompleted⟩

theorem sent (h : Represents c w) : Follows c w .sent := by
  obtain ⟨t, hrun, hholds⟩ := h.requests.sent
  rw [Follows, reqStep, pendingStep, h.connState]
  split
  · rw [hrun]
    exact ⟨_, rfl, rfl, hholds⟩
  · exact ⟨c, rfl, h⟩

theorem tick (h : Represents c w) : Follows c w .tick := by
  obtain ⟨t, hrun, hholds⟩ := h.requests.tick
  rw [Follows, reqStep, pendingStep, h.connState]
  split
  · rw [hrun]
    exact ⟨_, rfl, rfl, hholds⟩
  · exact ⟨c, rfl, h⟩

theorem close (h : Represents c w) : Follows c w .close := h.hangUp true []

end Represents

theorem step_follows {c : ReqClient ρ} {w : Outstanding ρ} (h : Represents c w)
    (e : ReqEvent ρ) : Represents.Follows c w e := by
  cases e with
  | connect started => exact h.connect started
  | established => exact ⟨_, rfl, rfl, h.requests⟩
  | connack => exact h.connack
  | request pktId cb space => exact h.request pktId cb space
  | answer pktType pktId length result checked =>
    exact h.answer pktType pktId length result checked
  | sent => exact h.sent
  | tick => exact h.tick
  | close => exact h.close

/-- Along a run the client does what is meant. -/
theorem Represents.runs {c : ReqClient ρ} {w : Outstanding ρ} (h : Represents c w)
    (es : List (ReqEvent ρ)) :
    ∃ d, run reqStep c es = some ((specRun pendingStep w es).1, d) ∧
      Represents d (specRun pendingStep w es).2 :=
  run_refines (fun _ _ e h => step_follows h e) h es

/-- **The array refines the list of requests**: along any run the calls have the same results, and
no loop goes on for ever. -/
theorem requests_refine (es : List (ReqEvent ρ)) :
    ∃ c, run reqStep .new es = some ((specRun pendingStep .start es).1, c) ∧
      Represents c (specRun pendingStep .start es).2 :=
  represents_start.runs es

end MqttDevice.Lwip
