import MqttDevice.Lwip.Events
import MqttDevice.Lib.Memory

/-!
# Received bytes (`mqtt_parse_incoming`, `mqtt_message_received`)

The bytes of a segment are put together to messages in `rx_buffer`, from where
`mqtt_message_received` reads them. Here the two functions are translated with
the bytes, the buffer and the calls of `data_cb`; what a message does to the
client and its connection is taken from `MqttClient`.

A shift by 32 bits or more is left open by C; `shiftOut` gives its result. The
loop of `mqtt_parse_incoming` does not end for a fixed header that never ends,
so it is followed for a number of rounds.

* `mqttParseIncomingBytes_refines`: on the client, received bytes do what the
  messages do that are found in them;
* `mqttParseIncomingBytes_ends`: the loop ends for every segment, unless
  `fixed_hdr_idx` wraps.
-/

namespace MqttDevice.Lwip

open MqttDevice.Memory

def mqttVarHeaderBufferLen : Nat := 1024

/-- `rx_buffer` and `msg_idx` of a client, all zero when it is allocated. -/
structure RxState where
  rxBuffer : Mem := fun _ => 0
  msgIdx : BitVec 32 := 0

/-! ## `mqtt_message_received` -/

/-- `enum mqtt_message_type`, as far as it is told apart. -/
inductive MqttMessageType where
  | connack
  | publish
  | puback
  | pubrec
  | pubrel
  | pubcomp
  | suback
  | unsuback
  | pingresp
  | unknown
  deriving DecidableEq, Repr

def mqttCtlPacketType (fixedHdrByte0 : BitVec 8) : MqttMessageType :=
  match ((fixedHdrByte0 &&& 0xf0) >>> 4).toNat with
  | 2 => .connack
  | 3 => .publish
  | 4 => .puback
  | 5 => .pubrec
  | 6 => .pubrel
  | 7 => .pubcomp
  | 9 => .suback
  | 11 => .unsuback
  | 13 => .pingresp
  | _ => .unknown

def mqttCtlPacketQos (fixedHdrByte0 : BitVec 8) : Nat := ((fixedHdrByte0 &&& 0x6) >>> 1).toNat

/-- A call of `mqtt_message_received`, with the buffer and the index of the client
as it finds them. `found` says whether `mqtt_take_request` finds a request, and
`checked` whether the result is looked at. -/
structure Received where
  rx : RxState
  fixedHdrIdx : BitVec 8
  length : Nat
  remainingLength : BitVec 32
  found : Bool
  checked : Bool

/-- What `data_cb` is called with: a pointer into `rx_buffer`, a length, and whether
the flag for the last part is set. -/
structure DataArgs where
  rxBuffer : Mem
  start : Nat
  len : Nat
  last : Bool

namespace Received

variable (k : Received)

def varHdrPayload (i : Nat) : BitVec 8 := k.rx.rxBuffer (k.fixedHdrIdx.toNat + i)

def varHdrPayloadBufsize : Nat := mqttVarHeaderBufferLen - k.fixedHdrIdx.toNat

def pktType : MqttMessageType := mqttCtlPacketType (k.rx.rxBuffer 0)

def qos : Nat := mqttCtlPacketQos (k.rx.rxBuffer 0)

/-- `payload_offset` and `payload_length` of a PUBLISH, or `none` where the code goes
to `out_disconnect`. Parts that come after the buffer was full have no topic. -/
def publishPayload : Option (Nat × Nat) :=
  if k.rx.msgIdx.toNat ≤ mqttVarHeaderBufferLen then
    let qosLen := if k.qos ≠ 0 then 2 else 0
    if k.length < 2 + qosLen then none
    else
      let topicLen := (k.varHdrPayload 0).toNat * 256 + (k.varHdrPayload 1).toNat
      if topicLen > k.length - (2 + qosLen) ∨ topicLen > k.varHdrPayloadBufsize - (2 + qosLen) then
        none
      else
        let afterTopic := 2 + topicLen
        if afterTopic + (if k.qos ≠ 0 then 2 else 1) > k.varHdrPayloadBufsize then none
        else if k.qos > 0 then
          if k.length < afterTopic + 2 then none
          else some (afterTopic + 2, k.length - (afterTopic + 2))
        else some (afterTopic, k.length - afterTopic)
  else some (0, k.length)

/-- The branch for a PUBLISH: `none` where it goes to `out_disconnect`, else what
`data_cb` is called with, if it is called. -/
def publish : Option (Option DataArgs) :=
  k.publishPayload.bind fun (payloadOffset, payloadLength) =>
    if payloadLength > 0 ∨ k.remainingLength = 0 then
      if k.length < payloadOffset + payloadLength then none
      else
        some (some ⟨k.rx.rxBuffer, k.fixedHdrIdx.toNat + payloadOffset, payloadLength,
          k.remainingLength == 0⟩)
    else some none

/-- The last branch: whether a packet with a packet identifier is accepted. -/
def acknowledged : Bool :=
  if k.varHdrPayload 0 = 0 ∧ k.varHdrPayload 1 = 0 then false
  else
    match k.pktType with
    | .pubrec | .pubrel => true
    | .suback => !k.found || 3 ≤ k.length
    | .unsuback | .pubcomp | .puback => true
    | _ => false

def fits : Bool := k.fixedHdrIdx.toNat + k.length ≤ mqttVarHeaderBufferLen

def message : Message :=
  if k.fits then
    match k.pktType with
    | .connack => .connack k.length (k.varHdrPayload 1).toNat
    | .pingresp => .other true
    | .publish => .other k.publish.isSome
    | _ => .other k.acknowledged
  else .other false

def data : Option DataArgs := if k.fits ∧ k.pktType = .publish then k.publish.join else none

end Received

/-- A call of `client->data_cb`; `installed` says whether the callback was set. -/
structure DataCall extends DataArgs where
  installed : Bool

/-- `mqtt_message_received`: its calls of `data_cb`, its result and the net. There is
no result after a call through a null pointer. -/
def mqttMessageReceivedBytes (c : Nat) (k : Received) (w : Net) :
    List DataCall × Option (ConnStatus × Net) :=
  match k.data, w.heap c with
  | none, _ => ([], mqttMessageReceived c k.message w)
  | some _, none => ([], none)
  | some d, some cl =>
    ([{ d with installed := cl.inpub }],
      if cl.inpub then mqttMessageReceived c k.message w else none)

/-! ## `mqtt_parse_incoming` -/

/-- The loop of `mqtt_parse_incoming`: the client's buffer, the bytes of the segment
from `in_offset` on, how many messages were received, and the variables. -/
structure Scan where
  rx : RxState
  rest : List (BitVec 8)
  calls : Nat := 0
  msgRemLen : BitVec 32 := 0
  fixedHdrIdx : BitVec 8 := 0
  b : BitVec 8 := 0

namespace Scan

def inHeader (s : Scan) : Prop := s.fixedHdrIdx.toNat < 2 ∨ s.b &&& 0x80 ≠ 0

instance (s : Scan) : Decidable s.inHeader := inferInstanceAs (Decidable (_ ∨ _))

/-- The next byte of the fixed header: from the buffer, if it came with an earlier
segment, or from this segment. -/
def headerByte (s : Scan) : Scan :=
  if s.fixedHdrIdx.toNat < s.rx.msgIdx.toNat then
    { s with b := s.rx.rxBuffer s.fixedHdrIdx.toNat, fixedHdrIdx := s.fixedHdrIdx + 1 }
  else
    let b := s.rest.headD 0
    { s with
      rx := ⟨Function.update s.rx.rxBuffer s.rx.msgIdx.toNat b, s.rx.msgIdx + 1⟩
      rest := s.rest.tail, b := b, fixedHdrIdx := s.fixedHdrIdx + 1 }

/-- A message was received in full: `msg_idx` and `fixed_hdr_idx` are reset. -/
def reset (s : Scan) : Scan := { s with rx := { s.rx with msgIdx := 0 }, fixedHdrIdx := 0 }

section Round

variable (shiftOut : BitVec 32 → Nat → BitVec 32) (found : Nat → Bool)

/-- `x << n` for a `u32_t`. -/
def shiftLeft (x : BitVec 32) (n : Nat) : BitVec 32 := if n < 32 then x <<< n else shiftOut x n

/-- The rest of a round for a header of at least two bytes. -/
def remainingLength (s : Scan) : Option Received × Scan :=
  let s := { s with
    msgRemLen := s.msgRemLen |||
      shiftLeft shiftOut ((s.b &&& 0x7f).setWidth 32) ((s.fixedHdrIdx.toNat - 2) * 7) }
  if s.b &&& 0x80 = 0 then
    if s.msgRemLen = 0 then
      (some ⟨s.rx, s.fixedHdrIdx, 0, 0, found s.calls, false⟩,
        { s.reset with calls := s.calls + 1 })
    else
      (none, { s with msgRemLen := s.msgRemLen + s.fixedHdrIdx.setWidth 32 - s.rx.msgIdx })
  else (none, s)

def headerRound (s : Scan) : Option Received × Scan :=
  let s := s.headerByte
  if 2 ≤ s.fixedHdrIdx.toNat then s.remainingLength shiftOut found else (none, s)

def cpyStart (s : Scan) : Nat :=
  (s.rx.msgIdx - s.fixedHdrIdx.setWidth 32).toNat %
    (mqttVarHeaderBufferLen - s.fixedHdrIdx.toNat) + s.fixedHdrIdx.toNat

def bufferSpace (s : Scan) : Nat := mqttVarHeaderBufferLen - s.cpyStart

/-- `cpy_len`. A pbuf has less than 2^16 bytes, so that the casts lose nothing. -/
def cpyLen (s : Scan) : Nat := min (min s.rest.length s.msgRemLen.toNat) s.bufferSpace

/-- The rest of the message is copied as far as there is space. -/
def copyPartial (s : Scan) : Scan :=
  { s with
    rx := ⟨memcpy s.rx.rxBuffer s.cpyStart (fun i => s.rest.getD i 0) s.cpyLen,
      s.rx.msgIdx + BitVec.ofNat 32 s.cpyLen⟩
    rest := s.rest.drop s.cpyLen
    msgRemLen := s.msgRemLen - BitVec.ofNat 32 s.cpyLen }

/-- A round behind the fixed header: a whole message, or a full buffer, is received. -/
def bodyRound (s : Scan) : Option Received × Scan :=
  let t := s.copyPartial
  if t.msgRemLen = 0 ∨ s.cpyLen = s.bufferSpace then
    (some ⟨t.rx, t.fixedHdrIdx, s.cpyStart + s.cpyLen - s.fixedHdrIdx.toNat, t.msgRemLen,
        found t.calls, true⟩,
      { (if t.msgRemLen = 0 then t.reset else t) with calls := t.calls + 1 })
  else (none, t)

/-- A round of the loop: the message that is received in it, if there is one, and the
state for the next round. -/
def round (s : Scan) : Option Received × Scan :=
  if s.inHeader then s.headerRound shiftOut found else s.bodyRound found

end Round

end Scan

/-- What is seen of `mqtt_parse_incoming`: the calls of `mqtt_message_received`, those of
`data_cb`, whether the rounds did not suffice, and the result, if there is one. -/
structure Parsed where
  received : List Received := []
  data : List DataCall := []
  running : Bool := false
  result : Option (ConnStatus × RxState × Net) := none

/-- `mqtt_parse_incoming`, followed for a number of rounds. -/
def mqttParseIncomingBytes (shiftOut : BitVec 32 → Nat → BitVec 32) (found : Nat → Bool) (c : Nat) :
    Nat → Scan → Net → Parsed
  | rounds, s, w =>
    if s.rest = [] then { result := some (.accepted, s.rx, w) }
    else
      match rounds with
      | 0 => { running := true }
      | n + 1 =>
        match s.round shiftOut found with
        | (none, t) => mqttParseIncomingBytes shiftOut found c n t w
        | (some k, t) =>
          let (data, res) := mqttMessageReceivedBytes c k w
          match res with
          | none => { received := [k], data := data }
          | some (res, w) =>
            if k.checked ∧ res ≠ .accepted then
              { received := [k], data := data, result := some (res, k.rx, w) }
            else
              let rest := mqttParseIncomingBytes shiftOut found c n t w
              { rest with received := k :: rest.received, data := data ++ rest.data }

/-! ## Bytes and messages -/

theorem mqttMessageReceivedBytes_refines {c : Nat} {k : Received} {w w' : Net} {res : ConnStatus}
    (h : (mqttMessageReceivedBytes c k w).2 = some (res, w')) :
    mqttMessageReceived c k.message w = some (res, w') := by
  unfold mqttMessageReceivedBytes at h
  split at h
  · exact h
  · cases h
  · exact (Option.ite_none_right_eq_some.mp h).2

/-- The part of `mqtt_parse_incoming` that `MqttClient` has. -/
def Received.call (k : Received) : Message × Bool := (k.message, k.checked)

section Parse

variable (shiftOut : BitVec 32 → Nat → BitVec 32) (found : Nat → Bool)

/-- **Rule for `mqtt_parse_incoming`**: the ways in which a round can end. -/
theorem mqttParseIncomingBytes_rule {c : Nat} {motive : Nat → Scan → Net → Parsed → Prop}
    (done : ∀ n s w, s.rest = [] → motive n s w { result := some (.accepted, s.rx, w) })
    (running : ∀ s w, s.rest ≠ [] → motive 0 s w { running := true })
    (skip : ∀ n s t w, s.rest ≠ [] → s.round shiftOut found = (none, t) →
      motive n t w (mqttParseIncomingBytes shiftOut found c n t w) →
        motive (n + 1) s w (mqttParseIncomingBytes shiftOut found c n t w))
    (undefined : ∀ n s t w k data, s.rest ≠ [] → s.round shiftOut found = (some k, t) →
      mqttMessageReceivedBytes c k w = (data, none) →
        motive (n + 1) s w { received := [k], data := data })
    (stop : ∀ n s t w k data res w', s.rest ≠ [] → s.round shiftOut found = (some k, t) →
      mqttMessageReceivedBytes c k w = (data, some (res, w')) → k.checked = true ∧ res ≠ .accepted →
        motive (n + 1) s w { received := [k], data := data, result := some (res, k.rx, w') })
    (next : ∀ n s t w k data res w', s.rest ≠ [] → s.round shiftOut found = (some k, t) →
      mqttMessageReceivedBytes c k w = (data, some (res, w')) →
      ¬ (k.checked = true ∧ res ≠ .accepted) →
      let r := mqttParseIncomingBytes shiftOut found c n t w'
      motive n t w' r →
        motive (n + 1) s w { r with received := k :: r.received, data := data ++ r.data })
    (rounds : Nat) (s : Scan) (w : Net) :
    motive rounds s w (mqttParseIncomingBytes shiftOut found c rounds s w) := by
  induction rounds generalizing s w with
  | zero =>
    by_cases hrest : s.rest = []
    · simpa [mqttParseIncomingBytes, hrest] using done 0 s w hrest
    · simpa [mqttParseIncomingBytes, hrest] using running s w hrest
  | succ n ih =>
    by_cases hrest : s.rest = []
    · simpa [mqttParseIncomingBytes, hrest] using done (n + 1) s w hrest
    · rcases hround : s.round shiftOut found with ⟨_ | k, t⟩
      · simpa [mqttParseIncomingBytes, hrest, hround] using
          skip n s t w hrest hround (ih t w)
      · rcases hk : mqttMessageReceivedBytes c k w with ⟨data, _ | ⟨res, w'⟩⟩
        · simpa [mqttParseIncomingBytes, hrest, hround, hk] using
            undefined n s t w k data hrest hround hk
        · by_cases hstop : k.checked = true ∧ res ≠ .accepted
          · simpa [mqttParseIncomingBytes, hrest, hround, hk, hstop] using
              stop n s t w k data res w' hrest hround hk hstop
          · simpa [mqttParseIncomingBytes, hrest, hround, hk, hstop] using
              next n s t w k data res w' hrest hround hk hstop (ih t w')

/-- **Received bytes do to the client what their messages do.** -/
theorem mqttParseIncomingBytes_refines {c rounds : Nat} {s : Scan} {w w' : Net} {res : ConnStatus}
    {rx : RxState}
    (h : (mqttParseIncomingBytes shiftOut found c rounds s w).result = some (res, rx, w')) :
    mqttParseIncoming c
      ((mqttParseIncomingBytes shiftOut found c rounds s w).received.map Received.call) w =
        some (res, w') := by
  revert h
  apply mqttParseIncomingBytes_rule shiftOut found (motive := fun _ _ w r =>
    r.result = some (res, rx, w') →
      mqttParseIncoming c (r.received.map Received.call) w = some (res, w'))
  case done =>
    intro n s w _ h
    cases h
    rfl
  case running =>
    intro s w _ h
    cases h
  case skip =>
    intro n s t w _ _ ih
    exact ih
  case undefined =>
    intro n s t w k data _ _ _ h
    cases h
  case stop =>
    intro n s t w k data res₁ w₁ _ _ hk hstop h
    have hmsg := mqttMessageReceivedBytes_refines (congrArg Prod.snd hk)
    cases h
    simp [mqttParseIncoming, Received.call, hmsg, hstop]
  case next =>
    intro n s t w k data res₁ w₁ _ _ hk hstop r ih h
    have hmsg := mqttMessageReceivedBytes_refines (congrArg Prod.snd hk)
    simp only [List.map_cons, Received.call, mqttParseIncoming, hmsg, Option.bind_eq_bind,
      Option.bind_some, if_neg hstop]
    exact ih h

/-! ## The data that is delivered -/

theorem Received.data_inside {k : Received} {d : DataArgs} (h : k.data = some d) :
    d.start + d.len ≤ mqttVarHeaderBufferLen := by
  unfold data at h
  obtain ⟨⟨hfits, -⟩, h⟩ := Option.ite_none_right_eq_some.mp h
  obtain ⟨⟨offset, len⟩, -, h⟩ := Option.bind_eq_some_iff.mp (Option.join_eq_some_iff.mp h)
  dsimp only at h
  split at h
  · obtain ⟨hlen, h⟩ := Option.ite_none_left_eq_some.mp h
    cases h
    have hfits : k.fixedHdrIdx.toNat + k.length ≤ mqttVarHeaderBufferLen :=
      of_decide_eq_true hfits
    dsimp only
    omega
  · cases h

theorem mqttMessageReceivedBytes_inside {c : Nat} {k : Received} {w : Net} {data : List DataCall}
    {res : Option (ConnStatus × Net)} (h : mqttMessageReceivedBytes c k w = (data, res)) :
    ∀ d ∈ data, d.start + d.len ≤ mqttVarHeaderBufferLen := by
  unfold mqttMessageReceivedBytes at h
  split at h
  · cases h
    exact List.forall_mem_nil _
  · cases h
    exact List.forall_mem_nil _
  · rename_i hdata hcl
    cases h
    exact List.forall_mem_singleton.mpr (Received.data_inside hdata)

/-- **All data of a segment** lies in the buffer. -/
theorem mqttParseIncomingBytes_inside (c rounds : Nat) (s : Scan) (w : Net) :
    ∀ d ∈ (mqttParseIncomingBytes shiftOut found c rounds s w).data,
      d.start + d.len ≤ mqttVarHeaderBufferLen := by
  apply mqttParseIncomingBytes_rule shiftOut found (c := c)
    (motive := fun _ _ _ r => ∀ d ∈ r.data, d.start + d.len ≤ mqttVarHeaderBufferLen)
  case done =>
    intro n s w _
    exact List.forall_mem_nil _
  case running =>
    intro s w _
    exact List.forall_mem_nil _
  case skip =>
    intro n s t w _ _ ih
    exact ih
  case undefined =>
    intro n s t w k data _ _ hk
    exact mqttMessageReceivedBytes_inside hk
  case stop =>
    intro n s t w k data res w' _ _ hk _
    exact mqttMessageReceivedBytes_inside hk
  case next =>
    intro n s t w k data res w' _ _ hk _ r ih
    exact List.forall_mem_append.mpr ⟨mqttMessageReceivedBytes_inside hk, ih⟩

/-! ## The end of the loop -/

/-- The loop goes on with an earlier header byte when it is at the last value of
`fixed_hdr_idx`. -/
def Scan.Overrun (s : Scan) : Prop := s.inHeader ∧ s.fixedHdrIdx = 255

def Scan.after (s : Scan) : Nat → Scan
  | 0 => s
  | n + 1 => ((s.round shiftOut found).2).after n

/-- What is left to do: the bytes, then the bytes of the header that are already
in the buffer. -/
def Scan.weight (s : Scan) : Nat × Nat :=
  (s.rest.length,
    2 * (s.rx.msgIdx.toNat - s.fixedHdrIdx.toNat) + if s.inHeader then 0 else 1)

theorem Scan.weight_of_bounds {s : Scan} {len d : Nat} (hrest : s.rest.length = len)
    (hidx : s.rx.msgIdx.toNat - s.fixedHdrIdx.toNat < d) :
    Prod.Lex (· < ·) (· < ·) s.weight (len, 2 * d) := by
  rw [weight, hrest]
  apply Prod.Lex.right
  split <;> omega

theorem Scan.remainingLength_cases (s : Scan) :
    (s.remainingLength shiftOut found).2.rest = s.rest ∧
      ((s.remainingLength shiftOut found).2.rx.msgIdx = 0 ∨
        (s.remainingLength shiftOut found).2.rx.msgIdx = s.rx.msgIdx ∧
          (s.remainingLength shiftOut found).2.fixedHdrIdx = s.fixedHdrIdx) := by
  unfold remainingLength
  dsimp only
  split
  · split
    · exact ⟨rfl, .inl rfl⟩
    · exact ⟨rfl, .inr ⟨rfl, rfl⟩⟩
  · exact ⟨rfl, .inr ⟨rfl, rfl⟩⟩

theorem Scan.headerRound_cases (s : Scan) :
    (s.headerRound shiftOut found).2.rest = s.headerByte.rest ∧
      ((s.headerRound shiftOut found).2.rx.msgIdx = 0 ∨
        (s.headerRound shiftOut found).2.rx.msgIdx = s.headerByte.rx.msgIdx ∧
          (s.headerRound shiftOut found).2.fixedHdrIdx = s.headerByte.fixedHdrIdx) := by
  unfold headerRound
  dsimp only
  split
  · exact remainingLength_cases shiftOut found _
  · exact ⟨rfl, .inr ⟨rfl, rfl⟩⟩

/-- A round at the header takes a byte of the segment, or one of the buffer. -/
theorem Scan.headerRound_weight {s : Scan} (hrest : s.rest ≠ []) (hin : s.inHeader)
    (hlast : s.fixedHdrIdx ≠ 255) :
    Prod.Lex (· < ·) (· < ·) (s.headerRound shiftOut found).2.weight s.weight := by
  obtain ⟨hr, hidx⟩ := s.headerRound_cases shiftOut found
  by_cases hold : s.fixedHdrIdx.toNat < s.rx.msgIdx.toNat
  · rw [show s.weight = (s.rest.length, 2 * (s.rx.msgIdx.toNat - s.fixedHdrIdx.toNat)) by
      simp [weight, hin]]
    simp only [headerByte, if_pos hold] at hr hidx
    apply weight_of_bounds (congrArg List.length hr)
    rcases hidx with hz | ⟨hm, hf⟩
    · rw [hz, show (0 : BitVec 32).toNat = 0 from rfl]
      omega
    · have hnext : (s.fixedHdrIdx + 1).toNat = s.fixedHdrIdx.toNat + 1 := by
        have hne : s.fixedHdrIdx.toNat ≠ 255 := fun h => hlast (BitVec.eq_of_toNat_eq h)
        have hlt := s.fixedHdrIdx.isLt
        rw [BitVec.toNat_add, show (1 : BitVec 8).toNat = 1 from rfl]
        omega
      rw [hm, hf, hnext]
      omega
  · simp only [headerByte, if_neg hold] at hr
    apply Prod.Lex.left
    rw [hr, List.length_tail]
    have hpos := List.length_pos_iff.mpr hrest
    omega

theorem Scan.bufferSpace_pos (s : Scan) : 0 < s.bufferSpace := by
  have hhdr := s.fixedHdrIdx.isLt
  have hmod := Nat.mod_lt (s.rx.msgIdx - s.fixedHdrIdx.setWidth 32).toNat
    (show 0 < mqttVarHeaderBufferLen - s.fixedHdrIdx.toNat by
      simp only [mqttVarHeaderBufferLen]
      omega)
  simp only [bufferSpace, cpyStart, mqttVarHeaderBufferLen] at hmod ⊢
  omega

theorem Scan.bodyRound_rest (s : Scan) :
    (s.bodyRound found).2.rest = s.rest.drop s.cpyLen := by
  unfold bodyRound
  dsimp only
  split
  · split <;> rfl
  · rfl

/-- A round behind the header takes bytes of the segment, or starts a new message. -/
theorem Scan.bodyRound_weight {s : Scan} (hrest : s.rest ≠ []) (hin : ¬ s.inHeader) :
    Prod.Lex (· < ·) (· < ·) (s.bodyRound found).2.weight s.weight := by
  have hpos := List.length_pos_iff.mpr hrest
  by_cases hcpy : s.cpyLen = 0
  · have hrem : s.msgRemLen = 0 := by
      have hspace := s.bufferSpace_pos
      simp only [cpyLen] at hcpy
      exact BitVec.eq_of_toNat_eq (show s.msgRemLen.toNat = 0 by omega)
    have hreset : (s.bodyRound found).2 = { s.copyPartial.reset with calls := s.calls + 1 } := by
      simp [bodyRound, copyPartial, hcpy, hrem]
    rw [show s.weight = (s.rest.length, 2 * (s.rx.msgIdx.toNat - s.fixedHdrIdx.toNat) + 1) by
      simp [weight, hin], hreset]
    have hlen : s.copyPartial.rest.length = s.rest.length := by simp [copyPartial, hcpy]
    simp [weight, reset, inHeader, hlen, Prod.lex_def]
  · apply Prod.Lex.left
    rw [bodyRound_rest, List.length_drop]
    omega

/-- Every round does something, unless `fixed_hdr_idx` wraps. -/
theorem Scan.round_weight {s : Scan} (hrest : s.rest ≠ []) (h : ¬ s.Overrun) :
    Prod.Lex (· < ·) (· < ·) (s.round shiftOut found).2.weight s.weight := by
  by_cases hin : s.inHeader
  · rw [round, if_pos hin]
    exact headerRound_weight shiftOut found hrest hin fun hlast => h ⟨hin, hlast⟩
  · rw [round, if_neg hin]
    exact bodyRound_weight found hrest hin

/-- **The loop ends** for every segment, unless `fixed_hdr_idx` wraps. -/
theorem mqttParseIncomingBytes_ends (c : Nat) (s : Scan) (w : Net)
    (h : ∀ n, ¬ (s.after shiftOut found n).Overrun) :
    ∃ rounds, (mqttParseIncomingBytes shiftOut found c rounds s w).running = false := by
  have hwf : WellFounded (Prod.Lex (α := Nat) (β := Nat) (· < ·) (· < ·)) :=
    WellFounded.prod_lex wellFounded_lt wellFounded_lt
  induction hs : s.weight using hwf.induction generalizing s w with
  | _ x ih =>
    by_cases hrest : s.rest = []
    · exact ⟨0, by simp [mqttParseIncomingBytes, hrest]⟩
    · have hlt := Scan.round_weight shiftOut found hrest (h 0)
      rcases hround : s.round shiftOut found with ⟨_ | k, t⟩
      · rw [hround, hs] at hlt
        obtain ⟨n, hn⟩ := ih _ hlt t w (fun m => by simpa [Scan.after, hround] using h (m + 1)) rfl
        exact ⟨n + 1, by simpa [mqttParseIncomingBytes, hrest, hround] using hn⟩
      · rw [hround, hs] at hlt
        rcases hk : mqttMessageReceivedBytes c k w with ⟨data, _ | ⟨res, w'⟩⟩
        · exact ⟨1, by simp [mqttParseIncomingBytes, hrest, hround, hk]⟩
        · obtain ⟨n, hn⟩ :=
            ih _ hlt t w' (fun m => by simpa [Scan.after, hround] using h (m + 1)) rfl
          refine ⟨n + 1, ?_⟩
          simp only [mqttParseIncomingBytes, hrest, hround, hk, if_false]
          split
          · rfl
          · exact hn

end Parse

/-! ## Where `tcp_input` calls it -/

/-- The client and the net with which `mqtt_parse_incoming` is called for received data,
if it is called. -/
def tcpDataTo (id len : Nat) (w : Net) : Option (Nat × Net) := do
  let p ← w.pcb id
  if len ≠ 0 ∧ p.rxClosed = false ∧ p.recv = true then
    let c ← p.callbackArg
    let _ ← w.heap c
    some (c, w.setPcb id (some (p.recved len)))
  else none

/-- `tcp_input` up to the callback for what is acknowledged. -/
def tcpInputAcked (p : TcpPcb) (seg : Segment) (w : Net) : Option Net :=
  let q := tcpProcess seg p
  let w := w.setPcb p.id (if q.state = .timeWait then none else some q)
  if seg.acked then q.callback q.sent mqttTcpSentCb w else some w

/-- The client and the net with which `mqtt_parse_incoming` is called for a segment. -/
def tcpInputTo (p : TcpPcb) (seg : Segment) (w : Net) : Option (Nat × Net) :=
  (tcpInputAcked p seg w).bind fun w => if seg.closes p then none else tcpDataTo p.id seg.len w

/-- The rest of `mqtt_tcp_recv_cb`. -/
def mqttTcpRecvEnd (c : Nat) (memory : Bool) (r : ConnStatus × Net) : Option Net := do
  let w ← (if r.1 ≠ .accepted then mqttClose c r.1 memory r.2 else some r.2)
  let cl ← w.heap c
  some (if cl.keepAlive ≠ 0 then w.setClient c { cl with serverWatchdog := 0 } else w)

/-- The rest of `tcp_input`. -/
def tcpInputEnd (p : TcpPcb) (seg : Segment) (memory : Bool) (w : Net) : Option Net :=
  if seg.fin then tcpInputFin p.id memory w else some w

theorem tcpInputData_some {id len c : Nat} {w w' : Net} (h : tcpDataTo id len w = some (c, w'))
    (ms : List (Message × Bool)) (memory : Bool) :
    tcpInputData id len ms memory w =
      (mqttParseIncoming c ms w').bind (mqttTcpRecvEnd c memory) := by
  obtain ⟨p, hp, h⟩ := Option.bind_eq_some_iff.mp h
  obtain ⟨⟨hlen, hclosed, hrecv⟩, h⟩ := Option.ite_none_right_eq_some.mp h
  obtain ⟨c', hc, h⟩ := Option.bind_eq_some_iff.mp h
  obtain ⟨cl, hcl, h⟩ := Option.bind_eq_some_iff.mp h
  cases h
  simp only [tcpInputData, hp, hlen, hclosed, hrecv, if_false, if_true, Bool.false_eq_true,
    TcpPcb.callback, hc, Option.bind_some, mqttTcpRecvCb, hcl, Option.bind_eq_bind]
  rfl

theorem tcpInputData_none {id len : Nat} {w : Net} (h : tcpDataTo id len w = none)
    (ms : List (Message × Bool)) (memory : Bool) :
    tcpInputData id len ms memory w = tcpInputData id len [] memory w := by
  unfold tcpInputData
  split
  · rfl
  · rename_i p hp
    split
    · rfl
    · rename_i hlen
      split
      · rfl
      · rename_i hclosed
        split
        · rename_i hrecv
          simp only [tcpDataTo, hp, hlen, hclosed, hrecv, Option.bind_eq_bind, Option.bind_some,
            ne_eq, not_false_eq_true, and_self, if_true] at h
          simp only [TcpPcb.callback, hrecv, if_true]
          cases hc : p.callbackArg with
          | none => rfl
          | some c =>
            cases hcl : w.heap c with
            | none => simp [mqttTcpRecvCb, hcl]
            | some cl => simp [hc, hcl] at h
        · rfl

/-- **The call of `mqtt_parse_incoming` in `tcp_input`.** -/
theorem tcpInput_some {p : TcpPcb} {seg : Segment} {c : Nat} {w w' : Net}
    (h : tcpInputTo p seg w = some (c, w')) (ms : List (Message × Bool)) (memory : Bool) :
    tcpInput p seg ms memory w =
      ((mqttParseIncoming c ms w').bind (mqttTcpRecvEnd c memory)).bind
        (tcpInputEnd p seg memory) := by
  obtain ⟨w₁, hacked, h⟩ := Option.bind_eq_some_iff.mp h
  obtain ⟨hcloses, h⟩ := Option.ite_none_left_eq_some.mp h
  rw [← tcpInputData_some h]
  simp only [tcpInputAcked] at hacked
  simp only [tcpInput, hacked, Option.bind_eq_bind, Option.bind_some, hcloses]
  rfl

/-- **A segment of bytes** in `tcp_input`, when the loop has a result. -/
theorem tcpInput_bytes (shiftOut : BitVec 32 → Nat → BitVec 32) (found : Nat → Bool) {p : TcpPcb}
    {seg : Segment} {c rounds : Nat} {s : Scan} {w w' w'' : Net} {res : ConnStatus} {rx : RxState}
    (h : tcpInputTo p seg w = some (c, w'))
    (hr : (mqttParseIncomingBytes shiftOut found c rounds s w').result = some (res, rx, w''))
    (memory : Bool) :
    tcpInput p seg
        ((mqttParseIncomingBytes shiftOut found c rounds s w').received.map Received.call) memory w =
      (mqttTcpRecvEnd c memory (res, w'')).bind (tcpInputEnd p seg memory) := by
  rw [tcpInput_some h, mqttParseIncomingBytes_refines shiftOut found hr, Option.bind_some]

theorem tcpInput_none {p : TcpPcb} {seg : Segment} {w : Net} (h : tcpInputTo p seg w = none)
    (ms : List (Message × Bool)) (memory : Bool) :
    tcpInput p seg ms memory w = tcpInput p seg [] memory w := by
  unfold tcpInputTo at h
  cases hacked : tcpInputAcked p seg w with
  | none =>
    simp only [tcpInputAcked] at hacked
    simp [tcpInput, hacked]
  | some w₁ =>
    rw [hacked, Option.bind_some] at h
    simp only [tcpInputAcked] at hacked
    simp only [tcpInput, hacked, Option.bind_eq_bind, Option.bind_some]
    split
    · rfl
    · rename_i hcloses
      rw [if_neg hcloses] at h
      rw [tcpInputData_none h]

end MqttDevice.Lwip
