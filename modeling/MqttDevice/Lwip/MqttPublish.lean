import MqttDevice.Lwip.MqttFraming
import MqttDevice.DataCallback

/-!
# Received payloads (`mqtt_message_received`, `mqtt_data_cb`)

A PUBLISH that does not fit in `rx_buffer` is passed to `data_cb` in fragments; the flag
`MQTT_DATA_FLAG_LAST` ends a payload. Only the first part of the packet has the topic.

* `Publish.publish_part`: what is passed on of a part;
* `assemble_fragments`: the fragments of a packet make up its payload;
* `payloads_delivered`: however the packets of a connected client are cut into segments, the
  payloads come to `data_cb` in order, byte for byte.
-/

namespace MqttDevice.Lwip

open MqttDevice.Memory MqttDevice.Chunks
open MqttDevice.DataCallback (Accepted)

/-! ## Packets for a client that is connected -/

/-- A 16-bit number as it is sent. -/
def be16 (n : Nat) : List (BitVec 8) := [BitVec.ofNat 8 (n / 256), BitVec.ofNat 8 n]

/-- A PUBLISH whose topic fits in `rx_buffer`. -/
structure Publish extends Packet where
  topic : List (BitVec 8)
  pktId : List (BitVec 8)
  payload : List (BitVec 8)
  type : mqttCtlPacketType first = .publish
  topicLen : topic.length < 65536
  idLen : pktId.length = if mqttCtlPacketQos first ≠ 0 then 2 else 0
  layout : body = (be16 topic.length ++ topic ++ pktId) ++ payload
  fits : 2 + topic.length + (if mqttCtlPacketQos first ≠ 0 then 2 else 1) ≤
    mqttVarHeaderBufferLen - (field.length + 1)

namespace Publish

variable (p : Publish)

/-- Topic and packet identifier. -/
def varHeader : List (BitVec 8) := be16 p.topic.length ++ p.topic ++ p.pktId

/-- The position of the payload in a part. -/
def offset (q : Piece (BitVec 8)) : Nat := if q.start = 0 then p.varHeader.length else 0

/-- What is passed to `data_cb` of a part: bytes of the payload, and the flag. -/
def fragments (q : Piece (BitVec 8)) : List (List (BitVec 8) × Bool) :=
  if q.data.drop (p.offset q) = [] ∧ q.stop ≠ p.body.length then []
  else [(q.data.drop (p.offset q), q.stop == p.body.length)]

end Publish

/-- An acknowledgement with a packet identifier. -/
structure Packet.IsAck (p : Packet) : Prop where
  type : mqttCtlPacketType p.first ∈
    [MqttMessageType.puback, .pubrec, .pubrel, .pubcomp, .suback, .unsuback]
  pktId : p.body.getD 0 0 ≠ 0 ∨ p.body.getD 1 0 ≠ 0
  result : mqttCtlPacketType p.first = .suback → 3 ≤ p.body.length
  fits : p.body.length ≤ p.room

/-- The payloads that a packet brings. -/
inductive Packet.Brings : Packet → List (List (BitVec 8)) → Prop
  | publish (p : Publish) : Brings p.toPacket [p.payload]
  | pingresp {p : Packet} (h : mqttCtlPacketType p.first = .pingresp) : Brings p []
  | ack {p : Packet} (h : p.IsAck) : Brings p []

/-- The payloads in fragments, and what has come of one that is not complete. -/
def assemble (acc : List (BitVec 8)) :
    List (List (BitVec 8) × Bool) → List (List (BitVec 8)) × List (BitVec 8)
  | [] => ([], acc)
  | (data, last) :: rest =>
    if last then ((acc ++ data) :: (assemble [] rest).1, (assemble [] rest).2)
    else assemble (acc ++ data) rest

theorem assemble_append (acc : List (BitVec 8)) (xs ys : List (List (BitVec 8) × Bool)) :
    assemble acc (xs ++ ys) =
      ((assemble acc xs).1 ++ (assemble (assemble acc xs).2 ys).1,
        (assemble (assemble acc xs).2 ys).2) := by
  induction xs generalizing acc with
  | nil => rfl
  | cons x xs ih =>
    obtain ⟨data, last⟩ := x
    rw [List.cons_append, assemble, assemble]
    cases last with
    | true => simp [ih]
    | false => simp [ih]

/-! ## What a call reads -/

namespace Received.Shows

variable {k : Received} {p : Packet} {q : Piece (BitVec 8)}

theorem varHdrPayload (h : k.Shows p q) {i : Nat} (hi : i < q.data.length) :
    k.varHdrPayload i = q.data[i] := by
  have hget := congrArg (fun l : List (BitVec 8) => l[i]?) h.data
  simp only [Memory.bytes, List.getElem?_map, List.getElem?_range hi, Option.map_some,
    List.getElem?_eq_getElem hi, Option.some.injEq] at hget
  rw [Received.varHdrPayload, h.fixedHdrIdx, hget]

theorem first (h : k.Shows p q) : k.rx.rxBuffer 0 = p.first := by
  have hget := congrArg (fun l : List (BitVec 8) => l.headD 0) h.header
  simpa [Memory.bytes, Packet.header, List.range_succ_eq_map] using hget

theorem pktType (h : k.Shows p q) : k.pktType = mqttCtlPacketType p.first :=
  congrArg mqttCtlPacketType h.first

theorem qos (h : k.Shows p q) : k.qos = mqttCtlPacketQos p.first := congrArg mqttCtlPacketQos h.first

theorem fits (h : k.Shows p q) (hroom : q.data.length ≤ p.room) : k.fits = true := by
  have hle := p.header_le
  have hidx := h.fixedHdrIdx
  have hlen := h.length
  unfold Packet.room mqttVarHeaderBufferLen at hroom
  exact decide_eq_true (by rw [mqttVarHeaderBufferLen]; omega)

theorem bufsize (h : k.Shows p q) : k.varHdrPayloadBufsize = p.room := by
  rw [varHdrPayloadBufsize, h.fixedHdrIdx, Packet.room]

/-- Bytes of the part. -/
theorem bytes_drop (h : k.Shows p q) {n : Nat} (hn : n ≤ q.data.length) :
    Memory.bytes k.rx.rxBuffer (k.fixedHdrIdx.toNat + n) (k.length - n) = q.data.drop n := by
  have hsplit := bytes_add k.rx.rxBuffer p.header.length n (q.data.length - n)
  rw [Nat.add_sub_cancel' hn, h.data] at hsplit
  have hdrop := congrArg (List.drop n) hsplit
  rw [List.drop_left' (length_bytes ..)] at hdrop
  rw [h.fixedHdrIdx, h.length, hdrop]

end Received.Shows

namespace Publish

variable (p : Publish)

theorem length_varHeader :
    p.varHeader.length = 2 + p.topic.length + if mqttCtlPacketQos p.first ≠ 0 then 2 else 0 := by
  rw [varHeader, List.length_append, List.length_append, p.idLen]
  rfl

theorem length_body : p.body.length = p.varHeader.length + p.payload.length := by
  rw [p.layout, List.length_append]
  rfl

theorem varHeader_le : p.varHeader.length ≤ p.room := by
  have hfits := p.fits
  rw [p.length_varHeader, Packet.room, p.length_header]
  split_ifs at hfits ⊢ <;> omega

/-- **The topic** is found in the first part. -/
theorem publishPayload_first {k : Received} (h : k.Shows p.toPacket ⟨0, p.body.take p.room⟩) :
    k.publishPayload = some (p.varHeader.length, k.length - p.varHeader.length) := by
  have hle := p.header_le
  have hvar := p.length_varHeader
  have hroom := p.varHeader_le
  have hbody := p.length_body
  have hfits := p.fits
  have hlen : k.length = min p.room p.body.length := by rw [h.length, List.length_take]
  have hmsg := h.msgIdx
  have hbuf := h.bufsize
  have htopic := p.topicLen
  have hhdr := p.length_header
  have hcap : mqttVarHeaderBufferLen = 1024 := rfl
  have hroomEq : p.room = mqttVarHeaderBufferLen - p.header.length := rfl
  rw [Piece.stop, List.length_take] at hmsg
  dsimp only at hmsg
  have hlength : (k.varHdrPayload 0).toNat * 256 + (k.varHdrPayload 1).toNat = p.topic.length := by
    have h0 := h.varHdrPayload (i := 0) (by rw [List.length_take]; omega)
    have h1 := h.varHdrPayload (i := 1) (by rw [List.length_take]; omega)
    rw [List.getElem_take, List.getElem_of_eq p.layout] at h0 h1
    rw [h0, h1]
    simp [be16]
    omega
  have hwhole : k.rx.msgIdx.toNat ≤ mqttVarHeaderBufferLen := by
    omega
  rw [Received.publishPayload, if_pos hwhole, h.qos]
  dsimp only
  rw [hlength]
  by_cases hq : mqttCtlPacketQos p.first = 0
  · simp only [hq, ne_eq, not_true_eq_false, if_false, gt_iff_lt, lt_self_iff_false]
      at hvar hfits ⊢
    rw [if_neg (by omega), if_neg (by omega), if_neg (by omega), hvar, Nat.add_zero]
  · have hpos : 0 < mqttCtlPacketQos p.first := Nat.pos_of_ne_zero hq
    simp only [hq, hpos, ne_eq, not_false_eq_true, if_true, gt_iff_lt] at hvar hfits ⊢
    rw [if_neg (by omega), if_neg (by omega), if_neg (by omega), if_neg (by omega), hvar]

/-- A later part, or the first one. -/
theorem part_cases {q : Piece (BitVec 8)} (hq : q ∈ p.parts) :
    q = ⟨0, p.body.take p.room⟩ ∨ q.data ≠ [] ∧ p.room ≤ q.start ∧ q.data.length ≤ p.room ∧
      q.stop ≤ p.body.length := by
  rw [p.parts_eq] at hq
  rcases List.mem_cons.mp hq with rfl | hq
  · exact .inl rfl
  · obtain ⟨hdata, hle, hstart, hstop⟩ := mem_pieces hq
    refine .inr ⟨hdata, hstart, hle, ?_⟩
    have hpos := List.length_pos_iff.mpr hdata
    rw [List.length_drop] at hstop
    unfold Piece.stop at hstop ⊢
    omega

theorem part_bounds {q : Piece (BitVec 8)} (hq : q ∈ p.parts) :
    q.data.length ≤ p.room ∧ q.stop ≤ p.body.length ∧ p.offset q ≤ q.data.length := by
  have hroom := p.varHeader_le
  have hbody := p.length_body
  have hpos := p.room_pos
  rcases p.part_cases hq with rfl | ⟨hdata, hstart, hle, hstop⟩
  · rw [offset, if_pos rfl, Piece.stop, List.length_take]
    dsimp only
    omega
  · rw [offset, if_neg (by omega)]
    exact ⟨hle, hstop, Nat.zero_le _⟩

/-- **The payload in a part.** -/
theorem publishPayload_part {k : Received} {q : Piece (BitVec 8)} (h : k.Shows p.toPacket q)
    (hq : q ∈ p.parts) : k.publishPayload = some (p.offset q, k.length - p.offset q) := by
  have hpos := p.room_pos
  rcases p.part_cases hq with rfl | ⟨hdata, hstart, hle, hstop⟩
  · exact p.publishPayload_first h
  · have hlong : ¬ k.rx.msgIdx.toNat ≤ mqttVarHeaderBufferLen := by
      have hmsg := h.msgIdx
      have hlen := List.length_pos_iff.mpr hdata
      have hroomEq : p.room = mqttVarHeaderBufferLen - p.header.length := rfl
      unfold Piece.stop at hmsg
      omega
    rw [Received.publishPayload, if_neg hlong, offset, if_neg (by omega)]
    rfl

/-- **What is passed on of a part.** -/
theorem publish_part {k : Received} {q : Piece (BitVec 8)} (h : k.Shows p.toPacket q)
    (hq : q ∈ p.parts) :
    k.message = .other true ∧
      k.data.toList.map (fun d => (bytes d.rxBuffer d.start d.len, d.last)) = p.fragments q := by
  obtain ⟨hle, hstop, hoff⟩ := p.part_bounds hq
  have hpayload := p.publishPayload_part h hq
  have hfits := h.fits hle
  have htype := h.pktType.trans p.type
  have hlen := h.length
  have hempty : k.length - p.offset q > 0 ↔ q.data.drop (p.offset q) ≠ [] := by
    rw [ne_eq, List.drop_eq_nil_iff]
    omega
  have hremaining : k.remainingLength = 0 ↔ q.stop = p.body.length := by
    have hrem := h.remaining
    rw [← BitVec.toNat_inj, hrem, show (0 : BitVec 32).toNat = 0 from rfl]
    omega
  have hbytes := h.bytes_drop hoff
  have hnot : ¬ k.length < p.offset q + (k.length - p.offset q) := by omega
  have hpublish : k.publish =
      if q.data.drop (p.offset q) ≠ [] ∨ q.stop = p.body.length then
        some (some ⟨k.rx.rxBuffer, k.fixedHdrIdx.toNat + p.offset q, k.length - p.offset q,
          k.remainingLength == 0⟩)
      else some none := by
    rw [Received.publish, hpayload, Option.bind_some]
    simp only [hempty, hremaining, if_neg hnot]
  constructor
  · rw [Received.message, hfits, if_pos rfl, htype]
    dsimp only
    rw [hpublish]
    split <;> rfl
  · rw [Received.data, if_pos ⟨hfits, htype⟩, hpublish, fragments]
    by_cases hnone : q.data.drop (p.offset q) = [] ∧ q.stop ≠ p.body.length
    · rw [if_pos hnone, if_neg (by simpa using hnone)]
      rfl
    · have hsome : q.data.drop (p.offset q) ≠ [] ∨ q.stop = p.body.length := by
        rwa [Classical.not_and_iff_not_or_not, not_not] at hnone
      have hlast : (k.remainingLength == 0) = (q.stop == p.body.length) := by
        rw [Bool.eq_iff_iff, beq_iff_eq, beq_iff_eq, hremaining]
      rw [if_neg hnone, if_pos hsome]
      simp only [Option.join_some, Option.toList_some, List.map_cons, List.map_nil, hbytes, hlast]

/-- The fragments of later parts make up the rest of the payload. -/
theorem assemble_pieces {start : Nat} (hstart : 0 < start) (hlt : start < p.body.length)
    (acc : List (BitVec 8)) :
    assemble acc ((pieces p.room start (p.body.drop start)).flatMap p.fragments) =
      ([acc ++ p.body.drop start], []) := by
  induction hk : p.body.length - start using Nat.strong_induction_on generalizing start acc with
  | _ k ih =>
    have hroom := p.room_pos
    have hdrop : p.body.drop start ≠ [] := by
      rw [ne_eq, List.drop_eq_nil_iff]
      omega
    have hfirst : (p.body.drop start).take p.room ≠ [] := by
      rw [ne_eq, List.take_eq_nil_iff]
      rintro (h | h)
      · omega
      · exact hdrop h
    rw [pieces_cons hroom start hdrop, List.flatMap_cons, fragments]
    simp only [offset, if_neg (show start ≠ 0 by omega), List.drop_zero, hfirst, false_and, if_false,
      List.singleton_append, assemble, Piece.stop, List.length_take, List.length_drop]
    by_cases hlast : p.body.length ≤ start + p.room
    · have hstop : (start + min p.room (p.body.length - start) == p.body.length) = true := by
        rw [beq_iff_eq]
        omega
      have hlen : (p.body.drop start).length ≤ p.room := by
        rw [List.length_drop]
        omega
      rw [if_pos hstop, List.take_of_length_le hlen, List.drop_of_length_le hlen, pieces_nil]
      rfl
    · have hstop : ¬ (start + min p.room (p.body.length - start) == p.body.length) = true := by
        rw [beq_iff_eq]
        omega
      rw [if_neg hstop, List.drop_drop, ih _ (by omega) (by omega) (by omega) _ rfl,
        List.append_assoc, ← List.drop_drop, List.take_append_drop]

/-- **The fragments of a packet** make up its payload. -/
theorem assemble_fragments : assemble [] (p.parts.flatMap p.fragments) = ([p.payload], []) := by
  have hvar := p.varHeader_le
  have hlen := p.length_body
  have hroom := p.room_pos
  have hlayout : p.body = p.varHeader ++ p.payload := p.layout
  have hdrop : (p.body.take p.room).drop p.varHeader.length =
      p.payload.take (p.room - p.varHeader.length) := by
    rw [List.drop_take, hlayout, List.drop_left' rfl]
  rw [p.parts_eq, List.flatMap_cons, fragments]
  simp only [offset, if_true, hdrop, Piece.stop, List.length_take, Nat.zero_add]
  by_cases hshort : p.body.length ≤ p.room
  · have hstop : min p.room p.body.length = p.body.length := Nat.min_eq_right hshort
    rw [hstop, if_neg (fun h => h.2 rfl), List.drop_of_length_le hshort, pieces_nil,
      List.take_of_length_le (by omega)]
    simp [assemble]
  · have hstop : min p.room p.body.length ≠ p.body.length := by omega
    have hrest : p.body.drop p.room = p.payload.drop (p.room - p.varHeader.length) := by
      rw [hlayout, List.drop_append, List.drop_of_length_le hvar, List.nil_append]
    have hfirst : assemble [] (if p.payload.take (p.room - p.varHeader.length) = [] ∧
        min p.room p.body.length ≠ p.body.length then []
        else [(p.payload.take (p.room - p.varHeader.length),
          min p.room p.body.length == p.body.length)]) =
            ([], p.payload.take (p.room - p.varHeader.length)) := by
      by_cases hempty : p.payload.take (p.room - p.varHeader.length) = []
      · rw [if_pos ⟨hempty, hstop⟩, hempty]
        rfl
      · rw [if_neg (fun h => hempty h.1)]
        simp [assemble, hstop]
    rw [assemble_append, hfirst, p.assemble_pieces hroom (by omega), hrest, List.take_append_drop]
    rfl

end Publish

/-! ## The other packets -/

/-- A message of another type that is taken. -/
theorem Received.message_other {k : Received} (hfits : k.fits = true)
    (htype : k.pktType ≠ .publish) (htaken : k.pktType = .pingresp ∨ k.acknowledged = true) :
    k.message = .other true ∧ k.data = none := by
  refine ⟨?_, if_neg fun h => htype h.2⟩
  rw [Received.message, hfits, if_pos rfl]
  rcases htaken with hping | hack
  · rw [hping]
  · split
    · rename_i hconnack
      simp [Received.acknowledged, hconnack] at hack
    · rfl
    · exact absurd ‹_› htype
    · rw [hack]

theorem Received.Shows.byte_ne_zero {k : Received} {p : Packet} (h : k.Shows p ⟨0, p.body⟩) {i : Nat}
    (hne : p.body.getD i 0 ≠ 0) : k.varHdrPayload i ≠ 0 := by
  have hi : i < p.body.length := by
    by_contra hle
    exact hne (by rw [List.getD_eq_getElem?_getD, List.getElem?_eq_none (by omega),
      Option.getD_none])
  have hget := h.varHdrPayload hi
  rw [List.getD_eq_getElem?_getD, List.getElem?_eq_getElem hi, Option.getD_some] at hne
  rwa [hget]

theorem Packet.IsAck.acknowledged {p : Packet} (hp : p.IsAck) {k : Received}
    (h : k.Shows p ⟨0, p.body⟩) : k.acknowledged = true := by
  have hpktId : ¬ (k.varHdrPayload 0 = 0 ∧ k.varHdrPayload 1 = 0) := by
    rintro ⟨h0, h1⟩
    rcases hp.pktId with hne | hne
    · exact h.byte_ne_zero hne h0
    · exact h.byte_ne_zero hne h1
  have hlen : k.length = p.body.length := h.length
  have htype := hp.type
  have hresult := hp.result
  rw [← h.pktType] at htype hresult
  rw [Received.acknowledged, if_neg hpktId]
  simp only [List.mem_cons, List.not_mem_nil, or_false] at htype
  rcases htype with ht | ht | ht | ht | ht | ht
  all_goals rw [ht]
  simp [hlen, hresult ht]

/-- What `data_cb` is passed of a part. -/
def Received.fragments (k : Received) : List (List (BitVec 8) × Bool) :=
  k.data.toList.map fun d => (bytes d.rxBuffer d.start d.len, d.last)

theorem Packet.IsAck.parts {p : Packet} (hp : p.IsAck) : p.parts = [⟨0, p.body⟩] := by
  have hfits := hp.fits
  rw [p.parts_eq, List.take_of_length_le hfits, List.drop_of_length_le hfits, pieces_nil]

theorem Packet.part_length {p : Packet} {q : Piece (BitVec 8)} (hq : q ∈ p.parts) :
    q.data.length ≤ p.room := by
  rw [p.parts_eq] at hq
  rcases List.mem_cons.mp hq with rfl | hq
  · rw [List.length_take]
    exact Nat.min_le_left _ _
  · exact (mem_pieces hq).2.1

/-- **Every part of a packet is taken**, and the fragments make up what the packet brings. -/
theorem Packet.Brings.fragments {p : Packet} {payloads : List (List (BitVec 8))}
    (hp : p.Brings payloads) : ∃ fragments : Piece (BitVec 8) → List (List (BitVec 8) × Bool),
      (∀ (k : Received) (q : Piece (BitVec 8)), k.Shows p q → q ∈ p.parts →
        k.message = .other true ∧ k.fragments = fragments q) ∧
      assemble [] (p.parts.flatMap fragments) = (payloads, []) := by
  cases hp with
  | publish p => exact ⟨p.fragments, fun k q h hq => p.publish_part h hq, p.assemble_fragments⟩
  | pingresp hping =>
    refine ⟨fun _ => [], fun k q h hq => ?_,
      by rw [List.flatMap_eq_nil_iff.mpr fun _ _ => rfl, assemble]⟩
    have htype := h.pktType.trans hping
    obtain ⟨hmsg, hdata⟩ := Received.message_other (h.fits (part_length hq))
      (by rw [htype]; decide) (.inl htype)
    exact ⟨hmsg, by rw [Received.fragments, hdata]; rfl⟩
  | ack hack =>
    refine ⟨fun _ => [], fun k q h hq => ?_,
      by rw [List.flatMap_eq_nil_iff.mpr fun _ _ => rfl, assemble]⟩
    have hlen := part_length hq
    rw [hack.parts, List.mem_singleton] at hq
    subst hq
    have htype := hack.type
    rw [← h.pktType] at htype
    obtain ⟨hmsg, hdata⟩ := Received.message_other (h.fits hlen)
      (fun hpub => by rw [hpub] at htype; revert htype; decide) (.inr (hack.acknowledged h))
    exact ⟨hmsg, by rw [Received.fragments, hdata]; rfl⟩

/-- The calls for the parts of a packet. -/
theorem packet_received {p : Packet} {fragments : Piece (BitVec 8) → List (List (BitVec 8) × Bool)}
    (h : ∀ (k : Received) (q : Piece (BitVec 8)), k.Shows p q → q ∈ p.parts →
      k.message = .other true ∧ k.fragments = fragments q)
    {qs : List (Piece (BitVec 8))} (hqs : ∀ q ∈ qs, q ∈ p.parts) {ks : List Received}
    (hks : List.Forall₂ (fun k q => k.Shows p q) ks qs) :
    ks.flatMap Received.fragments = qs.flatMap fragments := by
  induction hks with
  | nil => rfl
  | @cons k q ks qs hk hks ih =>
    obtain ⟨hq, hqs⟩ := List.forall_mem_cons.mp hqs
    rw [List.flatMap_cons, List.flatMap_cons, (h k q hk hq).2, ih hqs]

/-- The calls for all parts of packets. -/
theorem assemble_received {ps : List Packet} {payloads : List (List (List (BitVec 8)))}
    (h : List.Forall₂ Packet.Brings ps payloads) {ks : List Received}
    (hks : List.Forall₂ Received.ShowsPart ks (partsOf ps)) :
    assemble [] (ks.flatMap Received.fragments) = (payloads.flatten, []) := by
  induction h generalizing ks with
  | nil =>
    cases hks
    rfl
  | @cons p payloads ps pss hp hps ih =>
    obtain ⟨fragments, hparts, hwhole⟩ := hp.fragments
    rw [partsOf, List.flatMap_cons, ← partsOf] at hks
    have hfirst := List.forall₂_take_append _ _ _ hks
    have hrest := List.forall₂_drop_append _ _ _ hks
    rw [List.forall₂_map_right_iff] at hfirst
    have hfrag := packet_received hparts (fun q hq => hq) hfirst
    rw [← List.take_append_drop (p.parts.map fun q => (p, q)).length ks, List.flatMap_append, hfrag,
      assemble_append, hwhole, ih hrest, List.flatten_cons]

/-- A part of one of the packets is taken. -/
theorem part_taken {ps : List Packet} {payloads : List (List (List (BitVec 8)))}
    (h : List.Forall₂ Packet.Brings ps payloads) {k : Received} {x : Packet × Piece (BitVec 8)}
    (hx : x ∈ partsOf ps) (hk : k.ShowsPart x) : k.message = .other true := by
  induction h with
  | nil => cases hx
  | @cons p payloads ps pss hp hps ih =>
    rw [partsOf, List.flatMap_cons, ← partsOf] at hx
    rcases List.mem_append.mp hx with hx | hx
    · obtain ⟨q, hq, rfl⟩ := List.mem_map.mp hx
      obtain ⟨fragments, hparts, -⟩ := hp.fragments
      exact (hparts k q hk hq).1
    · exact ih hx

theorem parts_taken {ps : List Packet} {payloads : List (List (List (BitVec 8)))}
    (h : List.Forall₂ Packet.Brings ps payloads) {ks : List Received}
    {done : List (Packet × Piece (BitVec 8))} (hks : List.Forall₂ Received.ShowsPart ks done)
    (hdone : ∀ x ∈ done, x ∈ partsOf ps) : ∀ k ∈ ks, k.message = .other true := by
  induction hks with
  | nil => exact List.forall_mem_nil _
  | cons hk hks ih =>
    obtain ⟨hx, hrest⟩ := List.forall_mem_cons.mp hdone
    exact List.forall_mem_cons.mpr ⟨part_taken h hx hk, ih hrest⟩

/-! ## Segments for a client that is connected -/

/-- The call of `data_cb` for a part. -/
def Received.calls (k : Received) : List DataCall :=
  k.data.toList.map fun d => { d with installed := true }

/-- What a call of `data_cb` is passed. -/
def DataCall.fragment (d : DataCall) : List (BitVec 8) × Bool :=
  (bytes d.rxBuffer d.start d.len, d.last)

theorem Received.map_calls (k : Received) : k.calls.map DataCall.fragment = k.fragments := by
  rw [calls, List.map_map]
  rfl

theorem received_taken {c : Nat} {k : Received} {w : Net} (hw : Accepted w c)
    (hk : k.message = .other true) :
    mqttMessageReceivedBytes c k w = (k.calls, some (.accepted, w)) := by
  obtain ⟨cl, hcl, -, hin⟩ := hw
  rw [mqttMessageReceivedBytes, Received.calls, hk, hcl]
  cases k.data with
  | none => rfl
  | some d => simp [hin, mqttMessageReceived]

section Segments

variable (shiftOut : BitVec 32 → Nat → BitVec 32)

/-- A segment of messages that are taken. -/
theorem parse_taken (found : Nat → Bool) {c : Nat} (rounds : Nat) (s : Scan) {w : Net}
    (hw : Accepted w c) :
    let r := mqttParseIncomingBytes shiftOut found c rounds s w
    (∀ k ∈ r.received, k.message = .other true) → r.running = false →
      r.data = r.received.flatMap Received.calls ∧ ∃ rx, r.result = some (.accepted, rx, w) := by
  revert hw
  apply mqttParseIncomingBytes_rule shiftOut found (c := c) (motive := fun _ _ w r =>
    Accepted w c → (∀ k ∈ r.received, k.message = .other true) → r.running = false →
      r.data = r.received.flatMap Received.calls ∧ ∃ rx, r.result = some (.accepted, rx, w))
  case done =>
    intro n s w _ _ _ _
    exact ⟨rfl, _, rfl⟩
  case running =>
    intro s w _ _ _ hrun
    cases hrun
  case skip =>
    intro n s t w _ _ ih
    exact ih
  case undefined =>
    intro n s t w k data _ _ hk hw hmsgs _
    rw [received_taken hw (hmsgs k (List.mem_singleton_self k))] at hk
    cases hk
  case stop =>
    intro n s t w k data res w' _ _ hk hstop hw hmsgs _
    rw [received_taken hw (hmsgs k (List.mem_singleton_self k))] at hk
    cases hk
    exact absurd rfl hstop.2
  case next =>
    intro n s t w k data res w' _ _ hk _ r ih hw hmsgs hrun
    obtain ⟨hmsg, hrest⟩ := List.forall_mem_cons.mp hmsgs
    rw [received_taken hw hmsg] at hk
    cases hk
    obtain ⟨hdata, hres⟩ := ih hw hrest hrun
    exact ⟨by rw [List.flatMap_cons, ← hdata], hres⟩

theorem parse_ends (found : Nat → Bool) (c rounds : Nat) (s : Scan) (w : Net)
    {x : ConnStatus × RxState × Net} :
    let r := mqttParseIncomingBytes shiftOut found c rounds s w
    r.result = some x → r.running = false := by
  apply mqttParseIncomingBytes_rule shiftOut found (c := c)
    (motive := fun _ _ _ r => r.result = some x → r.running = false)
  case done =>
    intro n s w _ _
    rfl
  case running =>
    intro s w _ hres
    cases hres
  case skip =>
    intro n s t w _ _ ih
    exact ih
  case undefined =>
    intro n s t w k data _ _ _ _
    rfl
  case stop =>
    intro n s t w k data res w' _ _ _ _ _
    rfl
  case next =>
    intro n s t w k data res w' _ _ _ _ r ih
    exact ih

theorem parseSegments_taken {c : Nat} (gs : List Arrival) (rx : RxState)
    (hnets : ∀ g ∈ gs, Accepted g.net c) :
    let r := parseSegments shiftOut c rx gs
    (∀ k ∈ r.received, k.message = .other true) → r.running = false →
      r.data = r.received.flatMap Received.calls ∧ ∃ rx', r.rx = some rx' := by
  induction gs generalizing rx with
  | nil => exact fun _ _ => ⟨rfl, rx, rfl⟩
  | cons g gs ih =>
    obtain ⟨hg, hgs⟩ := List.forall_mem_cons.mp hnets
    have hparse := parse_taken shiftOut g.found g.rounds { rx := rx, rest := g.bytes } hg
    unfold parseSegments
    dsimp only at hparse ih ⊢
    split
    · rename_i rx₁ w₁ hres
      intro hmsgs hrun
      obtain ⟨hfirst, hrest⟩ := List.forall_mem_append.mp hmsgs
      obtain ⟨hdata₁, -⟩ := hparse hfirst (parse_ends shiftOut g.found c g.rounds _ g.net hres)
      obtain ⟨hdata, hrx⟩ := ih rx₁ hgs hrest hrun
      exact ⟨by rw [hdata₁, hdata, List.flatMap_append], hrx⟩
    · rename_i hres
      intro hmsgs hrun
      obtain ⟨-, rx₁, hres₁⟩ := hparse hmsgs hrun
      exact absurd hres₁ (hres rx₁ g.net)

/-- **Payloads of a connection.** However the packets for a connected client are cut into
segments, the connection is kept, and `data_cb` is passed their payloads in order, byte for byte,
with the flag where one ends. -/
theorem payloads_delivered {c : Nat} {ps : List Packet} {payloads : List (List (List (BitVec 8)))}
    (hps : List.Forall₂ Packet.Brings ps payloads) (gs : List Arrival) (rx : RxState)
    (hrx : rx.msgIdx = 0) (hcut : gs.flatMap Arrival.bytes = bytesOf ps)
    (hrounds : ∀ g ∈ gs, g.bytes.length + 5 ≤ g.rounds) (hnets : ∀ g ∈ gs, Accepted g.net c) :
    let r := parseSegments shiftOut c rx gs
    (∃ rx', r.rx = some rx' ∧ rx'.msgIdx = 0) ∧ (∀ d ∈ r.data, d.installed = true) ∧
      assemble [] (r.data.map DataCall.fragment) = (payloads.flatten, []) := by
  obtain ⟨hrun, done, left, hparts, hdone, hidle⟩ :=
    segments_received shiftOut c ps gs rx hrx hcut hrounds
  have htaken := parseSegments_taken shiftOut gs rx hnets
  dsimp only at hrun hdone hidle htaken ⊢
  generalize parseSegments shiftOut c rx gs = r at hrun hdone hidle htaken ⊢
  have hmsgs : ∀ k ∈ r.received, k.message = .other true :=
    parts_taken hps hdone fun x hx => hparts ▸ List.mem_append_left left hx
  obtain ⟨hdata, rx', hrx'⟩ := htaken hmsgs hrun
  obtain ⟨rfl, hzero⟩ := hidle rx' hrx'
  rw [List.append_nil] at hparts
  rw [← hparts] at hdone
  refine ⟨⟨rx', hrx', hzero⟩, fun d hd => ?_, ?_⟩
  · rw [hdata] at hd
    obtain ⟨k, -, hd⟩ := List.mem_flatMap.mp hd
    obtain ⟨d', -, rfl⟩ := List.mem_map.mp hd
    rfl
  · rw [hdata, List.map_flatMap]
    simp only [Received.map_calls]
    exact assemble_received hps hdone

end Segments

theorem brings_postAndPing : List.Forall₂ Packet.Brings postAndPing [[[0x62]], []] :=
  .cons (.publish ⟨⟨0x30, [0x04], [0x00, 0x01, 0x61, 0x62], rfl, by decide, rfl⟩, [0x61], [], [0x62],
    rfl, by decide, rfl, rfl, by decide⟩) (.cons (.pingresp rfl) .nil)

theorem payloads_delivered_three :
    let r := parseSegments (fun x n => x <<< n) 0 {} threeSegments
    (∃ rx', r.rx = some rx' ∧ rx'.msgIdx = 0) ∧ (∀ d ∈ r.data, d.installed = true) ∧
      assemble [] (r.data.map DataCall.fragment) = ([[[0x62]], []].flatten, []) := by
  have hcut : threeSegments.flatMap Arrival.bytes = bytesOf postAndPing := rfl
  have hnets : ∀ g ∈ threeSegments, Accepted g.net 0 := by
    intro g hg
    obtain ⟨bytes, -, rfl⟩ := List.mem_map.mp hg
    exact ⟨{ connState := .mqttConnected, inpub := true }, rfl, rfl, rfl⟩
  exact payloads_delivered (fun x n => x <<< n) brings_postAndPing threeSegments {} rfl hcut
    (by simp [threeSegments]) hnets

end MqttDevice.Lwip
