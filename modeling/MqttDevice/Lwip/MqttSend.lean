import MqttDevice.Lib.Fifo
import MqttDevice.Lwip.MqttOutput

/-!
# From the output ring to TCP (`mqtt_output_send` and its callers)

Messages are put into the ring as a whole or not at all, and leave it in pieces, as TCP has
space for them.

* `mqttOutputSend_conserves`: what is written to TCP is the front of the ring, whatever
  `altcp_sndbuf` and `altcp_write` return;
* `stream_conserved_iff`: along any run the server gets the accepted messages, in order and
  each once, if and only if none of them fills the ring to the last byte.
-/

namespace MqttDevice.Lwip

open MqttDevice.Ascii MqttDevice.Ring MqttDevice.Runs MqttDevice.Fifo

/-! ## The program -/

namespace MqttRingbuf

theorem zero_lt_size : (0 : BitVec 16).toNat < mqttOutputRingbufSize := by decide

/-- The ring of a client that is wiped clean. -/
def wiped : MqttRingbuf := ⟨0, 0, fun _ => 0, zero_lt_size, zero_lt_size⟩

/-- `mqtt_ringbuf_linear_read_length` -/
def linearReadLength (rb : MqttRingbuf) : Nat :=
  min rb.len.toNat (mqttOutputRingbufSize - rb.get.toNat)

/-- The position `len` bytes after `get`. -/
def advanced (get len : Nat) : Nat :=
  if mqttOutputRingbufSize ≤ get + len then get + len - mqttOutputRingbufSize else get + len

theorem advanced_eq {get len : Nat} (hget : get < mqttOutputRingbufSize)
    (hlen : len ≤ mqttOutputRingbufSize) : advanced get len = (get + len) % mqttOutputRingbufSize := by
  unfold advanced
  split
  · rename_i hwrap
    rw [Nat.mod_eq_sub_mod hwrap, Nat.mod_eq_of_lt (by omega)]
  · rename_i hsmall
    rw [Nat.mod_eq_of_lt (Nat.not_le.mp hsmall)]

theorem linearReadLength_le (rb : MqttRingbuf) : rb.linearReadLength ≤ mqttOutputRingbufSize :=
  le_trans (Nat.min_le_right _ _) (Nat.sub_le _ _)

theorem advanced_toNat {get len : Nat} (hget : get < mqttOutputRingbufSize)
    (hlen : len ≤ mqttOutputRingbufSize) :
    (BitVec.ofNat 16 (advanced get len)).toNat = (get + len) % mqttOutputRingbufSize := by
  rw [advanced_eq hget hlen, BitVec.toNat_ofNat]
  exact Nat.mod_eq_of_lt (lt_trans (Nat.mod_lt _ (by decide)) (by decide))

/-- `mqtt_ringbuf_advance_get_idx`, for no more than the linear part. -/
def advanceGetIdx (rb : MqttRingbuf) (len : Nat) (h : len ≤ rb.linearReadLength) : MqttRingbuf where
  put := rb.put
  get := BitVec.ofNat 16 (advanced rb.get.toNat len)
  buf := rb.buf
  put_lt := rb.put_lt
  get_lt := by
    rw [advanced_toNat rb.get_lt (h.trans rb.linearReadLength_le)]
    exact Nat.mod_lt _ (by decide)

/-- The bytes from `mqtt_ringbuf_get_ptr` on. -/
def read (rb : MqttRingbuf) (len : Nat) : List Byte :=
  (List.range len).map fun k => rb.buf (rb.get.toNat + k)

end MqttRingbuf

/-- What `mqtt_output_send` gets from TCP: the results of `altcp_sndbuf`, and whether
`altcp_write` takes the bytes. -/
structure TcpSpace where
  sndbuf : BitVec 16
  write : Bool
  sndbufWrapped : BitVec 16
  writeWrapped : Bool

/-- `mqtt_output_send`: the bytes that TCP takes, and the ring. -/
def mqttOutputSend (tcp : TcpSpace) (rb : MqttRingbuf) : List Byte × MqttRingbuf :=
  let sendLen := min tcp.sndbuf.toNat rb.linearReadLength
  if sendLen = 0 then ([], rb)
  else
    let wrap := rb.linearReadLength < tcp.sndbuf.toNat ∧ rb.linearReadLength < rb.len.toNat
    if tcp.write then
      let sent := rb.read sendLen
      let rb := rb.advanceGetIdx sendLen (Nat.min_le_right _ _)
      if wrap then
        let sendLen := min tcp.sndbufWrapped.toNat rb.linearReadLength
        if tcp.writeWrapped then
          (sent ++ rb.read sendLen, rb.advanceGetIdx sendLen (Nat.min_le_right _ _))
        else (sent, rb)
      else (sent, rb)
    else ([], rb)

/-- `msg_generate_packet_id` -/
def msgGeneratePacketId (pktIdSeq : BitVec 16) : BitVec 16 :=
  if pktIdSeq + 1 = 0 then pktIdSeq + 1 + 1 else pktIdSeq + 1

/-- `enum mqtt_message_type` of the messages that are sent. -/
inductive SentType where
  | connect
  | publish
  | puback
  | pubrec
  | pubrel
  | pubcomp
  | subscribe
  | unsubscribe
  | pingreq
  deriving DecidableEq

def SentType.code : SentType → BitVec 8
  | connect => 1
  | publish => 3
  | puback => 4
  | pubrec => 5
  | pubrel => 6
  | pubcomp => 7
  | subscribe => 8
  | unsubscribe => 10
  | pingreq => 12

/-- `mqtt_sub_unsub` up to `mqtt_output_send`. The packet identifier is generated when the client
is connected. -/
def mqttSubUnsub (connected request : Bool) (pktId : BitVec 16) (rb : MqttRingbuf)
    (topic : List Byte) (qos : BitVec 8) (sub : Bool) : PublishErr × MqttRingbuf :=
  if 0xFFFF - 2 < topic.length then (.arg, rb)
  else
    let totalLen := topic.length + 2 + 2 + if sub then 1 else 0
    if 0xFFFF < totalLen then (.arg, rb)
    else
      let remaining := BitVec.ofNat 16 totalLen
      if !connected then (.conn, rb)
      else if !request then (.mem, rb)
      else if !mqttOutputCheckSpace rb remaining then (.mem, rb)
      else
        let msgType := if sub then SentType.subscribe else .unsubscribe
        let rb := mqttOutputAppendFixedHeader rb msgType.code 0 1 0 remaining
        let rb := mqttOutputAppendU16 rb pktId
        let rb := mqttOutputAppendString rb topic
        (.ok, if sub then rb.putByte (if qos < 2 then qos else 2) else rb)

/-- `pub_ack_rec_rel_response` up to `mqtt_output_send`. -/
def pubAckRecRelResponse (rb : MqttRingbuf) (msg : SentType) (pktId : BitVec 16) (qos : BitVec 8) :
    PublishErr × MqttRingbuf :=
  if mqttOutputCheckSpace rb 2 then
    (.ok, mqttOutputAppendU16 (mqttOutputAppendFixedHeader rb msg.code 0 qos 0 2) pktId)
  else (.mem, rb)

/-- The keep-alive message of `mqtt_cyclic_timer`; it is sent with the next message. -/
def appendPingreq (rb : MqttRingbuf) : PublishErr × MqttRingbuf :=
  if mqttOutputCheckSpace rb 0 then
    (.ok, mqttOutputAppendFixedHeader rb SentType.pingreq.code 0 0 0 0)
  else (.mem, rb)

/-! ## Messages -/

/-- The bytes of a 16-bit number. -/
def u16Bytes (value : BitVec 16) : List Byte :=
  [(value >>> 8).setWidth 8, (value &&& 0xFF).setWidth 8]

/-- The bytes of a message with a remaining length. -/
def messageBytes (msgType : SentType) (qos retain : BitVec 8) (rLength : BitVec 16)
    (body : List Byte) : List Byte :=
  ((((msgType.code &&& 0x0F) <<< 4) ||| (((0 : BitVec 8) &&& 1) <<< 3) ||| ((qos &&& 3) <<< 1) |||
    (retain &&& 1)) :: remainingLength rLength) ++ body

/-- A payload: a pointer to a block of bytes, or the null pointer with a length. -/
inductive PayloadArg where
  | block (data : List Byte) (h : data.length < 2 ^ 16)
  | null (length : BitVec 16)

namespace PayloadArg

def pointer : PayloadArg → Option (List Byte)
  | block data _ => some data
  | null _ => none

def length : PayloadArg → BitVec 16
  | block data _ => BitVec.ofNat 16 data.length
  | null length => length

/-- The bytes behind the pointer. -/
def data : PayloadArg → List Byte
  | block data _ => data
  | null _ => []

/-- The length is that of the bytes. -/
def Honest (payload : PayloadArg) : Prop := payload.data.length = payload.length.toNat

end PayloadArg

/-- Topic and packet identifier of a PUBLISH. -/
def publishHeader (qos : BitVec 8) (pktId : BitVec 16) (topic : List Byte) : List Byte :=
  stringBytes topic ++ if 0 < qos then u16Bytes pktId else []

/-- The `total_len` of `mqtt_publish`. -/
def publishLength (qos : BitVec 8) (topic : List Byte) (payloadLength : BitVec 16) : Nat :=
  2 + topic.length + payloadLength.toNat + if 0 < qos then 2 else 0

def publishBytes (qos retain : BitVec 8) (pktId : BitVec 16) (topic : List Byte)
    (payload : PayloadArg) : List Byte :=
  messageBytes .publish qos retain (BitVec.ofNat 16 (publishLength qos topic payload.length))
    (publishHeader qos pktId topic ++ payload.data)

/-- The body of a SUBSCRIBE or an UNSUBSCRIBE. -/
def subUnsubBody (pktId : BitVec 16) (topic : List Byte) (qos : BitVec 8) (sub : Bool) : List Byte :=
  u16Bytes pktId ++ stringBytes topic ++ if sub then [if qos < 2 then qos else 2] else []

def subUnsubBytes (pktId : BitVec 16) (topic : List Byte) (qos : BitVec 8) (sub : Bool) :
    List Byte :=
  messageBytes (if sub then .subscribe else .unsubscribe) 1 0
    (BitVec.ofNat 16 (topic.length + 2 + 2 + if sub then 1 else 0))
    (subUnsubBody pktId topic qos sub)

/-- The result of a call, and the bytes that it puts into the ring. -/
def Appends (rb : MqttRingbuf) (bytes : List Byte) (r : PublishErr × MqttRingbuf) : Prop :=
  r.2 = if r.1 = .ok then rb.append bytes else rb

/-- A check that fails leaves the ring as it is. -/
theorem Appends.check {rb : MqttRingbuf} {bytes : List Byte} {err : PublishErr}
    {r : PublishErr × MqttRingbuf} {c : Prop} [Decidable c] (herr : err ≠ .ok)
    (h : ¬ c → Appends rb bytes r) : Appends rb bytes (if c then (err, rb) else r) := by
  by_cases hc : c
  · rw [if_pos hc, Appends, if_neg herr]
  · rw [if_neg hc]
    exact h hc

theorem appendFixedHeader_bytes (rb : MqttRingbuf) (msgType : SentType) (qos retain : BitVec 8)
    (rLength : BitVec 16) :
    mqttOutputAppendFixedHeader rb msgType.code 0 qos retain rLength =
      rb.append (messageBytes msgType qos retain rLength []) := by
  rw [messageBytes, List.append_nil]
  rfl

theorem append_message (rb : MqttRingbuf) (msgType : SentType) (qos retain : BitVec 8)
    (rLength : BitVec 16) (body : List Byte) :
    (mqttOutputAppendFixedHeader rb msgType.code 0 qos retain rLength).append body =
      rb.append (messageBytes msgType qos retain rLength body) := by
  rw [appendFixedHeader_bytes, MqttRingbuf.append_append, messageBytes, messageBytes,
    List.append_nil]

theorem appendU16_eq (rb : MqttRingbuf) (value : BitVec 16) :
    mqttOutputAppendU16 rb value = rb.append (u16Bytes value) := rfl

/-- **What a publish puts into the ring.** -/
theorem mqttPublish_appends (connected request : Bool) (pktId : BitVec 16) (rb : MqttRingbuf)
    (topic : List Byte) (payload : PayloadArg) (qos retain : BitVec 8) :
    Appends rb (publishBytes qos retain pktId topic payload)
      (mqttPublish connected request pktId rb topic payload.pointer payload.length qos retain) := by
  unfold mqttPublish
  dsimp only
  refine .check (by decide) fun _ => .check (by decide) fun _ => .check (by decide) fun _ =>
    .check (by decide) fun _ => .check (by decide) fun _ => ?_
  have hheader (rb : MqttRingbuf) :
      (if 0 < qos then mqttOutputAppendU16 (mqttOutputAppendString rb topic) pktId
        else mqttOutputAppendString rb topic) = rb.append (publishHeader qos pktId topic) := by
    unfold publishHeader
    split
    · rw [appendString_eq, appendU16_eq, MqttRingbuf.append_append]
    · rw [List.append_nil]
      rfl
  rw [hheader, show mqttMsgTypePublish = SentType.publish.code from rfl]
  cases payload with
  | block data h =>
    dsimp only [PayloadArg.pointer]
    rw [Appends, if_pos rfl, publishBytes, ← append_message, ← MqttRingbuf.append_append]
    split
    · rfl
    · rename_i hzero
      have hnil : data = [] := by
        apply List.length_eq_zero_iff.mp
        have hlen : (BitVec.ofNat 16 data.length).toNat = 0 := by
          simpa [BitVec.lt_def, PayloadArg.length] using hzero
        rwa [BitVec.toNat_ofNat, Nat.mod_eq_of_lt h] at hlen
      subst hnil
      rfl
  | null length =>
    dsimp only [PayloadArg.pointer]
    rw [Appends, if_pos rfl, publishBytes, ← append_message, ← MqttRingbuf.append_append]
    rfl

theorem mqttSubUnsub_appends (connected request : Bool) (pktId : BitVec 16) (rb : MqttRingbuf)
    (topic : List Byte) (qos : BitVec 8) (sub : Bool) :
    Appends rb (subUnsubBytes pktId topic qos sub)
      (mqttSubUnsub connected request pktId rb topic qos sub) := by
  unfold mqttSubUnsub
  dsimp only
  refine .check (by decide) fun _ => .check (by decide) fun _ => .check (by decide) fun _ =>
    .check (by decide) fun _ => .check (by decide) fun _ => ?_
  rw [Appends, if_pos rfl, subUnsubBytes, ← append_message, subUnsubBody]
  generalize mqttOutputAppendFixedHeader _ _ _ _ _ _ = header
  rw [appendString_eq, appendU16_eq, MqttRingbuf.append_append]
  cases sub with
  | true =>
    dsimp only
    rw [if_pos rfl, if_pos rfl, ← header.append_append (u16Bytes pktId ++ stringBytes topic)]
    rfl
  | false =>
    dsimp only
    rw [if_neg Bool.false_ne_true, if_neg Bool.false_ne_true]
    simp only [List.append_nil]

theorem pubAckRecRelResponse_appends (rb : MqttRingbuf) (msg : SentType) (pktId : BitVec 16)
    (qos : BitVec 8) :
    Appends rb (messageBytes msg qos 0 2 (u16Bytes pktId))
      (pubAckRecRelResponse rb msg pktId qos) := by
  unfold pubAckRecRelResponse Appends
  split
  · rw [appendU16_eq, append_message]
    rfl
  · rfl

theorem appendPingreq_appends (rb : MqttRingbuf) :
    Appends rb (messageBytes .pingreq 0 0 0 []) (appendPingreq rb) := by
  unfold appendPingreq Appends
  split
  · rw [appendFixedHeader_bytes]
    rfl
  · rfl

/-! ## The front of the ring -/

namespace MqttRingbuf

variable (rb : MqttRingbuf)

theorem advanceGetIdx_get (len : Nat) (h : len ≤ rb.linearReadLength) :
    (rb.advanceGetIdx len h).get.toNat = (rb.get.toNat + len) % mqttOutputRingbufSize :=
  advanced_toNat rb.get_lt (h.trans rb.linearReadLength_le)

theorem advanceGetIdx_len (len : Nat) (h : len ≤ rb.linearReadLength) :
    (rb.advanceGetIdx len h).len.toNat = rb.len.toNat - len := by
  have hget := rb.get_lt
  have hput := rb.put_lt
  have hle : len ≤ rb.len.toNat := le_trans h (Nat.min_le_left _ _)
  have hsame : (rb.advanceGetIdx len h).put = rb.put := rfl
  rw [len_toNat] at hle
  rw [len_toNat, len_toNat, advanceGetIdx_get, hsame]
  simp only [mqttOutputRingbufSize] at *
  omega

theorem read_eq (len : Nat) (h : len ≤ rb.linearReadLength) :
    rb.read len = slice mqttOutputRingbufSize rb.buf rb.get.toNat len := by
  have hget := rb.get_lt
  refine List.map_congr_left fun k hk => ?_
  have hlt := List.mem_range.mp hk
  rw [Nat.mod_eq_of_lt]
  simp only [linearReadLength] at h
  omega

/-- **The front of the ring** is what is read, and the rest stays. -/
theorem contents_advance (len : Nat) (h : len ≤ rb.linearReadLength) :
    rb.contents = rb.read len ++ (rb.advanceGetIdx len h).contents := by
  have hle : len ≤ rb.len.toNat := le_trans h (Nat.min_le_left _ _)
  have hbuf : (rb.advanceGetIdx len h).buf = rb.buf := rfl
  rw [contents, contents, rb.read_eq len h, hbuf, advanceGetIdx_get, advanceGetIdx_len, slice_mod,
    ← slice_add, Nat.add_sub_cancel' hle]

end MqttRingbuf

/-- **What TCP takes is the front of the ring.** -/
theorem mqttOutputSend_conserves (tcp : TcpSpace) (rb : MqttRingbuf) :
    rb.contents = (mqttOutputSend tcp rb).1 ++ (mqttOutputSend tcp rb).2.contents := by
  unfold mqttOutputSend
  dsimp only
  split
  · rfl
  · split
    · have hfirst := rb.contents_advance _ (Nat.min_le_right tcp.sndbuf.toNat rb.linearReadLength)
      split
      · split
        · rw [List.append_assoc, ← MqttRingbuf.contents_advance]
          exact hfirst
        · exact hfirst
      · exact hfirst
    · rfl

/-! ## Runs -/

/-- The ring and the generator of packet identifiers of a client. -/
structure Outbound where
  ring : MqttRingbuf
  pktIdSeq : BitVec 16

/-- A call that concerns the ring. `connected` says whether the client has a connection, `request`
whether `mqtt_create_request` has an item; `tcp` is what `mqtt_output_send` finds. -/
inductive OutEvent where
  | publish (connected request : Bool) (topic : List Byte) (payload : PayloadArg)
      (qos retain : BitVec 8) (tcp : TcpSpace)
  | subUnsub (connected request : Bool) (topic : List Byte) (qos : BitVec 8) (sub : Bool)
      (tcp : TcpSpace)
  /-- An answer to a PUBLISH, a PUBREC or a PUBREL. -/
  | response (msg : SentType) (pktId : BitVec 16) (qos : BitVec 8) (tcp : TcpSpace)
  | pingreq
  /-- The callbacks for data that was sent, for polling and for the connection. -/
  | output (tcp : TcpSpace)

/-- What an event puts into the ring, what TCP takes, and the state after it. -/
structure Outcome where
  accepted : List Byte := []
  sent : List Byte := []
  next : Outbound

/-- The message of a call, and `mqtt_output_send` when it was let in. -/
def finish (bytes : List Byte) (tcp : Option TcpSpace) (pktIdSeq : BitVec 16)
    (r : PublishErr × MqttRingbuf) : Outcome :=
  if r.1 = .ok then
    match tcp with
    | some tcp => ⟨bytes, (mqttOutputSend tcp r.2).1, (mqttOutputSend tcp r.2).2, pktIdSeq⟩
    | none => ⟨bytes, [], r.2, pktIdSeq⟩
  else { next := ⟨r.2, pktIdSeq⟩ }

def exec (s : Outbound) : OutEvent → Outcome
  | .publish connected request topic payload qos retain tcp =>
    let seq :=
      if connected ∧ topic.length ≤ 0xFFFF - 2 ∧ 0 < qos then msgGeneratePacketId s.pktIdSeq
      else s.pktIdSeq
    let pktId := if 0 < qos then seq else 0
    finish (publishBytes qos retain pktId topic payload) (some tcp) seq
      (mqttPublish connected request pktId s.ring topic payload.pointer payload.length qos retain)
  | .subUnsub connected request topic qos sub tcp =>
    let seq :=
      if topic.length + 4 + (if sub then 1 else 0) ≤ 0xFFFF ∧ connected then
        msgGeneratePacketId s.pktIdSeq
      else s.pktIdSeq
    finish (subUnsubBytes seq topic qos sub) (some tcp) seq
      (mqttSubUnsub connected request seq s.ring topic qos sub)
  | .response msg pktId qos tcp =>
    finish (messageBytes msg qos 0 2 (u16Bytes pktId)) (some tcp) s.pktIdSeq
      (pubAckRecRelResponse s.ring msg pktId qos)
  | .pingreq => finish (messageBytes .pingreq 0 0 0 []) none s.pktIdSeq (appendPingreq s.ring)
  | .output tcp =>
    { sent := (mqttOutputSend tcp s.ring).1
      next := ⟨(mqttOutputSend tcp s.ring).2, s.pktIdSeq⟩ }

def outStep (s : Outbound) (e : OutEvent) : Option Outbound := some (exec s e).next

/-- What is in the ring. -/
def heldBytes (s : Outbound) : List Byte := s.ring.contents

/-- The bytes of the messages that are let in. -/
def acceptedBytes (s : Outbound) (e : OutEvent) (_ : Outbound) : List Byte := (exec s e).accepted

/-- The bytes that TCP takes. -/
def sentBytes (s : Outbound) (e : OutEvent) (_ : Outbound) : List Byte := (exec s e).sent

/-- A message that is let in leaves a byte of the ring free. -/
def Fits (s : Outbound) (e : OutEvent) (_ : Outbound) : Prop :=
  s.ring.len.toNat + (exec s e).accepted.length < mqttOutputRingbufSize

theorem finish_ring {rb : MqttRingbuf} {bytes : List Byte} {r : PublishErr × MqttRingbuf}
    (h : Appends rb bytes r) (tcp : Option TcpSpace) (seq : BitVec 16) :
    (rb.append (finish bytes tcp seq r).accepted).contents =
      (finish bytes tcp seq r).sent ++ (finish bytes tcp seq r).next.ring.contents := by
  unfold finish
  unfold Appends at h
  split
  · rename_i hok
    rw [if_pos hok] at h
    cases tcp with
    | some tcp => exact h ▸ mqttOutputSend_conserves tcp r.2
    | none => exact congrArg MqttRingbuf.contents h.symm
  · rename_i herr
    rw [if_neg herr] at h
    rw [h]
    rfl

/-- **One event**: what the ring has with the message is what TCP takes, and the ring after it. -/
theorem exec_ring (s : Outbound) (e : OutEvent) :
    (s.ring.append (exec s e).accepted).contents =
      (exec s e).sent ++ (exec s e).next.ring.contents := by
  cases e with
  | publish connected request topic payload qos retain tcp =>
    exact finish_ring (mqttPublish_appends ..) _ _
  | subUnsub connected request topic qos sub tcp =>
    exact finish_ring (mqttSubUnsub_appends ..) _ _
  | response msg pktId qos tcp => exact finish_ring (pubAckRecRelResponse_appends ..) _ _
  | pingreq => exact finish_ring (appendPingreq_appends ..) _ _
  | output tcp => exact mqttOutputSend_conserves tcp s.ring

theorem MqttRingbuf.len_lt (rb : MqttRingbuf) : rb.len.toNat < mqttOutputRingbufSize := by
  rw [len_toNat]
  exact Nat.mod_lt _ (by decide)

/-- **One event conserves** the stream if and only if its message leaves a byte free. -/
theorem conserves_iff {s t : Outbound} {e : OutEvent} (h : outStep s e = some t) :
    Conserves heldBytes acceptedBytes sentBytes s e t ↔ Fits s e t := by
  cases h
  have hring := exec_ring s e
  unfold Conserves heldBytes acceptedBytes sentBytes
  rw [← hring]
  constructor
  · intro heq
    have hlen := congrArg List.length heq
    have hlt := (s.ring.append (exec s e).accepted).len_lt
    rw [List.length_append, MqttRingbuf.length_contents, MqttRingbuf.length_contents] at hlen
    unfold Fits
    omega
  · intro hfits
    exact (s.ring.contents_append _ hfits).symm

/-- **The stream to the server.** Along any run, the bytes in the ring, followed by the messages
that are let in, are the bytes that TCP takes, followed by those in the ring at the end, if and
only if every message that is let in leaves a byte of the ring free. -/
theorem stream_conserved_iff {s u : Outbound} {es : List OutEvent} (h : run outStep s es = some u) :
    heldBytes s ++ trace outStep acceptedBytes s es =
        trace outStep sentBytes s es ++ heldBytes u ↔ Along outStep Fits s es := by
  have hlen {s t : Outbound} {e : OutEvent} (h : outStep s e = some t) :
      (sentBytes s e t ++ heldBytes t).length = (s.ring.append (exec s e).accepted).len.toNat := by
    cases h
    rw [sentBytes, heldBytes, ← exec_ring, MqttRingbuf.length_contents]
  have hin (s : Outbound) (e : OutEvent) (t : Outbound) :
      (heldBytes s ++ acceptedBytes s e t).length =
        s.ring.len.toNat + (exec s e).accepted.length := by
    rw [List.length_append, heldBytes, MqttRingbuf.length_contents, acceptedBytes]
  rw [run_conserves_iff ?_ ?_ h]
  · refine along_iff (I := fun _ => True) (fun _ _ _ _ _ _ => trivial) ?_ es trivial
    intro s e t _ ht
    exact conserves_iff ht
  · intro s e t ht
    rw [hlen ht, hin]
    by_cases hfits : Fits s e t
    · exact (s.ring.len_append _ hfits).le
    · have hlt := (s.ring.append (exec s e).accepted).len_lt
      unfold Fits at hfits
      omega
  · intro s e t ht heq
    rw [hlen ht, hin] at heq
    have hlt := (s.ring.append (exec s e).accepted).len_lt
    rw [heq] at hlt
    exact (conserves_iff ht).mpr hlt

/-- A PINGREQ, of which TCP takes one byte. -/
def pingOnce : List OutEvent := [.pingreq, .output ⟨1, true, 0, true⟩]

theorem stream_conserved_ping :
    heldBytes ⟨.wiped, 0⟩ ++ trace outStep acceptedBytes ⟨.wiped, 0⟩ pingOnce =
        trace outStep sentBytes ⟨.wiped, 0⟩ pingOnce ++
          heldBytes (pingOnce.foldl (fun s e => (exec s e).next) ⟨.wiped, 0⟩) ↔
      Along outStep Fits ⟨.wiped, 0⟩ pingOnce :=
  stream_conserved_iff rfl

end MqttDevice.Lwip
