import MqttDevice.Lib.Ascii
import MqttDevice.Lib.Ring

/-!
# The output ring of the MQTT client (`mqtt.c`)

* `contents_append`: bytes that are put into the ring follow its contents;
* `checkSpace_iff`: a message is let in if and only if its bytes fit;
* `mqttPublish_accepted`: what a publish then adds is `publishPacket`.
-/

namespace MqttDevice.Lwip

open MqttDevice.Ascii MqttDevice.Ring

def mqttOutputRingbufSize : Nat := 1024

/-- `mqtt_ringbuf_t`; both positions stay inside of `buf`. -/
structure MqttRingbuf where
  put : BitVec 16
  get : BitVec 16
  buf : Nat → Byte
  put_lt : put.toNat < mqttOutputRingbufSize
  get_lt : get.toNat < mqttOutputRingbufSize

namespace MqttRingbuf

/-! ## The program -/

/-- The position after `p`. -/
def next (p : BitVec 16) : BitVec 16 :=
  if mqttOutputRingbufSize ≤ (p + 1).toNat then 0 else p + 1

theorem next_lt (p : BitVec 16) : (next p).toNat < mqttOutputRingbufSize := by
  unfold next
  split
  · decide
  · omega

/-- `mqtt_ringbuf_put` -/
def putByte (rb : MqttRingbuf) (item : Byte) : MqttRingbuf where
  put := next rb.put
  get := rb.get
  buf := Function.update rb.buf rb.put.toNat item
  put_lt := next_lt rb.put
  get_lt := rb.get_lt

/-- `mqtt_ringbuf_len` -/
def len (rb : MqttRingbuf) : BitVec 16 :=
  let len : BitVec 32 := rb.put.setWidth 32 - rb.get.setWidth 32
  if 0xFFFF < len then (len + BitVec.ofNat 32 mqttOutputRingbufSize).setWidth 16
  else len.setWidth 16

/-- `mqtt_ringbuf_free` -/
def free (rb : MqttRingbuf) : Int := mqttOutputRingbufSize - rb.len.toNat

/-- `mqtt_output_append_buf` -/
def append (rb : MqttRingbuf) (data : List Byte) : MqttRingbuf := data.foldl putByte rb

end MqttRingbuf

/-- The loops over a remaining length end. -/
theorem toNat_shiftRight_lt {rLength : BitVec 16} (h : ¬ rLength >>> 7 = 0) :
    (rLength >>> 7).toNat < rLength.toNat := by
  have hne : rLength.toNat ≠ 0 := by
    intro hz
    have hzero : rLength = 0 := BitVec.eq_of_toNat_eq hz
    simp [hzero] at h
  simp only [BitVec.toNat_ushiftRight, Nat.shiftRight_eq_div_pow]
  omega

/-- The bytes of the remaining-length field. -/
def remainingLength (rLength : BitVec 16) : List Byte :=
  ((rLength &&& 0x7F) ||| if rLength ≥ 128 then 0x80 else 0).setWidth 8 ::
    if rLength >>> 7 = 0 then [] else remainingLength (rLength >>> 7)
termination_by rLength.toNat
decreasing_by exact toNat_shiftRight_lt ‹_›

/-- The loop of `mqtt_output_check_space`. -/
def countLength (totalLen rLength : BitVec 16) : BitVec 16 :=
  if rLength >>> 7 = 0 then totalLen + 1 else countLength (totalLen + 1) (rLength >>> 7)
termination_by rLength.toNat
decreasing_by exact toNat_shiftRight_lt ‹_›

/-- `mqtt_output_check_space` -/
def mqttOutputCheckSpace (rb : MqttRingbuf) (rLength : BitVec 16) : Bool :=
  (countLength (1 + rLength) rLength).toNat ≤ rb.free

/-- `mqtt_output_append_u16` -/
def mqttOutputAppendU16 (rb : MqttRingbuf) (value : BitVec 16) : MqttRingbuf :=
  (rb.putByte ((value >>> 8).setWidth 8)).putByte ((value &&& 0xFF).setWidth 8)

/-- `mqtt_output_append_string` -/
def mqttOutputAppendString (rb : MqttRingbuf) (str : List Byte) : MqttRingbuf :=
  let length := BitVec.ofNat 16 str.length
  ((rb.putByte ((length >>> 8).setWidth 8)).putByte ((length &&& 0xFF).setWidth 8)).append str

/-- `mqtt_output_append_fixed_header` -/
def mqttOutputAppendFixedHeader (rb : MqttRingbuf) (msgType fdup fqos fretain : BitVec 8)
    (rLength : BitVec 16) : MqttRingbuf :=
  (rb.putByte (((msgType &&& 0x0F) <<< 4) ||| ((fdup &&& 1) <<< 3) ||| ((fqos &&& 3) <<< 1) |||
    (fretain &&& 1))).append (remainingLength rLength)

/-- The values of `err_t` that `mqtt_publish` returns. -/
inductive PublishErr
  | ok | conn | arg | mem
  deriving DecidableEq

def mqttMsgTypePublish : BitVec 8 := 3

/-- `mqtt_publish` up to `mqtt_output_send`, for a client that is connected or not, with a
free request item or none, and the packet identifier it generates. The payload is the
block of `payload_length` bytes that the pointer leads to. -/
def mqttPublish (connected request : Bool) (pktId : BitVec 16) (rb : MqttRingbuf)
    (topic : List Byte) (payload : Option (List Byte)) (payloadLength : BitVec 16)
    (qos retain : BitVec 8) : PublishErr × MqttRingbuf :=
  if !connected then (.conn, rb)
  else if 0xFFFF - 2 < topic.length then (.arg, rb)
  else
    let totalLen := 2 + topic.length + payloadLength.toNat + if 0 < qos then 2 else 0
    if 0xFFFF < totalLen then (.arg, rb)
    else
      let remaining := BitVec.ofNat 16 totalLen
      if !request then (.mem, rb)
      else if !mqttOutputCheckSpace rb remaining then (.mem, rb)
      else
        let rb := mqttOutputAppendFixedHeader rb mqttMsgTypePublish 0 qos retain remaining
        let rb := mqttOutputAppendString rb topic
        let rb := if 0 < qos then mqttOutputAppendU16 rb pktId else rb
        match payload with
        | some data => (.ok, if 0 < payloadLength then rb.append data else rb)
        | none => (.ok, rb)

/-! ## The ring -/

namespace MqttRingbuf

theorem next_toNat {p : BitVec 16} (h : p.toNat < mqttOutputRingbufSize) :
    (next p).toNat = (p.toNat + 1) % mqttOutputRingbufSize := by
  have hadd : (p + 1).toNat = p.toNat + 1 := by
    rw [BitVec.toNat_add]
    simp only [mqttOutputRingbufSize] at h
    exact Nat.mod_eq_of_lt (by simp; omega)
  unfold next
  rw [hadd]
  split
  · have heq : p.toNat + 1 = mqttOutputRingbufSize := by omega
    rw [heq, Nat.mod_self]
    rfl
  · rw [hadd, Nat.mod_eq_of_lt (by omega)]

theorem len_toNat (rb : MqttRingbuf) :
    rb.len.toNat = (rb.put.toNat + mqttOutputRingbufSize - rb.get.toNat) % mqttOutputRingbufSize := by
  have hp := rb.put_lt
  have hg := rb.get_lt
  simp only [mqttOutputRingbufSize] at hp hg
  have hsub : (rb.put.setWidth 32 - rb.get.setWidth 32 : BitVec 32).toNat =
      (2 ^ 32 - rb.get.toNat + rb.put.toNat) % 2 ^ 32 := by
    rw [BitVec.toNat_sub]
    simp only [BitVec.toNat_setWidth]
    omega
  rw [len]
  simp only [BitVec.lt_def, hsub, mqttOutputRingbufSize]
  split
  · rename_i h
    simp only [BitVec.toNat_setWidth, BitVec.toNat_add, hsub] at h ⊢
    simp at h ⊢
    omega
  · rename_i h
    simp only [BitVec.toNat_setWidth, hsub] at h ⊢
    simp at h ⊢
    omega

/-- The bytes in the ring. -/
def contents (rb : MqttRingbuf) : List Byte :=
  slice mqttOutputRingbufSize rb.buf rb.get.toNat rb.len.toNat

@[simp] theorem length_contents (rb : MqttRingbuf) : rb.contents.length = rb.len.toNat :=
  length_slice ..

theorem len_putByte (rb : MqttRingbuf) (item : Byte)
    (h : rb.len.toNat + 1 < mqttOutputRingbufSize) :
    (rb.putByte item).len.toNat = rb.len.toNat + 1 := by
  have hp := rb.put_lt
  have hg := rb.get_lt
  have hnext : (rb.putByte item).put.toNat = (rb.put.toNat + 1) % mqttOutputRingbufSize :=
    next_toNat rb.put_lt
  have hget : (rb.putByte item).get = rb.get := rfl
  rw [len_toNat] at h
  rw [len_toNat, len_toNat, hnext, hget]
  simp only [mqttOutputRingbufSize] at *
  omega

/-- A byte goes behind the contents. -/
theorem contents_putByte (rb : MqttRingbuf) (item : Byte)
    (h : rb.len.toNat + 1 < mqttOutputRingbufSize) :
    (rb.putByte item).contents = rb.contents ++ [item] := by
  have hp := rb.put_lt
  have hg := rb.get_lt
  have hlast : (rb.get.toNat + rb.len.toNat) % mqttOutputRingbufSize = rb.put.toNat := by
    rw [len_toNat]
    simp only [mqttOutputRingbufSize] at *
    omega
  rw [contents, len_putByte rb item h, slice_snoc]
  congr 1
  · refine slice_congr fun j hj => Function.update_of_ne ?_ ..
    rw [← hlast]
    exact add_mod_ne (by omega) (by omega)
  · show [(rb.putByte item).buf ((rb.get.toNat + rb.len.toNat) % mqttOutputRingbufSize)] = [item]
    have hself : (rb.putByte item).buf rb.put.toNat = item := by simp [putByte]
    rw [hlast, hself]

theorem append_append (rb : MqttRingbuf) (xs ys : List Byte) :
    (rb.append xs).append ys = rb.append (xs ++ ys) := by
  rw [append, append, append, List.foldl_append]

/-- **Bytes that fit go behind the contents**, in their order. -/
theorem contents_append (rb : MqttRingbuf) (data : List Byte)
    (h : rb.len.toNat + data.length < mqttOutputRingbufSize) :
    (rb.append data).contents = rb.contents ++ data := by
  induction data generalizing rb with
  | nil => exact (List.append_nil _).symm
  | cons item data ih =>
    rw [List.length_cons] at h
    have hput := contents_putByte rb item (by omega)
    have hlen := len_putByte rb item (by omega)
    have hrest := ih (rb.putByte item) (by omega)
    rw [hput, List.append_assoc] at hrest
    exact hrest

theorem len_append (rb : MqttRingbuf) (data : List Byte)
    (h : rb.len.toNat + data.length < mqttOutputRingbufSize) :
    (rb.append data).len.toNat = rb.len.toNat + data.length := by
  rw [← length_contents, contents_append rb data h, List.length_append, length_contents]

end MqttRingbuf

/-! ## Messages -/

/-- The loop of `mqtt_output_check_space` counts the bytes of the field. -/
theorem countLength_eq (totalLen rLength : BitVec 16) :
    countLength totalLen rLength = totalLen + BitVec.ofNat 16 (remainingLength rLength).length := by
  induction totalLen, rLength using countLength.induct with
  | case1 totalLen rLength hz =>
    rw [countLength, remainingLength, if_pos hz, if_pos hz]
    rfl
  | case2 totalLen rLength hz ih =>
    rw [countLength, remainingLength, if_neg hz, if_neg hz, ih, List.length_cons, Nat.add_comm,
      BitVec.ofNat_add, BitVec.add_assoc]
    rfl

/-- Seven bits go into each byte. -/
theorem length_remainingLength_le {k : Nat} {rLength : BitVec 16}
    (h : rLength.toNat < 128 ^ (k + 1)) : (remainingLength rLength).length ≤ k + 1 := by
  induction k generalizing rLength with
  | zero =>
    have hz : rLength >>> 7 = 0 := by
      apply BitVec.eq_of_toNat_eq
      simp only [BitVec.toNat_ushiftRight, Nat.shiftRight_eq_div_pow]
      exact Nat.div_eq_of_lt (by simpa using h)
    rw [remainingLength, if_pos hz]
    exact Nat.le_refl 1
  | succ k ih =>
    rw [remainingLength, List.length_cons]
    split
    · exact Nat.succ_le_succ (Nat.zero_le _)
    · refine Nat.succ_le_succ (ih ?_)
      simp only [BitVec.toNat_ushiftRight, Nat.shiftRight_eq_div_pow]
      exact Nat.div_lt_of_lt_mul (by rw [pow_succ] at h; omega)

/-- **A message is let in if and only if it fits.** -/
theorem checkSpace_iff (rb : MqttRingbuf) {rLength : BitVec 16} (h : rLength.toNat < 128 ^ 2) :
    mqttOutputCheckSpace rb rLength = true ↔
      rb.len.toNat + (1 + (remainingLength rLength).length + rLength.toNat) ≤
        mqttOutputRingbufSize := by
  have hlen := length_remainingLength_le (k := 1) h
  have htotal : (countLength (1 + rLength) rLength).toNat =
      1 + (remainingLength rLength).length + rLength.toNat := by
    have hone : (1 : BitVec 16).toNat = 1 := rfl
    rw [countLength_eq, BitVec.toNat_add, BitVec.toNat_add, BitVec.toNat_ofNat, hone]
    omega
  rw [mqttOutputCheckSpace, decide_eq_true_iff, htotal, MqttRingbuf.free]
  omega

/-- The bytes of a string with its length in front. -/
def stringBytes (s : List Byte) : List Byte :=
  let length := BitVec.ofNat 16 s.length
  [(length >>> 8).setWidth 8, (length &&& 0xFF).setWidth 8] ++ s

/-- The length of what follows the fixed header of a PUBLISH with QoS 0. -/
def publishRemaining (topic payload : List Byte) : Nat := 2 + topic.length + payload.length

/-- A PUBLISH with QoS 0. -/
def publishPacket (retain : BitVec 8) (topic payload : List Byte) : List Byte :=
  (((mqttMsgTypePublish &&& 0x0F) <<< 4) ||| (retain &&& 1)) ::
    remainingLength (BitVec.ofNat 16 (publishRemaining topic payload)) ++
    stringBytes topic ++ payload

theorem length_publishPacket (retain : BitVec 8) (topic payload : List Byte) :
    (publishPacket retain topic payload).length =
      1 + (remainingLength (BitVec.ofNat 16 (publishRemaining topic payload))).length +
        publishRemaining topic payload := by
  simp only [publishPacket, stringBytes, publishRemaining, List.length_append, List.length_cons,
    List.length_nil]
  omega

theorem appendString_eq (rb : MqttRingbuf) (s : List Byte) :
    mqttOutputAppendString rb s = rb.append (stringBytes s) := rfl

/-- The fixed header of a PUBLISH with QoS 0. -/
theorem appendFixedHeader_eq (rb : MqttRingbuf) (retain : BitVec 8) (rLength : BitVec 16) :
    mqttOutputAppendFixedHeader rb mqttMsgTypePublish 0 0 retain rLength =
      rb.append ((((mqttMsgTypePublish &&& 0x0F) <<< 4) ||| (retain &&& 1)) ::
        remainingLength rLength) := rfl

/-- **What a publish with QoS 0 puts into the ring** when the message fits. -/
theorem mqttPublish_accepted (pktId : BitVec 16) (rb : MqttRingbuf) (retain : BitVec 8)
    {topic payload : List Byte} (hlen : publishRemaining topic payload < 128 ^ 2)
    (hspace : mqttOutputCheckSpace rb (BitVec.ofNat 16 (publishRemaining topic payload)) = true) :
    mqttPublish true true pktId rb topic (some payload) (BitVec.ofNat 16 payload.length) 0 retain =
      (.ok, rb.append (publishPacket retain topic payload)) := by
  have hremaining : publishRemaining topic payload = 2 + topic.length + payload.length := rfl
  have hpayload : (BitVec.ofNat 16 payload.length).toNat = payload.length := by
    rw [BitVec.toNat_ofNat]
    exact Nat.mod_eq_of_lt (by omega)
  have htopic : ¬ 0xFFFF - 2 < topic.length := by omega
  have htotal : ¬ 0xFFFF < publishRemaining topic payload := by omega
  have hqos : ¬ (0 : BitVec 8) < 0 := by decide
  simp only [mqttPublish, htopic, hpayload, if_false, hqos, Nat.add_zero, ← hremaining, htotal,
    hspace, Bool.not_true, Bool.false_eq_true]
  simp only [appendFixedHeader_eq, appendString_eq, MqttRingbuf.append_append]
  split
  · rw [publishPacket]
  · rename_i hzero
    have hnil : payload = [] := by
      apply List.length_eq_zero_iff.mp
      rw [← hpayload]
      simpa [BitVec.lt_def] using hzero
    rw [publishPacket, hnil, List.append_nil]

end MqttDevice.Lwip
