import MqttDevice.Lwip.MqttPublish
import MqttDevice.Lwip.MqttSend

/-!
# Sent messages as packets

What the client writes into its output ring has the format that `mqtt_parse_incoming` reads.

* `sentPacket`: a message with the remaining length that it states is a packet;
* `sent_packets`: the server gets whole packets, the CONNECT first, and at any time the
  beginning of their bytes;
* `publish_read_back`: messages that are published, carried by TCP in segments of any size and
  sent on to a client, come to its `data_cb` as the payloads that were published.
-/

namespace MqttDevice.Lwip

open MqttDevice.Ascii MqttDevice.Runs MqttDevice.Fifo
open MqttDevice.DataCallback (Accepted)

/-! ## The remaining-length field -/

/-- The seven low bits of a byte of the field. -/
theorem fieldByte_low (r c : BitVec 16) (hc : c = 0 ∨ c = 0x80) :
    (((r &&& 0x7F) ||| c).setWidth 8 &&& 0x7f : BitVec 8) = r.setWidth 8 &&& 0x7f := by
  rcases hc with rfl | rfl
  · ext i hi
    interval_cases i <;> simp
  · ext i hi
    interval_cases i <;> simp

/-- The top bit says that another byte follows. -/
theorem fieldByte_high (r c : BitVec 16) (hc : c = 0 ∨ c = 0x80) :
    (((r &&& 0x7F) ||| c).setWidth 8 &&& 0x80 : BitVec 8) = c.setWidth 8 := by
  rcases hc with rfl | rfl
  · ext i hi
    interval_cases i <;> simp
  · ext i hi
    interval_cases i <;> simp

theorem shiftRight_eq_zero_iff (r : BitVec 16) : r >>> 7 = 0 ↔ ¬ r ≥ 128 := by
  rw [← BitVec.toNat_inj, BitVec.toNat_ushiftRight, Nat.shiftRight_eq_div_pow, ge_iff_le,
    BitVec.le_def]
  simp

theorem remainingLength_ne_nil (r : BitVec 16) : remainingLength r ≠ [] := by
  rw [remainingLength]
  exact List.cons_ne_nil _ _

/-- **The field is well formed.** -/
theorem lengthField_remainingLength (r : BitVec 16) : LengthField (remainingLength r) := by
  induction r using remainingLength.induct with
  | case1 r ih =>
    rw [remainingLength]
    by_cases hlast : r >>> 7 = 0
    · rw [if_pos hlast, if_neg ((shiftRight_eq_zero_iff r).mp hlast)]
      exact fieldByte_high r 0 (.inl rfl)
    · have hmore : r ≥ 128 := not_not.mp (mt (shiftRight_eq_zero_iff r).mpr hlast)
      rw [if_neg hlast, if_pos hmore]
      obtain ⟨b, bs, hrest⟩ := List.exists_cons_of_ne_nil (remainingLength_ne_nil (r >>> 7))
      have hwf := ih hlast
      rw [hrest] at hwf ⊢
      refine ⟨?_, hwf⟩
      rw [fieldByte_high r 0x80 (.inr rfl)]
      decide

/-- **The field is read back.** -/
theorem fieldValue_remainingLength (r : BitVec 16) : fieldValue (remainingLength r) = r.toNat := by
  induction r using remainingLength.induct with
  | case1 r ih =>
    have hlow : (((r &&& 0x7F) ||| if r ≥ 128 then 0x80 else 0).setWidth 8 &&& 0x7f : BitVec 8).toNat =
        r.toNat % 128 := by
      rw [fieldByte_low r _ (by split <;> simp), BitVec.toNat_and, BitVec.toNat_setWidth,
        show (0x7f : BitVec 8).toNat = 2 ^ 7 - 1 from rfl, Nat.and_two_pow_sub_one_eq_mod]
      omega
    have hshift : (r >>> 7).toNat = r.toNat / 128 := by
      rw [BitVec.toNat_ushiftRight, Nat.shiftRight_eq_div_pow]
    rw [remainingLength, fieldValue, hlow]
    by_cases hlast : r >>> 7 = 0
    · rw [if_pos hlast, fieldValue]
      rw [hlast, show (0 : BitVec 16).toNat = 0 from rfl] at hshift
      omega
    · rw [if_neg hlast, ih hlast, hshift]
      omega

/-! ## Messages as packets -/

/-- A message with the remaining length that it states. -/
def sentPacket (first : Byte) (body : List Byte) (h : body.length < 2 ^ 16) : Packet where
  first := first
  field := remainingLength (BitVec.ofNat 16 body.length)
  body := body
  wellFormed := lengthField_remainingLength _
  short := le_trans (length_remainingLength_le (k := 2) (by
    rw [BitVec.toNat_ofNat]
    exact lt_of_le_of_lt (Nat.mod_le _ _) (by omega))) (by decide)
  value := by
    rw [fieldValue_remainingLength, BitVec.toNat_ofNat, Nat.mod_eq_of_lt h]

/-- The control byte. -/
def controlByte (msgType : SentType) (qos retain : BitVec 8) : Byte :=
  ((msgType.code &&& 0x0F) <<< 4) ||| (((0 : BitVec 8) &&& 1) <<< 3) ||| ((qos &&& 3) <<< 1) |||
    (retain &&& 1)

theorem bytes_sentPacket (msgType : SentType) (qos retain : BitVec 8) {body : List Byte} {n : Nat}
    (hn : body.length = n) (h : body.length < 2 ^ 16) :
    messageBytes msgType qos retain (BitVec.ofNat 16 n) body =
      (sentPacket (controlByte msgType qos retain) body h).bytes := by
  subst hn
  rfl

theorem length_publishHeader (qos : BitVec 8) (pktId : BitVec 16) (topic : List Byte) :
    (publishHeader qos pktId topic).length = 2 + topic.length + if 0 < qos then 2 else 0 := by
  unfold publishHeader
  split
  · simp only [stringBytes, u16Bytes, List.length_append, List.length_cons, List.length_nil]
  · simp only [stringBytes, List.length_append, List.length_cons, List.length_nil]

theorem length_publishBody (qos : BitVec 8) (pktId : BitVec 16) (topic : List Byte)
    {payload : PayloadArg} (h : payload.Honest) :
    (publishHeader qos pktId topic ++ payload.data).length =
      publishLength qos topic payload.length := by
  rw [List.length_append, length_publishHeader, h, publishLength]
  omega

theorem length_subUnsubBody (pktId : BitVec 16) (topic : List Byte) (qos : BitVec 8) (sub : Bool) :
    (subUnsubBody pktId topic qos sub).length = topic.length + 2 + 2 + if sub then 1 else 0 := by
  cases sub <;> simp [subUnsubBody, stringBytes, u16Bytes]

/-- The checks of `mqtt_publish`. -/
theorem publishLength_le {connected request : Bool} {pktId : BitVec 16} {rb : MqttRingbuf}
    {topic : List Byte} {payload : PayloadArg} {qos retain : BitVec 8}
    (h : (mqttPublish connected request pktId rb topic payload.pointer payload.length qos retain).1 =
      .ok) : publishLength qos topic payload.length ≤ 0xFFFF := by
  by_contra hlong
  have hlt : 0xFFFF < 2 + topic.length + payload.length.toNat + (if 0 < qos then 2 else 0) :=
    Nat.not_le.mp hlong
  unfold mqttPublish at h
  simp only [if_pos hlt] at h
  split at h
  · cases h
  · split at h <;> cases h

/-- The checks of `mqtt_sub_unsub`. -/
theorem subUnsubLength_le {connected request : Bool} {pktId : BitVec 16} {rb : MqttRingbuf}
    {topic : List Byte} {qos : BitVec 8} {sub : Bool}
    (h : (mqttSubUnsub connected request pktId rb topic qos sub).1 = .ok) :
    topic.length + 2 + 2 + (if sub then 1 else 0) ≤ 0xFFFF := by
  by_contra hlong
  have hlt := Nat.not_le.mp hlong
  unfold mqttSubUnsub at h
  simp only [if_pos hlt] at h
  split at h <;> cases h

/-- The payload of a message has the length that is stated. -/
def OutEvent.Honest : OutEvent → Prop
  | .publish _ _ _ payload _ _ _ => payload.Honest
  | _ => True

theorem finish_accepted {bytes : List Byte} {tcp : Option TcpSpace} {seq : BitVec 16}
    {r : PublishErr × MqttRingbuf} (h : (finish bytes tcp seq r).accepted ≠ []) :
    r.1 = .ok ∧ (finish bytes tcp seq r).accepted = bytes := by
  unfold finish at h ⊢
  split
  · rename_i hok
    refine ⟨hok, ?_⟩
    cases tcp <;> rfl
  · rename_i herr
    rw [if_neg herr] at h
    exact absurd rfl h

/-- **A message that is let in is a packet.** -/
theorem accepted_packet {s : Outbound} {e : OutEvent} (he : e.Honest)
    (h : (exec s e).accepted ≠ []) : ∃ p : Packet, (exec s e).accepted = p.bytes := by
  cases e with
  | publish connected request topic payload qos retain tcp =>
    obtain ⟨hok, hbytes⟩ := finish_accepted h
    have hle := publishLength_le hok
    have hlen (pktId : BitVec 16) := length_publishBody qos pktId topic he
    exact ⟨_, hbytes.trans (bytes_sentPacket _ _ _ (hlen _) (by rw [hlen]; omega))⟩
  | subUnsub connected request topic qos sub tcp =>
    obtain ⟨hok, hbytes⟩ := finish_accepted h
    have hle := subUnsubLength_le hok
    have hlen (pktId : BitVec 16) := length_subUnsubBody pktId topic qos sub
    exact ⟨_, hbytes.trans (bytes_sentPacket _ _ _ (hlen _) (by rw [hlen]; omega))⟩
  | response msg pktId qos tcp =>
    obtain ⟨-, hbytes⟩ := finish_accepted h
    have hlen : (u16Bytes pktId).length = 2 := rfl
    exact ⟨_, hbytes.trans (bytes_sentPacket msg qos 0 hlen (by rw [hlen]; decide))⟩
  | pingreq =>
    obtain ⟨-, hbytes⟩ := finish_accepted h
    have hlen : ([] : List Byte).length = 0 := rfl
    exact ⟨_, hbytes.trans (bytes_sentPacket .pingreq 0 0 hlen (by rw [hlen]; decide))⟩
  | output tcp => exact absurd rfl h

/-! ## The CONNECT message -/

/-- `struct mqtt_connect_client_info_t` -/
structure ConnectInfo where
  clientId : List Byte
  clientUser : Option (List Byte) := none
  clientPass : Option (List Byte) := none
  keepAlive : BitVec 16
  willTopic : Option (List Byte) := none
  willMsg : Option (List Byte) := none
  willQos : BitVec 8 := 0
  willRetain : BitVec 8 := 0

/-- The errors of `mqtt_client_connect` for its message. -/
inductive ConnectErr
  | val | mem
  deriving DecidableEq

namespace ConnectInfo

variable (info : ConnectInfo)

/-- The will, when both of its strings are given. -/
def will : Option (List Byte × List Byte) :=
  match info.willTopic, info.willMsg with
  | some topic, some msg => some (topic, msg)
  | _, _ => none

/-- The remaining length with the will, if its strings pass the checks. -/
def willLength (remaining : Nat) : Option Nat :=
  match info.will with
  | none => some remaining
  | some (topic, msg) =>
    if 0xFF < topic.length then none
    else if topic.length = 0 then none
    else if 0xFF < msg.length then none
    else if 0xFFFF < remaining + 2 + topic.length + 2 + msg.length then none
    else some (remaining + 2 + topic.length + 2 + msg.length)

/-- The remaining length with the user or the password. -/
def credentialLength (s : Option (List Byte)) (remaining : Nat) : Option Nat :=
  match s with
  | none => some remaining
  | some s =>
    if 0xFFFF < s.length then none
    else if s.length = 0 then none
    else if 0xFFFF < remaining + 2 + s.length then none
    else some (remaining + 2 + s.length)

def remainingLength : Option Nat := do
  let n ← info.willLength (2 + 4 + 1 + 1 + 2)
  let n ← credentialLength info.clientUser n
  let n ← credentialLength info.clientPass n
  if 0xFFFF < info.clientId.length then none
  else if 0xFFFF < n + 2 + info.clientId.length then none
  else some (n + 2 + info.clientId.length)

def flags : BitVec 8 :=
  (match info.will with
    | none => 0
    | some _ => 0x04 ||| ((info.willQos &&& 3) <<< 3) |||
      if info.willRetain ≠ 0 then 0x20 else 0) |||
    (if info.clientUser.isSome then 0x80 else 0) |||
    (if info.clientPass.isSome then 0x40 else 0) ||| 0x02

end ConnectInfo

/-- A string that is appended if there is one. -/
def appendOptional (rb : MqttRingbuf) (s : Option (List Byte)) : MqttRingbuf :=
  match s with
  | none => rb
  | some s => mqttOutputAppendString rb s

/-- The message of `mqtt_client_connect`, when TCP is there to connect. -/
def mqttConnectMessage (info : ConnectInfo) : Except ConnectErr MqttRingbuf :=
  match info.remainingLength with
  | none => .error .val
  | some n =>
    let remaining := BitVec.ofNat 16 n
    if !mqttOutputCheckSpace .wiped remaining then .error .mem
    else
      let rb := mqttOutputAppendFixedHeader .wiped SentType.connect.code 0 0 0 remaining
      let rb := mqttOutputAppendString rb (str "MQTT")
      let rb := rb.putByte 4
      let rb := rb.putByte info.flags
      let rb := mqttOutputAppendU16 rb info.keepAlive
      let rb := mqttOutputAppendString rb info.clientId
      let rb := appendOptional rb (info.will.map Prod.fst)
      let rb := appendOptional rb (info.will.map Prod.snd)
      let rb := appendOptional rb info.clientUser
      .ok (appendOptional rb info.clientPass)

/-- The bytes of a string that may be missing. -/
def optionalBytes (s : Option (List Byte)) : List Byte := (s.map stringBytes).getD []

def connectBody (info : ConnectInfo) : List Byte :=
  stringBytes (str "MQTT") ++ [4] ++ [info.flags] ++ u16Bytes info.keepAlive ++
    stringBytes info.clientId ++ optionalBytes (info.will.map Prod.fst) ++
    optionalBytes (info.will.map Prod.snd) ++ optionalBytes info.clientUser ++
    optionalBytes info.clientPass

theorem putByte_eq (rb : MqttRingbuf) (item : Byte) : rb.putByte item = rb.append [item] := rfl

theorem appendOptional_eq (rb : MqttRingbuf) (s : Option (List Byte)) :
    appendOptional rb s = rb.append (optionalBytes s) := by
  cases s <;> rfl

theorem length_stringBytes (s : List Byte) : (stringBytes s).length = 2 + s.length := by
  rw [stringBytes, List.length_append]
  rfl

theorem length_optionalBytes (s : Option (List Byte)) :
    (optionalBytes s).length = (s.map fun s => 2 + s.length).getD 0 := by
  cases s with
  | none => rfl
  | some s => exact length_stringBytes s

theorem ConnectInfo.willLength_some {info : ConnectInfo} {n m : Nat}
    (h : info.willLength n = some m) :
    m = n + (optionalBytes (info.will.map Prod.fst)).length +
      (optionalBytes (info.will.map Prod.snd)).length := by
  rw [length_optionalBytes, length_optionalBytes]
  unfold willLength at h
  split at h
  · rename_i hnone
    cases h
    rw [hnone]
    rfl
  · rename_i topic msg hsome
    obtain ⟨-, h⟩ := Option.ite_none_left_eq_some.mp h
    obtain ⟨-, h⟩ := Option.ite_none_left_eq_some.mp h
    obtain ⟨-, h⟩ := Option.ite_none_left_eq_some.mp h
    obtain ⟨-, h⟩ := Option.ite_none_left_eq_some.mp h
    cases h
    rw [hsome]
    simp only [Option.map_some, Option.getD_some]
    omega

theorem ConnectInfo.credentialLength_some {s : Option (List Byte)} {n m : Nat}
    (h : credentialLength s n = some m) : m = n + (optionalBytes s).length := by
  rw [length_optionalBytes]
  cases s with
  | none =>
    cases h
    rfl
  | some s =>
    obtain ⟨-, h⟩ := Option.ite_none_left_eq_some.mp h
    obtain ⟨-, h⟩ := Option.ite_none_left_eq_some.mp h
    obtain ⟨-, h⟩ := Option.ite_none_left_eq_some.mp h
    cases h
    simp only [Option.map_some, Option.getD_some]
    omega

/-- The remaining length is that of the body. -/
theorem length_connectBody {info : ConnectInfo} {n : Nat} (h : info.remainingLength = some n) :
    (connectBody info).length = n ∧ n ≤ 0xFFFF := by
  obtain ⟨n₁, hwill, h⟩ := Option.bind_eq_some_iff.mp h
  obtain ⟨n₂, huser, h⟩ := Option.bind_eq_some_iff.mp h
  obtain ⟨n₃, hpass, h⟩ := Option.bind_eq_some_iff.mp h
  obtain ⟨-, h⟩ := Option.ite_none_left_eq_some.mp h
  obtain ⟨hle, h⟩ := Option.ite_none_left_eq_some.mp h
  have hwill' := ConnectInfo.willLength_some hwill
  have huser' := ConnectInfo.credentialLength_some huser
  have hpass' := ConnectInfo.credentialLength_some hpass
  have hname : (stringBytes (str "MQTT")).length = 6 := by decide
  have hid := length_stringBytes info.clientId
  have hkeep : (u16Bytes info.keepAlive).length = 2 := rfl
  cases h
  simp only [connectBody, List.length_append, hname, hid, hkeep, List.length_singleton]
  omega

/-- **The CONNECT message.** -/
theorem mqttConnectMessage_ok {info : ConnectInfo} {rb : MqttRingbuf}
    (h : mqttConnectMessage info = .ok rb) :
    (connectBody info).length ≤ 0xFFFF ∧
      rb = MqttRingbuf.wiped.append (messageBytes .connect 0 0
        (BitVec.ofNat 16 (connectBody info).length) (connectBody info)) := by
  unfold mqttConnectMessage at h
  split at h
  · cases h
  · rename_i n hn
    obtain ⟨hlen, hle⟩ := length_connectBody hn
    dsimp only at h
    split at h
    · cases h
    · cases h
      refine ⟨hlen ▸ hle, ?_⟩
      rw [hlen, ← append_message]
      generalize mqttOutputAppendFixedHeader _ _ _ _ _ _ = header
      simp only [appendOptional_eq, appendString_eq, appendU16_eq, putByte_eq,
        MqttRingbuf.append_append, connectBody]

/-! ## The stream of a connection -/

/-- The message that an event puts into the ring, if it puts one. -/
def acceptedMessages (s : Outbound) (e : OutEvent) (_ : Outbound) : List (List Byte) :=
  if (exec s e).accepted = [] then [] else [(exec s e).accepted]

theorem acceptedBytes_eq (s : Outbound) (e : OutEvent) (t : Outbound) :
    acceptedBytes s e t = (acceptedMessages s e t).flatten := by
  unfold acceptedBytes acceptedMessages
  split
  · rename_i hnil
    rw [hnil, List.flatten_nil]
  · exact (List.append_nil _).symm

/-- Packets for the messages of a run. -/
theorem messages_packets {es : List OutEvent} (hes : ∀ e ∈ es, e.Honest) (s : Outbound) :
    ∃ ps : List Packet, trace outStep acceptedMessages s es = ps.map Packet.bytes := by
  have hall : ∀ m ∈ trace outStep acceptedMessages s es, ∃ p : Packet, m = p.bytes := by
    refine forall_trace fun e he s t m hm => ?_
    unfold acceptedMessages at hm
    split at hm
    · cases hm
    · rename_i hne
      rw [List.mem_singleton.mp hm]
      exact accepted_packet (hes e he) hne
  generalize trace outStep acceptedMessages s es = ms at hall ⊢
  induction ms with
  | nil => exact ⟨[], rfl⟩
  | cons m ms ih =>
    obtain ⟨⟨p, rfl⟩, hms⟩ := List.forall_mem_cons.mp hall
    obtain ⟨ps, rfl⟩ := ih hms
    exact ⟨p :: ps, rfl⟩

/-- **The server gets whole packets.** After the CONNECT message, when each message that is let in
leaves a byte of the ring free, the bytes that TCP has taken and those that are in the ring are
the CONNECT packet and a packet for each message, in order. -/
theorem sent_packets {info : ConnectInfo} {rb : MqttRingbuf} (hconnect : mqttConnectMessage info = .ok rb)
    (hsmall : (messageBytes .connect 0 0 (BitVec.ofNat 16 (connectBody info).length)
      (connectBody info)).length < mqttOutputRingbufSize)
    {u : Outbound} {es : List OutEvent} (hrun : run outStep ⟨rb, 0⟩ es = some u)
    (hfits : Along outStep Fits ⟨rb, 0⟩ es) (hhonest : ∀ e ∈ es, e.Honest) :
    ∃ (p : Packet) (ps : List Packet), p.first = controlByte .connect 0 0 ∧
      p.body = connectBody info ∧
      trace outStep acceptedMessages ⟨rb, 0⟩ es = ps.map Packet.bytes ∧
      trace outStep sentBytes ⟨rb, 0⟩ es ++ heldBytes u = bytesOf (p :: ps) := by
  obtain ⟨hle, hrb⟩ := mqttConnectMessage_ok hconnect
  obtain ⟨ps, hps⟩ := messages_packets hhonest ⟨rb, 0⟩
  have hlen : (connectBody info).length < 2 ^ 16 := by omega
  refine ⟨sentPacket (controlByte .connect 0 0) (connectBody info) hlen, ps, rfl, rfl, hps, ?_⟩
  have hheld : heldBytes ⟨rb, 0⟩ = (sentPacket (controlByte .connect 0 0) (connectBody info) hlen).bytes := by
    have hzero : MqttRingbuf.wiped.len.toNat = 0 := rfl
    rw [heldBytes, hrb, MqttRingbuf.contents_append _ _ (by rw [hzero, Nat.zero_add]; exact hsmall)]
    rfl
  rw [← (stream_conserved_iff hrun).mpr hfits, hheld, trace_flatten acceptedBytes_eq, hps, bytesOf,
    List.flatMap_cons, List.flatMap_def]

/-- `mqtt_client_info` -/
def mqttClientInfo : ConnectInfo := { clientId := str "STM32MQ_DEVICE", keepAlive := 10 }

/-- The ring with the CONNECT message of the device. -/
def connectRing : MqttRingbuf :=
  match mqttConnectMessage mqttClientInfo with
  | .ok rb => rb
  | .error _ => .wiped

theorem connectRing_ok : mqttConnectMessage mqttClientInfo = .ok connectRing := by
  have hok : (mqttConnectMessage mqttClientInfo).isOk = true := by decide +kernel
  unfold connectRing
  cases h : mqttConnectMessage mqttClientInfo with
  | ok rb => rfl
  | error err =>
    rw [h] at hok
    cases hok

/-- The connection is up, the server accepts it, and the device subscribes to its topic. -/
def subscribed : List OutEvent :=
  [.output ⟨1024, true, 0, true⟩,
    .subUnsub true true (str "DEV00001_DOWN") 0 true ⟨10, true, 0, true⟩]

/-- The state after these. -/
def afterSubscribe : Outbound :=
  subscribed.foldl (fun s e => (exec s e).next) ⟨connectRing, 0⟩

theorem fits_subscribed : Along outStep Fits ⟨connectRing, 0⟩ subscribed := by
  intro t ht
  cases ht
  refine ⟨by unfold Fits; decide +kernel, fun t ht => ?_⟩
  cases ht
  exact ⟨by unfold Fits; decide +kernel, trivial⟩

theorem sent_packets_device :
    ∃ (p : Packet) (ps : List Packet), p.first = controlByte .connect 0 0 ∧
      p.body = connectBody mqttClientInfo ∧
      trace outStep acceptedMessages ⟨connectRing, 0⟩ subscribed = ps.map Packet.bytes ∧
      trace outStep sentBytes ⟨connectRing, 0⟩ subscribed ++ heldBytes afterSubscribe =
        bytesOf (p :: ps) :=
  sent_packets connectRing_ok (by decide +kernel) rfl fits_subscribed (by
    intro e he
    simp only [subscribed, List.mem_cons, List.not_mem_nil, or_false] at he
    rcases he with rfl | rfl <;> trivial)

/-! ## Published messages are read back -/

theorem controlByte_type (qos retain : BitVec 8) :
    mqttCtlPacketType (controlByte .publish qos retain) = .publish := by
  have hnibble : controlByte .publish qos retain &&& 0xf0 = 0x30 := by
    ext i hi
    interval_cases i <;> simp [controlByte, SentType.code]
  rw [mqttCtlPacketType, hnibble]
  rfl

theorem controlByte_qos (qos retain : BitVec 8) :
    mqttCtlPacketQos (controlByte .publish qos retain) = (qos &&& 3).toNat := by
  have hbits : (controlByte .publish qos retain &&& 0x6) >>> 1 = qos &&& 3 := by
    ext i hi
    interval_cases i <;> simp [controlByte, SentType.code]
  rw [mqttCtlPacketQos, hbits]

/-- A QoS that the interface allows. -/
theorem controlByte_qos_ne_zero_iff {qos : BitVec 8} (h : qos.toNat ≤ 2) (retain : BitVec 8) :
    mqttCtlPacketQos (controlByte .publish qos retain) ≠ 0 ↔ 0 < qos := by
  rw [controlByte_qos, BitVec.toNat_and, show (3 : BitVec 8).toNat = 2 ^ 2 - 1 from rfl,
    Nat.and_two_pow_sub_one_eq_mod, BitVec.lt_def, show (0 : BitVec 8).toNat = 0 from rfl]
  omega

theorem stringBytes_eq {topic : List Byte} (h : topic.length < 65536) :
    stringBytes topic = be16 topic.length ++ topic := by
  have hhigh : ((BitVec.ofNat 16 topic.length >>> 8).setWidth 8 : BitVec 8) =
      BitVec.ofNat 8 (topic.length / 256) := by
    apply BitVec.eq_of_toNat_eq
    simp only [BitVec.toNat_setWidth, BitVec.toNat_ushiftRight, BitVec.toNat_ofNat,
      Nat.shiftRight_eq_div_pow]
    omega
  have hlow : ((BitVec.ofNat 16 topic.length &&& 0xFF).setWidth 8 : BitVec 8) =
      BitVec.ofNat 8 topic.length := by
    apply BitVec.eq_of_toNat_eq
    simp only [BitVec.toNat_setWidth, BitVec.toNat_and, BitVec.toNat_ofNat,
      show (0xFF : BitVec 16).toNat = 2 ^ 8 - 1 from rfl, Nat.and_two_pow_sub_one_eq_mod]
    omega
  rw [stringBytes, hhigh, hlow, be16]

/-- **A PUBLISH that fits in the ring** brings its payload. -/
theorem publish_brings {qos retain : BitVec 8} {pktId : BitVec 16} {topic : List Byte}
    {payload : PayloadArg} (hqos : qos.toNat ≤ 2) (hhonest : payload.Honest)
    (hsmall : (publishBytes qos retain pktId topic payload).length < mqttOutputRingbufSize) :
    ∃ p : Packet, publishBytes qos retain pktId topic payload = p.bytes ∧
      p.Brings [payload.data] := by
  have hlen := length_publishBody qos pktId topic hhonest
  have hheader := length_publishHeader qos pktId topic
  have htotal : (publishBytes qos retain pktId topic payload).length =
      1 + (remainingLength (BitVec.ofNat 16 (publishLength qos topic payload.length))).length +
        (publishHeader qos pktId topic ++ payload.data).length := by
    simp only [publishBytes, messageBytes, List.length_append, List.length_cons]
    omega
  have hbody : (publishHeader qos pktId topic ++ payload.data).length < 2 ^ 16 := by
    rw [htotal] at hsmall
    unfold mqttOutputRingbufSize at hsmall
    omega
  have hbytes := bytes_sentPacket .publish qos retain hlen hbody
  have htopic : topic.length < 65536 := by
    rw [List.length_append, hheader] at hbody
    omega
  have hid : mqttCtlPacketQos (controlByte .publish qos retain) ≠ 0 ↔ 0 < qos :=
    controlByte_qos_ne_zero_iff hqos retain
  refine ⟨_, hbytes, .publish ⟨sentPacket (controlByte .publish qos retain) _ hbody, topic,
    if 0 < qos then u16Bytes pktId else [], payload.data, controlByte_type qos retain, htopic,
    ?_, ?_, ?_⟩⟩
  · dsimp only [sentPacket]
    simp only [hid]
    split <;> rfl
  · dsimp only [sentPacket]
    rw [publishHeader, stringBytes_eq htopic]
  · rw [← hlen] at htotal
    rw [htotal] at hsmall
    dsimp only [sentPacket]
    generalize (remainingLength (BitVec.ofNat 16 _)).length = field at hsmall ⊢
    rw [List.length_append, hheader] at hsmall
    unfold mqttOutputRingbufSize at hsmall
    unfold mqttVarHeaderBufferLen
    simp only [hid]
    by_cases hq : 0 < qos
    · rw [if_pos hq] at hsmall ⊢
      omega
    · rw [if_neg hq] at hsmall ⊢
      omega

/-- Only messages are published, and TCP sends. -/
def OutEvent.Publishes : OutEvent → Prop
  | .publish _ _ _ payload qos _ _ => payload.Honest ∧ qos.toNat ≤ 2
  | .output _ => True
  | _ => False

/-- The payload that is let in. -/
def acceptedPayloads (s : Outbound) (e : OutEvent) (_ : Outbound) : List (List Byte) :=
  match e with
  | .publish _ _ _ payload _ _ _ => if (exec s e).accepted = [] then [] else [payload.data]
  | _ => []

/-- The packets of a run bring the payloads that are let in. -/
theorem publishes_bring {s u : Outbound} {es : List OutEvent} (hrun : run outStep s es = some u)
    (hfits : Along outStep Fits s es) (hes : ∀ e ∈ es, e.Publishes) :
    ∃ ps payloads, trace outStep acceptedBytes s es = bytesOf ps ∧
      List.Forall₂ Packet.Brings ps payloads ∧
      payloads.flatten = trace outStep acceptedPayloads s es := by
  induction es generalizing s with
  | nil => exact ⟨[], [], rfl, .nil, rfl⟩
  | cons e es ih =>
    obtain ⟨he, hrest⟩ := List.forall_mem_cons.mp hes
    obtain ⟨t, ht, hrun⟩ := run_cons hrun
    obtain ⟨hfit, hfits⟩ := hfits t ht
    obtain ⟨ps, payloads, hbytes, hbring, hflat⟩ := ih hrun hfits hrest
    rw [trace_cons ht, trace_cons ht, hbytes, ← hflat]
    by_cases hnone : (exec s e).accepted = []
    · refine ⟨ps, payloads, ?_, hbring, ?_⟩
      · rw [acceptedBytes, hnone, List.nil_append]
      · cases e <;> simp [acceptedPayloads, hnone]
    · cases e with
      | publish connected request topic payload qos retain tcp =>
        have hsmall := lt_of_le_of_lt (Nat.le_add_left _ _) hfit
        obtain ⟨pktId, haccepted⟩ : ∃ pktId, (exec s (.publish connected request topic payload qos
            retain tcp)).accepted = publishBytes qos retain pktId topic payload :=
          ⟨_, (finish_accepted hnone).2⟩
        rw [haccepted] at hsmall
        obtain ⟨p, hp, hbrings⟩ := publish_brings he.2 he.1 hsmall
        refine ⟨p :: ps, [payload.data] :: payloads, ?_, .cons hbrings hbring, ?_⟩
        · rw [acceptedBytes, haccepted, hp]
          rfl
        · rw [acceptedPayloads, if_neg hnone, List.flatten_cons]
      | output tcp => exact absurd rfl hnone
      | subUnsub => exact he.elim
      | response => exact he.elim
      | pingreq => exact he.elim

/-- **Published messages are read back.** When everything that was published, and let in with a
byte of the ring left free, has been sent, then a connected client to which these bytes come, in
segments of any size, passes the published payloads to its `data_cb`. -/
theorem publish_read_back (shiftOut : BitVec 32 → Nat → BitVec 32) {s u : Outbound}
    {es : List OutEvent} (hrun : run outStep s es = some u) (hs : heldBytes s = [])
    (hu : heldBytes u = []) (hfits : Along outStep Fits s es) (hes : ∀ e ∈ es, e.Publishes)
    {c : Nat} (gs : List Arrival) (rx : RxState) (hrx : rx.msgIdx = 0)
    (hcut : gs.flatMap Arrival.bytes = trace outStep sentBytes s es)
    (hrounds : ∀ g ∈ gs, g.bytes.length + 5 ≤ g.rounds) (hnets : ∀ g ∈ gs, Accepted g.net c) :
    let r := parseSegments shiftOut c rx gs
    (∃ rx', r.rx = some rx' ∧ rx'.msgIdx = 0) ∧
      assemble [] (r.data.map DataCall.fragment) =
        (trace outStep acceptedPayloads s es, []) := by
  obtain ⟨ps, payloads, hbytes, hbring, hflat⟩ := publishes_bring hrun hfits hes
  have hstream := (stream_conserved_iff hrun).mpr hfits
  rw [hs, hu, List.nil_append, List.append_nil, hbytes] at hstream
  obtain ⟨hkept, -, hdata⟩ := payloads_delivered shiftOut hbring gs rx hrx
    (hcut.trans hstream.symm) hrounds hnets
  exact ⟨hkept, hflat ▸ hdata⟩

theorem length_b : (str "b").length < 2 ^ 16 := by decide

/-- `b` is published for the topic `a`, and sent. -/
def publishB : List OutEvent :=
  [.publish true true (str "a") (.block (str "b") length_b) 0 0 ⟨0, true, 0, true⟩,
    .output ⟨1024, true, 0, true⟩]

/-- The state after these. -/
def afterPublish : Outbound := publishB.foldl (fun s e => (exec s e).next) ⟨.wiped, 0⟩

theorem fits_publishB : Along outStep Fits ⟨.wiped, 0⟩ publishB := by
  intro t ht
  cases ht
  refine ⟨by unfold Fits; decide +kernel, fun t ht => ?_⟩
  cases ht
  exact ⟨by unfold Fits; decide +kernel, trivial⟩

/-- Its bytes, cut behind the first one. -/
def arrivalsB : List Arrival :=
  [⟨[0x30], connected, fun _ => false, 6⟩,
    ⟨[0x04, 0x00, 0x01, 0x61, 0x62], connected, fun _ => false, 10⟩]

theorem publish_read_back_b :
    let r := parseSegments (fun x n => x <<< n) 0 {} arrivalsB
    (∃ rx', r.rx = some rx' ∧ rx'.msgIdx = 0) ∧
      assemble [] (r.data.map DataCall.fragment) =
        (trace outStep acceptedPayloads ⟨.wiped, 0⟩ publishB, []) := by
  have hu : heldBytes afterPublish = [] := by decide +kernel
  have hcut : arrivalsB.flatMap Arrival.bytes = trace outStep sentBytes ⟨.wiped, 0⟩ publishB := by
    decide +kernel
  have hes : ∀ e ∈ publishB, e.Publishes := by
    intro e he
    simp only [publishB, List.mem_cons, List.not_mem_nil, or_false] at he
    rcases he with rfl | rfl
    · exact ⟨rfl, Nat.zero_le 2⟩
    · trivial
  have hnets : ∀ g ∈ arrivalsB, Accepted g.net 0 := by
    intro g hg
    simp only [arrivalsB, List.mem_cons, List.not_mem_nil, or_false] at hg
    rcases hg with rfl | rfl <;> exact ⟨_, rfl, rfl, rfl⟩
  exact publish_read_back (fun x n => x <<< n) (u := afterPublish) rfl rfl hu fits_publishB hes
    arrivalsB {} rfl hcut (by simp [arrivalsB]) hnets

end MqttDevice.Lwip
