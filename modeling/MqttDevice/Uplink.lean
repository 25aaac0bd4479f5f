import MqttDevice.Telemetry
import MqttDevice.Lwip.MqttOutput

/-!
# The uplink and the output ring (`mqtt_publish_data` in `mqtt_client.c`)

* `length_numberLines_le`: how long the lines of an object of numbers get;
* `length_uavText_le`: no telemetry text is longer than 473 bytes;
* `telemetry_fits`: two telemetry messages of any values fit the ring.
-/

namespace MqttDevice.Telemetry

open MqttDevice.Ascii MqttDevice.Binary64 MqttDevice.CJson MqttDevice.Command MqttDevice.Lwip

/-! ## The program -/

/-- `DEVECE_ID` -/
def deveceId : List Byte := str "DEV00001"

/-- `pub_topic` of `mqtt_publish_data`. -/
def pubTopic : List Byte := deveceId ++ str "_UP"

/-- `strlen` -/
def strlen (s : List Byte) : Nat := (cString s).length

/-- `mqtt_publish_data`: QoS 0, not retained. -/
def mqttPublishData (connected request : Bool) (rb : MqttRingbuf) (pubPayload : List Byte) :
    PublishErr × MqttRingbuf :=
  mqttPublish connected request 0 rb pubTopic (some (cString pubPayload))
    (BitVec.ofNat 16 (strlen pubPayload)) 0 0

/-! ## How long a text gets -/

/-- The length of the lines for numbers of these names and widths. -/
def linesLength (depth : Nat) : List (List Byte) → List Nat → Nat
  | name :: names, w :: ws =>
    depth + (printStringPtr (some name)).length + w + 4 + linesLength depth names ws
  | _, _ => 0

theorem length_numberLine_le (depth : Nat) (name : List Byte) (number : Double) (last : Bool) :
    (numberLine depth name number last).length ≤
      depth + (printStringPtr (some name)).length + (numberText number).length + 4 := by
  have hsep : (str ":\t").length = 2 := by decide
  simp only [numberLine, tabs, List.length_append, List.length_replicate, hsep,
    List.length_singleton]
  split
  · simp only [List.length_nil]
    omega
  · simp only [List.length_singleton]
    omega

theorem length_numberLines_le (depth : Nat) {numbers : List (List Byte × Double)} {ws : List Nat}
    (h : List.Forall₂ (fun m w => (numberText m.2).length ≤ w) numbers ws) :
    (numberLines depth numbers).length ≤ linesLength depth (numbers.map Prod.fst) ws := by
  induction h with
  | nil => exact Nat.le_refl 0
  | @cons m w rest ws hm hrest ih =>
    have hline := length_numberLine_le depth m.1 m.2 rest.isEmpty
    rw [numberLines, List.length_append, List.map_cons, linesLength]
    omega

/-- The digits of an integer, and its sign. -/
theorem length_literal_le {n : Int} {k : Nat} (h : n.natAbs < 10 ^ (k + 1)) :
    (literal n).length ≤ k + 1 + if n < 0 then 1 else 0 := by
  have hdigits := decimal_length_le h
  unfold literal
  split
  · exact Nat.succ_le_succ hdigits
  · exact hdigits

theorem numberText_ofInt {n : Int} (h : |n| < 10 ^ 15) : numberText (ofInt n) = literal n := by
  rw [ofInt, ofRat_intCast (by omega), numberText_intCast h]

/-- A number that is not negative, by its digits. -/
theorem length_nonneg_le {n : Int} {w : Nat} (hw : 1 ≤ w ∧ w ≤ 15) (h0 : 0 ≤ n)
    (h : n < (10 ^ w : Nat)) : (numberText (ofInt n)).length ≤ w := by
  obtain ⟨k, rfl⟩ : ∃ k, w = k + 1 := ⟨w - 1, by omega⟩
  have hpow : 10 ^ (k + 1) ≤ 10 ^ 15 := Nat.pow_le_pow_right (by decide) hw.2
  have habs : |n| < 10 ^ 15 := by
    rw [abs_of_nonneg h0]
    exact lt_of_lt_of_le h (by exact_mod_cast hpow)
  have hlen := length_literal_le (n := n) (k := k) (by omega)
  rw [if_neg (by omega)] at hlen
  rw [numberText_ofInt habs]
  exact hlen

/-- An `int32_t`: ten digits and a sign. -/
theorem length_toInt_le (v : BitVec 32) : (numberText (ofInt v.toInt)).length ≤ 11 := by
  have hlt := BitVec.toInt_lt (x := v)
  have hle := BitVec.le_toInt (x := v)
  norm_num at hlt hle
  have hlen := length_literal_le (n := v.toInt) (k := 9) (by norm_num; omega)
  rw [numberText_ofInt (abs_toInt_lt v)]
  split at hlen <;> omega

def headWidths : List Nat := [1, 4, 5, 25]

def dataWidths : List Nat := [2, 10, 9, 3, 3, 3, 4, 2, 2, 3, 10, 11, 11, 11]

theorem headNumbers_widths (s : Statics) :
    List.Forall₂ (fun m w => (numberText m.2).length ≤ w) (headNumbers s) headWidths := by
  have hno := s.msgNum.isLt
  have hid : (0 : Int) ≤ msgDataUpId ∧ msgDataUpId < 10000 := by decide
  simp only [headNumbers, headWidths, List.forall₂_cons, List.forall₂_nil_left_iff, and_true]
  refine ⟨length_nonneg_le ?_ ?_ ?_, length_nonneg_le ?_ ?_ ?_, length_nonneg_le ?_ ?_ ?_,
    length_numberText_le _⟩
  all_goals omega

theorem dataNumbers_widths (cmd : MqttCmd) {randNum : Int} (h : 0 ≤ randNum ∧ randNum < 30) :
    List.Forall₂ (fun m w => (numberText m.2).length ≤ w) (dataNumbers cmd randNum) dataWidths := by
  have hsw := cmd.switch.isLt
  simp only [dataNumbers, dataWidths, List.forall₂_cons, List.forall₂_nil_left_iff, and_true]
  refine ⟨length_nonneg_le ?_ ?_ ?_, length_nonneg_le ?_ ?_ ?_, length_nonneg_le ?_ ?_ ?_,
    length_nonneg_le ?_ ?_ ?_, length_nonneg_le ?_ ?_ ?_, length_nonneg_le ?_ ?_ ?_,
    length_nonneg_le ?_ ?_ ?_, length_nonneg_le ?_ ?_ ?_, length_nonneg_le ?_ ?_ ?_,
    length_nonneg_le ?_ ?_ ?_, length_nonneg_le ?_ ?_ ?_, length_toInt_le _, length_toInt_le _,
    length_toInt_le _⟩
  all_goals omega

/-- **No telemetry text is longer than 473 bytes.** -/
theorem length_uavText_le (s : Statics) (cmd : MqttCmd) {randNum : Int}
    (h : 0 ≤ randNum ∧ randNum < 30) : (uavText s cmd randNum).length ≤ 473 := by
  have hhead := length_numberLines_le 2 (headNumbers_widths s)
  have hdata := length_numberLines_le 2 (dataNumbers_widths cmd h)
  have hheadSum : linesLength 2 headMembers headWidths = 94 := by decide +kernel
  have hdataSum : linesLength 2 dataMembers dataWidths = 347 := by decide +kernel
  have hopen : (str "\x7b\n\t\"head\":\t\x7b\n").length = 13 := by decide
  have hmid : (str "\t\x7d,\n\t\"data\":\t\x7b\n").length = 15 := by decide
  have hclose : (str "\t\x7d\n\x7d").length = 4 := by decide
  rw [headNumbers_names, hheadSum] at hhead
  rw [dataNumbers_names, hdataSum] at hdata
  simp only [uavText, List.length_append]
  omega

/-! ## Two messages in the ring -/

/-- What `mqtt_publish_data` sends for a payload. -/
def upPacket (pubPayload : List Byte) : List Byte := publishPacket 0 pubTopic (cString pubPayload)

/-- What it asks `mqtt_output_check_space` for. -/
def upRemaining (pubPayload : List Byte) : BitVec 16 :=
  BitVec.ofNat 16 (publishRemaining pubTopic (cString pubPayload))

/-- The length of a packet with a telemetry text, and the check of its room. -/
theorem upPacket_spec {text : List Byte} (h : text.length ≤ 473) (rb : MqttRingbuf) :
    (upPacket text).length ≤ 489 ∧
      (mqttOutputCheckSpace rb (upRemaining text) = true ↔
        rb.len.toNat + (upPacket text).length ≤ mqttOutputRingbufSize) := by
  have htopic : pubTopic.length = 11 := by decide
  have hstring : strlen text ≤ text.length := (List.takeWhile_sublist _).length_le
  rw [strlen] at hstring
  have hremaining : publishRemaining pubTopic (cString text) = 13 + (cString text).length := by
    rw [publishRemaining, htopic]
  have hnat : (upRemaining text).toNat = publishRemaining pubTopic (cString text) := by
    rw [upRemaining, BitVec.toNat_ofNat]
    exact Nat.mod_eq_of_lt (by omega)
  have hfield : (remainingLength (upRemaining text)).length ≤ 1 + 1 :=
    length_remainingLength_le (by omega)
  have hpacket := length_publishPacket 0 pubTopic (cString text)
  rw [← upRemaining] at hpacket
  refine ⟨?_, ?_⟩
  · rw [upPacket]
    omega
  · rw [checkSpace_iff rb (by omega), upPacket, hpacket, hnat]

/-- A telemetry packet that fits is put into the ring. -/
theorem mqttPublishData_spec {text : List Byte} (h : text.length ≤ 473) {rb : MqttRingbuf}
    (hroom : rb.len.toNat + (upPacket text).length < mqttOutputRingbufSize) :
    mqttOutputCheckSpace rb (upRemaining text) = true ∧
      mqttPublishData true true rb text = (.ok, rb.append (upPacket text)) ∧
      (rb.append (upPacket text)).contents = rb.contents ++ upPacket text := by
  have hspace := (upPacket_spec h rb).2.mpr (by omega)
  have hstring : strlen text ≤ text.length := (List.takeWhile_sublist _).length_le
  rw [strlen] at hstring
  have htopic : pubTopic.length = 11 := by decide
  refine ⟨hspace, ?_, MqttRingbuf.contents_append rb (upPacket text) hroom⟩
  exact mqttPublish_accepted 0 rb 0 (by rw [publishRemaining, htopic]; omega) hspace

/-- `joson_create_uav_data_send` publishes a text of at most 473 bytes. -/
theorem josonCreateUavDataSend_text (s : Statics) (cmd : MqttCmd) (rand : Nat) :
    ∃ text, (josonCreateUavDataSend s cmd rand).2 = some text ∧ text.length ≤ 473 := by
  refine ⟨_, uavText_eq _ cmd _, length_uavText_le _ cmd ?_⟩
  omega

/-- **Telemetry fits**: on an empty ring a message of any values is let in, and so is
a second one behind it. -/
theorem telemetry_fits {rb : MqttRingbuf} (hempty : rb.put = rb.get) (s₁ s₂ : Statics)
    (cmd₁ cmd₂ : MqttCmd) (rand₁ rand₂ : Nat) :
    ∃ text₁ text₂, (josonCreateUavDataSend s₁ cmd₁ rand₁).2 = some text₁ ∧
      (josonCreateUavDataSend s₂ cmd₂ rand₂).2 = some text₂ ∧
      (upPacket text₁).length ≤ 512 ∧ (upPacket text₂).length ≤ 512 ∧
      ∃ rb₁ rb₂, mqttOutputCheckSpace rb (upRemaining text₁) = true ∧
        mqttPublishData true true rb text₁ = (.ok, rb₁) ∧ rb₁.contents = upPacket text₁ ∧
        mqttOutputCheckSpace rb₁ (upRemaining text₂) = true ∧
        mqttPublishData true true rb₁ text₂ = (.ok, rb₂) ∧
        rb₂.contents = upPacket text₁ ++ upPacket text₂ := by
  obtain ⟨text₁, htext₁, hle₁⟩ := josonCreateUavDataSend_text s₁ cmd₁ rand₁
  obtain ⟨text₂, htext₂, hle₂⟩ := josonCreateUavDataSend_text s₂ cmd₂ rand₂
  have hlen₁ := (upPacket_spec hle₁ rb).1
  have hlen₂ := (upPacket_spec hle₂ rb).1
  have hzero : rb.len.toNat = 0 := by
    rw [MqttRingbuf.len_toNat, hempty, Nat.add_sub_cancel_left, Nat.mod_self]
  have hnil : rb.contents = [] := by
    rw [MqttRingbuf.contents, hzero, Ring.slice_zero]
  have hroom₁ : rb.len.toNat + (upPacket text₁).length < mqttOutputRingbufSize := by
    rw [mqttOutputRingbufSize]
    omega
  have hused := MqttRingbuf.len_append rb (upPacket text₁) hroom₁
  have hroom₂ : (rb.append (upPacket text₁)).len.toNat + (upPacket text₂).length <
      mqttOutputRingbufSize := by
    rw [hused, mqttOutputRingbufSize]
    omega
  obtain ⟨hspace₁, hsend₁, hcontents₁⟩ := mqttPublishData_spec hle₁ hroom₁
  obtain ⟨hspace₂, hsend₂, hcontents₂⟩ := mqttPublishData_spec hle₂ hroom₂
  rw [hnil, List.nil_append] at hcontents₁
  rw [hcontents₁] at hcontents₂
  exact ⟨text₁, text₂, htext₁, htext₂, by omega, by omega, _, _, hspace₁, hsend₁, hcontents₁,
    hspace₂, hsend₂, hcontents₂⟩

/-- The ring after `mqtt_client_connect` has cleared the client. -/
def clearedRing : MqttRingbuf := ⟨0, 0, fun _ => 0, by decide, by decide⟩

theorem telemetry_fits_clearedRing :
    ∃ text₁ text₂, (josonCreateUavDataSend {} ⟨1, 2, 3, 4⟩ 5).2 = some text₁ ∧
      (josonCreateUavDataSend ⟨65535, -1⟩ ⟨-1, -1, -1, -1⟩ 29).2 = some text₂ ∧
      (upPacket text₁).length ≤ 512 ∧ (upPacket text₂).length ≤ 512 ∧
      ∃ rb₁ rb₂, mqttOutputCheckSpace clearedRing (upRemaining text₁) = true ∧
        mqttPublishData true true clearedRing text₁ = (.ok, rb₁) ∧ rb₁.contents = upPacket text₁ ∧
        mqttOutputCheckSpace rb₁ (upRemaining text₂) = true ∧
        mqttPublishData true true rb₁ text₂ = (.ok, rb₂) ∧
        rb₂.contents = upPacket text₁ ++ upPacket text₂ :=
  telemetry_fits rfl {} ⟨65535, -1⟩ ⟨1, 2, 3, 4⟩ ⟨-1, -1, -1, -1⟩ 5 29

end MqttDevice.Telemetry
