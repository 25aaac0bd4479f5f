import MqttDevice.CJson.Reads
import MqttDevice.DataCallback
import MqttDevice.Inbound
import MqttDevice.Rtt.Printf

/-!
# What is logged for received data (`mqtt_incoming_data_cb`)

The callback prints its data with `%s`, which reads on to the next zero byte. The data
is a part of `rx_buffer`; what earlier messages have left there comes behind it.

* `readsInside_iff`: when the callback reads nothing behind its data;
* `data_shown`: what the conversion prints, with enough space;
* `ownLog_iff`: what is logged depends on the message only, and nothing behind it is
  read, if and only if it has a zero byte and cJSON does not look for a name at its end.
-/

namespace MqttDevice.InboundLog

open MqttDevice.Ascii MqttDevice.CJson MqttDevice.DataCallback MqttDevice.Lwip MqttDevice.Memory
  MqttDevice.Rtt MqttDevice.Runs
open MqttDevice.Inbound (mqttDataFlagLast readingOfHead)

/-! ## The output of the program -/

structure PrintCall where
  format : List Byte
  args : List Arg

section Output

variable (zero : Option Item)

/-- The calls of `json_parse` for a `head`; there are none behind a null pointer. -/
def headPrints (root headItem : Item) : List PrintCall :=
  match (getObjectItem headItem (str "msg_id")).or zero,
    (getObjectItem headItem (str "msg_no")).or zero,
    (getObjectItem headItem (str "timestamp")).or zero with
  | some msgId, some msgNo, some _ =>
    ⟨str "msg_id: %d\n", [.word msgId.valueint]⟩ :: ⟨str "msg_no: %d\n", [.word msgNo.valueint]⟩ ::
      match (readingOfHead zero root headItem).stored with
      | [switch, v₀, v₁, v₂] =>
        [⟨str "Switch: %d\n Variable_Val_0: %d\n Variable_Val_1: %d\n Variable_Val_2: %d\n",
          [.word switch, .word v₀, .word v₁, .word v₂]⟩]
      | _ => []
  | _, _, _ => []

def jsonParsePrints (buf : List Byte) : List PrintCall :=
  ⟨str "\nbuf_LEN: %d\n", [.word (BitVec.ofNat 32 buf.length)]⟩ ::
    match parseWithLength buf with
    | some root =>
      match getObjectItem root (str "head") with
      | some headItem => headPrints zero root headItem
      | none => []
    | none => []

def clientId : Mem := fun i => (str "STM32MQ_DEVICE").getD i 0

section Calls

variable (space : Nat → Nat) (rounds : Nat)

def printAll : List PrintCall → Log → Log
  | [], log => log
  | call :: calls, log => printAll calls (rttPrintf space rounds call.format call.args log).log

/-- `mqtt_incoming_data_cb` for `len` bytes at `data`: what it leaves in the log, and the
indices at which it reads the data. Its effect on `mqtt_cmd` is in `Inbound`. -/
def mqttIncomingDataCb (m : Mem) (data len : Nat) (flags : BitVec 8) (log : Log) : Printed :=
  let head := rttPrintf space rounds
    (str "MQTT client \"%s\" mqtt_incoming_data_cb: len %d, flags %d\n")
    [.ptr clientId 0, .word (BitVec.ofNat 32 len), .word (flags.setWidth 32)] log
  if head.running then { head with reads := [] }
  else
    let text := rttPrintf space rounds (str "%s") [.ptr m data] head.log
    if text.running then text
    else
      let buf := bytes m data len
      { log := printAll space rounds (jsonParsePrints zero buf) text.log
        reads := text.reads ++ documentReads buf
        running := false }

end Calls

end Output

/-! ## Histories -/

/-- A call of the callback at the end of a history of the system. What lies behind
`rx_buffer` is any memory. -/
structure Delivery (shiftOut : BitVec 32 → Nat → BitVec 32) where
  env : InitEnv
  t : Nat
  events : List RecvEvent
  state : RecvProc
  reached : run (step shiftOut) (start env t) events = some state
  call : DataCall
  called : call ∈ state.data
  installed : call.installed = true
  behind : Mem

namespace Delivery

variable {shiftOut : BitVec 32 → Nat → BitVec 32} (h : Delivery shiftOut)

def payload : List Byte := bytes h.call.rxBuffer h.call.start h.call.len

def flags : BitVec 8 := if h.call.last then mqttDataFlagLast else 0

/-- The memory from `rx_buffer` on. -/
def memory : Mem := fun o => if o < mqttVarHeaderBufferLen then h.call.rxBuffer o else h.behind o

/-- What the call does, with the item at address 0, the space in the log, the rounds for
which a string is followed, and the log before the call. -/
def printed (zero : Option Item) (space : Nat → Nat) (rounds : Nat) (log : Log) : Printed :=
  mqttIncomingDataCb zero space rounds h.memory h.call.start h.call.len h.flags log

def SameCall (h' : Delivery shiftOut) : Prop := h.payload = h'.payload ∧ h.flags = h'.flags

/-- **What is logged is the message only**: every history that ends with this call leaves the
same text, and no byte behind the data is read. -/
structure OwnLog : Prop where
  text : ∀ h' : Delivery shiftOut, h.SameCall h' → ∀ zero space rounds log,
    (h.printed zero space rounds log).log.text = (h'.printed zero space rounds log).log.text
  reads : ∀ zero space rounds log, ∀ i ∈ (h.printed zero space rounds log).reads, i < h.call.len

@[simp] theorem length_payload : h.payload.length = h.call.len := length_bytes ..

theorem memory_inside {i : Nat} (hi : i < h.call.len) :
    h.memory (h.call.start + i) = h.call.rxBuffer (h.call.start + i) := by
  have hinside := run_inside shiftOut h.reached h.call h.called
  exact if_pos (by omega)

theorem bytes_memory : bytes h.memory h.call.start h.call.len = h.payload :=
  bytes_congr fun _ hi => h.memory_inside hi

end Delivery

/-! ## What is read -/

section Reads

variable {zero : Option Item} {space : Nat → Nat} {rounds : Nat} {m : Mem} {data len : Nat}
  {flags : BitVec 8} {log : Log}

theorem head_ends (hrounds : 15 ≤ rounds) (len flags : BitVec 32) :
    (rttPrintf space rounds (str "MQTT client \"%s\" mqtt_incoming_data_cb: len %d, flags %d\n")
      [.ptr clientId 0, .word len, .word flags] log).running = false := by
  refine rttPrintf_ends space rounds _ (fun m s hm => ?_) log
  have harg : Arg.ptr m s = .ptr clientId 0 := by simpa using hm
  cases harg
  exact ⟨14, by omega, by decide⟩

/-- The indices are those of the string and those of the parser. -/
theorem mem_reads {i : Nat}
    (h : i ∈ (mqttIncomingDataCb zero space rounds m data len flags log).reads) :
    (∃ p, i ∈ (printString space m data rounds 0 p).reads) ∨
      i ∈ documentReads (bytes m data len) := by
  unfold mqttIncomingDataCb at h
  dsimp only at h
  split at h
  · exact absurd h List.not_mem_nil
  · split at h
    · rw [rttPrintf_string] at h
      exact .inl ⟨_, h⟩
    · rw [rttPrintf_string] at h
      rcases List.mem_append.mp h with h | h
      · exact .inl ⟨_, h⟩
      · exact .inr h

/-- Without a zero byte the string is read on. -/
theorem string_read_on (zero : Option Item) (flags : BitVec 8) (log : Log)
    (hrounds : len + 16 ≤ rounds) (hspace : Roomy space) (hnz : ∀ i < len, m (data + i) ≠ 0) :
    len ∈ (mqttIncomingDataCb zero space rounds m data len flags log).reads := by
  have hread (log : Log) : len ∈
      (rttPrintf space rounds (str "%s") [.ptr m data] log).reads := by
    obtain ⟨k, rfl⟩ := Nat.exists_eq_add_of_le (show len + 1 ≤ rounds by omega)
    have hstart : PrintfDesc.Ready { log := log } := ⟨(by decide : 0 < printfBufferSize), le_rfl⟩
    have hfrom : ∀ j < len, m (data + (0 + j)) ≠ 0 := fun j hj => by simpa using hnz j hj
    have hend := printString_reads_end hspace hfrom k hstart
    rw [rttPrintf_string]
    simpa [flush] using hend
  unfold mqttIncomingDataCb
  simp only [head_ends (by omega : 15 ≤ rounds), Bool.false_eq_true, if_false]
  split
  · exact hread _
  · exact List.mem_append_left _ (hread _)

theorem parser_reads (zero : Option Item) (space : Nat → Nat) (flags : BitVec 8) (log : Log)
    {z : Nat} (hrounds : len + 16 ≤ rounds) (hz : z < len) (hzero : m (data + z) = 0) {i : Nat}
    (hi : i ∈ documentReads (bytes m data len)) :
    i ∈ (mqttIncomingDataCb zero space rounds m data len flags log).reads := by
  have hend (log : Log) :
      (rttPrintf space rounds (str "%s") [.ptr m data] log).running = false := by
    refine rttPrintf_ends space rounds _ (fun m' s hm => ?_) log
    cases List.mem_singleton.mp hm
    exact ⟨z, by omega, hzero⟩
  unfold mqttIncomingDataCb
  simp only [head_ends (by omega : 15 ≤ rounds), hend, Bool.false_eq_true, if_false]
  exact List.mem_append_right _ hi

def ReadsInside (m : Mem) (data len : Nat) (flags : BitVec 8) : Prop :=
  ∀ zero space rounds log,
    ∀ i ∈ (mqttIncomingDataCb zero space rounds m data len flags log).reads, i < len

theorem zero_of_readsInside (h : ReadsInside m data len flags) : 0 ∈ bytes m data len := by
  by_contra hno
  have hnz : ∀ i < len, m (data + i) ≠ 0 := fun i hi hzero => hno (mem_bytes.mpr ⟨i, hi, hzero⟩)
  have hread := string_read_on none flags {} le_rfl (fun _ => le_rfl : Roomy fun _ => 64) hnz
  exact Nat.lt_irrefl _ (h none _ _ {} _ hread)

theorem name_of_readsInside (h : ReadsInside m data len flags) :
    endsBeforeName (bytes m data len) = false := by
  obtain ⟨z, hz, hzero⟩ := mem_bytes.mp (zero_of_readsInside h)
  rw [Bool.eq_false_iff]
  intro hopen
  obtain ⟨i, hi, hle⟩ := (over_documentReads _).mpr hopen
  have hlt := h none _ _ {} _ (parser_reads none (fun _ => 64) flags {} le_rfl hz hzero hi)
  rw [length_bytes] at hle
  omega

/-- **What is read lies in the data, exactly**: if there is a zero byte in it, and it does not
end where cJSON looks for the name of a member. -/
theorem readsInside_iff : ReadsInside m data len flags ↔
    0 ∈ bytes m data len ∧ endsBeforeName (bytes m data len) = false := by
  refine ⟨fun h => ⟨zero_of_readsInside h, name_of_readsInside h⟩, ?_⟩
  rintro ⟨hmem, hname⟩ zero space rounds log i hi
  obtain ⟨z, hz, hzero⟩ := mem_bytes.mp hmem
  rcases mem_reads hi with ⟨p, hi⟩ | hi
  · have hle := printString_reads_le hzero rounds (Nat.zero_le z) p i hi
    omega
  · by_contra hle
    have hover : Over (bytes m data len).length (documentReads (bytes m data len)) := by
      refine ⟨i, hi, ?_⟩
      rw [length_bytes]
      omega
    cases hname.symm.trans ((over_documentReads _).mp hover)

/-- **With a zero byte in the data** the call depends on the data only. -/
theorem mqttIncomingDataCb_congr {m' : Mem} {data' : Nat} (hmem : 0 ∈ bytes m data len)
    (hsame : bytes m data len = bytes m' data' len) :
    mqttIncomingDataCb zero space rounds m data len flags log =
      mqttIncomingDataCb zero space rounds m' data' len flags log := by
  obtain ⟨z, hz, hzero⟩ := mem_bytes.mp hmem
  have hbyte := bytes_eq_iff.mp hsame
  have hstring (p : PrintfDesc) :
      printString space m data rounds 0 p = printString space m' data' rounds 0 p :=
    printString_congr hzero (fun i hi => hbyte i (by omega)) rounds (Nat.zero_le z) p
  unfold mqttIncomingDataCb
  simp only [rttPrintf_string, hstring, hsame]

end Reads

/-! ## Results -/

section Results

variable {shiftOut : BitVec 32 → Nat → BitVec 32} (h : Delivery shiftOut)

/-- **What the conversion prints**: the payload and what comes behind it in the memory, up to
the first zero byte there. -/
theorem data_shown {space : Nat → Nat} (hspace : Roomy space) {n rounds : Nat}
    (hzero : h.memory (h.call.start + (h.call.len + n)) = 0)
    (hnz : ∀ i < h.call.len + n, h.memory (h.call.start + i) ≠ 0)
    (hrounds : h.call.len + n < rounds) (log : Log) :
    (rttPrintf space rounds (str "%s") [.ptr h.memory h.call.start] log).log.text =
      log.text ++ h.payload ++ bytes h.memory (h.call.start + h.call.len) n := by
  rw [rttPrintf_string_text hspace hzero hnz hrounds, bytes_add, h.bytes_memory, List.append_assoc]

/-- **The log is that of the message, exactly**: if the payload has a zero byte, and does not
end where cJSON looks for the name of a member. -/
theorem ownLog_iff : h.OwnLog ↔ 0 ∈ h.payload ∧ endsBeforeName h.payload = false := by
  have hreads : ReadsInside h.memory h.call.start h.call.len h.flags ↔
      0 ∈ h.payload ∧ endsBeforeName h.payload = false := by
    rw [readsInside_iff, h.bytes_memory]
  constructor
  · intro hown
    exact hreads.mp hown.reads
  intro hpayload
  refine ⟨?_, hreads.mpr hpayload⟩
  rintro h' ⟨hsame, hflags⟩ zero space rounds log
  have hlen : h.call.len = h'.call.len := by
    rw [← h.length_payload, hsame, h'.length_payload]
  have hmem : 0 ∈ bytes h.memory h.call.start h.call.len := by
    rw [h.bytes_memory]
    exact hpayload.1
  have hbytes : bytes h.memory h.call.start h.call.len =
      bytes h'.memory h'.call.start h.call.len := by
    rw [h.bytes_memory, hsame, hlen, h'.bytes_memory]
  simp only [Delivery.printed]
  rw [mqttIncomingDataCb_congr hmem hbytes, hflags, hlen]

end Results

/-! ## A message behind a longer one -/

/-- The first call of the last segment of a history, with zero bytes behind `rx_buffer`. -/
def deliveryOf (events : List RecvEvent) : Option (Delivery fun x n => x <<< n) :=
  match hrun : run (step fun x n => x <<< n) (start {} 0) events with
  | none => none
  | some state =>
    match hdata : state.data with
    | [] => none
    | call :: _ =>
      if hinstalled : call.installed = true then
        some ⟨{}, 0, events, state, hrun, call, hdata ▸ List.mem_cons_self, hinstalled, fun _ => 0⟩
      else none

/-- The server accepts the client and sends messages for the topic `a`. -/
def messages (payloads : List String) : List RecvEvent :=
  let segment (bytes : List Byte) : RecvEvent := .segment 0 {} bytes (fun _ => false) 32 true
  .other (.tcp 0 .synAck) :: segment [0x20, 0x02, 0x00, 0x00] ::
    payloads.map fun payload =>
      segment ([0x30, BitVec.ofNat 8 (payload.length + 3), 0x00, 0x01, ch 'a'] ++ str payload)

/-- The payload of the last message, its flags, and what is logged for it. -/
def shown (payloads : List String) : Option (List Byte × BitVec 8 × List Byte) :=
  (deliveryOf (messages payloads)).map fun h =>
    (h.payload, h.flags, (h.printed none (fun _ => 64) 99 {}).log.text)

/-- A payload that ends with a zero byte is logged by itself. -/
example : (shown ["secret", "hi\x00"]).map (fun s => s.2.2) =
    some (str "MQTT client \"STM32MQ_DEVICE\" mqtt_incoming_data_cb: len 3, flags 1\n" ++
      str "hi\nbuf_LEN: 3\n") := by
  decide +kernel

/-- The end of `secret` is logged for `hi`. -/
theorem leftovers_logged :
    ¬ ∀ (shiftOut : BitVec 32 → Nat → BitVec 32) (h : Delivery shiftOut), h.OwnLog := by
  intro hown
  have hbehind : shown ["secret", "hi"] = some (str "hi", mqttDataFlagLast,
      str "MQTT client \"STM32MQ_DEVICE\" mqtt_incoming_data_cb: len 2, flags 1\n" ++
        str "hicret\nbuf_LEN: 2\n") := by
    decide +kernel
  have hfirst : shown ["hi"] = some (str "hi", mqttDataFlagLast,
      str "MQTT client \"STM32MQ_DEVICE\" mqtt_incoming_data_cb: len 2, flags 1\n" ++
        str "hi\nbuf_LEN: 2\n") := by
    decide +kernel
  obtain ⟨h, -, hshown⟩ := Option.map_eq_some_iff.mp hbehind
  obtain ⟨h', -, hshown'⟩ := Option.map_eq_some_iff.mp hfirst
  obtain ⟨hpayload, hflags, htext⟩ := by simpa only [Prod.mk.injEq] using hshown
  obtain ⟨hpayload', hflags', htext'⟩ := by simpa only [Prod.mk.injEq] using hshown'
  have hsame := (hown _ h).text h' ⟨hpayload.trans hpayload'.symm, hflags.trans hflags'.symm⟩
    none (fun _ => 64) 99 {}
  rw [htext, htext'] at hsame
  revert hsame
  decide +kernel

end MqttDevice.InboundLog
