import MqttDevice.CJson.RoundTrip
import MqttDevice.Command

/-!
# Telemetry (`joson_create_uav_data_send` in `mqtt_client.c`)

The uplink message is built as a tree of numbers and printed; the fields of
`mqtt_cmd` are four of them. Here every allocation succeeds.

* `uavText_eq`: the text, line by line;
* `uavText_parsed`: it is read back as the tree that was built;
* `command_roundtrip_iff`: the values of a downlink command are held exactly
  and carried exactly by the next uplink message if and only if `Switch` is
  below `2 ^ 31`.
-/

namespace MqttDevice.Telemetry

open MqttDevice.Ascii MqttDevice.Binary64 MqttDevice.CJson MqttDevice.Command

/-! ## The program -/

/-- The static variables of `joson_create_uav_data_send`. -/
structure Statics where
  msgNum : BitVec 16 := 0
  timestamp : BitVec 64 := 1492488028395

def msgDataUpId : Int := 5003

/-- An integer argument for a parameter of type `double`. -/
def ofInt (n : Int) : Double := ofRat n

def headNumbers (s : Statics) : List (List Byte × Double) :=
  [(str "dev_id", ofInt 1), (str "msg_id", ofInt msgDataUpId),
    (str "msg_no", ofInt s.msgNum.toNat), (str "timestamp", ofInt s.timestamp.toNat)]

def dataNumbers (cmd : MqttCmd) (randNum : Int) : List (List Byte × Double) :=
  [(str "Battery", ofInt 55), (str "Longitude", ofInt 1131234567),
    (str "Latitude", ofInt 221234567), (str "Altitude", ofInt 900),
    (str "Env_Temperature", ofInt (250 + randNum)), (str "Env_Humidity", ofInt (700 + randNum)),
    (str "Env_Pressure", ofInt (1010 + randNum)), (str "Rainfall", ofInt randNum),
    (str "Wind_Speed", ofInt (10 + randNum)), (str "Wind_Direction", ofInt (100 + randNum)),
    (str "Switch", ofInt cmd.switch.toNat),
    (str "Variable_Val_0", ofInt cmd.variableVal0.toInt),
    (str "Variable_Val_1", ofInt cmd.variableVal1.toInt),
    (str "Variable_Val_2", ofInt cmd.variableVal2.toInt)]

/-- The tree that is printed. -/
def uavRoot (s : Statics) (cmd : MqttCmd) (randNum : Int) : Item :=
  addItemToObject (addItemToObject createObject (str "head") (numberObject (headNumbers s)))
    (str "data") (numberObject (dataNumbers cmd randNum))

/-- `joson_create_uav_data_send` with the result of `rand()`: the static
variables after the call and the payload it publishes. -/
def josonCreateUavDataSend (s : Statics) (cmd : MqttCmd) (rand : Nat) :
    Statics × Option (List Byte) :=
  let s := { msgNum := s.msgNum + 1, timestamp := s.timestamp + 1000 }
  (s, cJsonPrint (uavRoot s cmd (rand % 30)))

/-! ## The text -/

def uavText (s : Statics) (cmd : MqttCmd) (randNum : Int) : List Byte :=
  str "\x7b\n\t\"head\":\t\x7b\n" ++ numberLines 2 (headNumbers s) ++ str "\t\x7d,\n\t\"data\":\t\x7b\n" ++
    numberLines 2 (dataNumbers cmd randNum) ++ str "\t\x7d\n\x7d"

/-- An object of numbers as a member of the root. -/
theorem printValue_numberObject (depth : Nat) (name : List Byte)
    (numbers : List (List Byte × Double)) :
    printValue true depth { numberObject numbers with string := some name } =
      some (str "\x7b\n" ++ numberLines (depth + 1) numbers ++ tabs depth ++ str "\x7d") := by
  rw [numberObject_eq]
  simp only [createObject, newItem, printValue, printMembers_numbers]
  rfl

/-- **Printing succeeds**, and this is the text. -/
theorem uavText_eq (s : Statics) (cmd : MqttCmd) (randNum : Int) :
    cJsonPrint (uavRoot s cmd randNum) = some (uavText s cmd randNum) := by
  have hhead := printValue_numberObject 1 (str "head") (headNumbers s)
  have hdata := printValue_numberObject 1 (str "data") (dataNumbers cmd randNum)
  have hroot : uavRoot s cmd randNum = { createObject with child :=
      [{ numberObject (headNumbers s) with string := some (str "head") },
        { numberObject (dataNumbers cmd randNum) with string := some (str "data") }] } := rfl
  have hheadName : printStringPtr (some (str "head")) = str "\"head\"" := by decide
  have hdataName : printStringPtr (some (str "data")) = str "\"data\"" := by decide
  have hnil : printMembers true 1 [] = some [] := rfl
  have hmembers := printMembers_cons hhead (printMembers_cons hdata hnil)
  rw [cJsonPrint, hroot, printValue_object rfl hmembers, hheadName, hdataName, uavText]
  simp only [List.append_assoc]
  rfl

/-! ## The text is read back -/

theorem abs_toNat_lt (v : BitVec 32) : |(v.toNat : Int)| < 10 ^ 15 := by
  have := v.isLt
  rw [abs_of_nonneg (by omega)]
  omega

theorem abs_toInt_lt (v : BitVec 32) : |v.toInt| < 10 ^ 15 := by
  have hlt := BitVec.toInt_lt (x := v)
  have hle := BitVec.le_toInt (x := v)
  norm_num at hlt hle
  rw [abs_lt]
  omega

/-- The names in the head of a telemetry message. -/
def headMembers : List (List Byte) := ["dev_id", "msg_id", "msg_no", "timestamp"].map str

def dataMembers : List (List Byte) :=
  ["Battery", "Longitude", "Latitude", "Altitude", "Env_Temperature", "Env_Humidity",
    "Env_Pressure", "Rainfall", "Wind_Speed", "Wind_Direction", "Switch", "Variable_Val_0",
    "Variable_Val_1", "Variable_Val_2"].map str

theorem headNumbers_names (s : Statics) : (headNumbers s).map Prod.fst = headMembers := rfl

theorem dataNumbers_names (cmd : MqttCmd) (randNum : Int) :
    (dataNumbers cmd randNum).map Prod.fst = dataMembers := rfl

theorem isInteger_ofInt {n : Int} (h : |n| < 10 ^ 15) : IsInteger (ofInt n) := isInteger_ofRat h

theorem headNumbers_integers {s : Statics} (hs : s.timestamp.toNat < 10 ^ 15) :
    ∀ m ∈ headNumbers s, IsInteger m.2 := by
  have hnum := s.msgNum.isLt
  have hid : (0 : Int) ≤ msgDataUpId ∧ msgDataUpId < 10000 := by decide
  refine List.forall_iff_forall_mem.mp ?_
  simp only [headNumbers, List.Forall]
  refine ⟨isInteger_ofInt ?_, isInteger_ofInt ?_, isInteger_ofInt ?_, isInteger_ofInt ?_⟩
  all_goals rw [abs_lt]
  all_goals omega

theorem dataNumbers_integers (cmd : MqttCmd) (rand : Nat) :
    ∀ m ∈ dataNumbers cmd ((rand : Int) % 30), IsInteger m.2 := by
  have hsw := cmd.switch.isLt
  refine List.forall_iff_forall_mem.mp ?_
  simp only [dataNumbers, List.Forall]
  refine ⟨isInteger_ofInt ?_, isInteger_ofInt ?_, isInteger_ofInt ?_, isInteger_ofInt ?_,
    isInteger_ofInt ?_, isInteger_ofInt ?_, isInteger_ofInt ?_, isInteger_ofInt ?_,
    isInteger_ofInt ?_, isInteger_ofInt ?_, isInteger_ofInt ?_, isInteger_ofInt (abs_toInt_lt _),
    isInteger_ofInt (abs_toInt_lt _), isInteger_ofInt (abs_toInt_lt _)⟩
  all_goals rw [abs_lt]
  all_goals omega

/-- **What is published is read back** as the tree that was built, while the timestamp has 15
digits at most. -/
theorem uavText_parsed {s : Statics} (hs : s.timestamp.toNat < 10 ^ 15) (cmd : MqttCmd)
    (rand : Nat) :
    parseWithLength (uavText s cmd ((rand : Int) % 30)) =
      some (uavRoot s cmd ((rand : Int) % 30)) := by
  have hhead : ∀ m ∈ headNumbers s, cString m.1 = m.1 := fun m hm =>
    (by decide : ∀ name ∈ headMembers, cString name = name) m.1 (List.mem_map_of_mem hm)
  have hdata : ∀ m ∈ dataNumbers cmd ((rand : Int) % 30), cString m.1 = m.1 := fun m hm =>
    (by decide : ∀ name ∈ dataMembers, cString name = name) m.1 (List.mem_map_of_mem hm)
  have hnames : cString (str "head") = str "head" ∧ cString (str "data") = str "data" := by decide
  have hempty : Readable (998 + 1 + 1) createObject := ⟨Nat.succ_pos _, trivial⟩
  have hreadable : Readable nestingLimit (uavRoot s cmd ((rand : Int) % 30)) :=
    readable_addItemToObject rfl
      (readable_addItemToObject rfl hempty (readable_numberObject (headNumbers_integers hs)) _)
      (readable_numberObject (dataNumbers_integers cmd rand)) _
  have hback : readBack (uavRoot s cmd ((rand : Int) % 30)) =
      uavRoot s cmd ((rand : Int) % 30) := by
    rw [uavRoot, readBack_addItemToObject rfl, readBack_addItemToObject rfl,
      readBack_numberObject hhead, readBack_numberObject hdata, hnames.1, hnames.2]
    rfl
  obtain ⟨text, htext, hreads⟩ := reads_printValue true 0 _ hreadable
  cases htext.symm.trans (uavText_eq s cmd ((rand : Int) % 30))
  have hparse := hreads.parses (s := []) fun _ hc => by cases hc
  rw [List.append_nil, hback] at hparse
  exact hparse

/-! ## The values of a command -/

/-- The only member of an object that the lookup can find under a name. -/
def OnlyMember (object : Item) (name : List Byte) (item : Item) : Prop :=
  object.child.filter (fun c => caseInsensitiveStrcmp (some name) c.string = 0) = [item]

/-- Parsed, the text has one `data`, and in it one member of the name, the number `n`. -/
def ParsesTo (text name : List Byte) (n : Int) : Prop :=
  ∃ root dataItem item, parseWithLength text = some root ∧ OnlyMember root (str "data") dataItem ∧
    OnlyMember dataItem name item ∧ numberOf item = some (n : ℚ)

/-- The next payload carries the number `n` under the name: its line is there, in decimal
digits, and while the timestamp has 15 digits at most it is what a parser finds in `data`. -/
def Carries (s : Statics) (cmd : MqttCmd) (rand : Nat) (name : List Byte) (n : Int) : Prop :=
  ∃ text, (josonCreateUavDataSend s cmd rand).2 = some text ∧
    (∃ last : Bool, tabs 2 ++ printStringPtr (some name) ++ str ":\t" ++ literal n ++
      (if last then [] else [ch ',']) ++ [ch '\n'] <:+: text) ∧
    (s.timestamp.toNat + 1000 < 10 ^ 15 → ParsesTo text name n)

/-- The next uplink message carries the four values. -/
def CarriesCommand (cmd : MqttCmd) (sw v₀ v₁ v₂ : Int) : Prop :=
  ∀ s rand, Carries s cmd rand (str "Switch") sw ∧
    Carries s cmd rand (str "Variable_Val_0") v₀ ∧
    Carries s cmd rand (str "Variable_Val_1") v₁ ∧
    Carries s cmd rand (str "Variable_Val_2") v₂

/-- The one entry of a table under a name. -/
theorem filter_fst {α β : Type} {l : List (α × β)} {p : α → Bool} {a : α} {b : β}
    (h : (l.map Prod.fst).filter p = [a]) (hmem : (a, b) ∈ l) :
    l.filter (fun m => p m.1) = [(a, b)] := by
  have hp : p a = true := List.of_mem_filter (h ▸ List.mem_singleton_self a)
  have hfound : (a, b) ∈ l.filter (fun m => p m.1) := List.mem_filter.mpr ⟨hmem, hp⟩
  rw [List.filter_map] at h
  obtain ⟨x, hx, -⟩ := List.map_eq_singleton_iff.mp h
  have hone : l.filter (fun m => p m.1) = [x] := hx
  rw [hone, List.mem_singleton] at hfound
  rw [hone, hfound]

/-- The one entry of `data` under a name is what the next payload carries. -/
theorem carries_of_mem {s : Statics} {cmd : MqttCmd} {rand : Nat} {name : List Byte} {n : Int}
    (hname : dataMembers.filter (fun m => caseInsensitiveStrcmp (some name) (some m) = 0) = [name])
    (hn : |n| < 10 ^ 15) (h : (name, ofInt n) ∈ dataNumbers cmd ((rand : Int) % 30)) :
    Carries s cmd rand name n := by
  obtain ⟨last, hline⟩ := mem_numberLines 2 h
  have hint : ofInt n = .finite n (representable_intCast (by omega)) := ofRat_intCast (by omega)
  rw [numberLine, hint, numberText_intCast hn] at hline
  refine ⟨uavText _ cmd ((rand : Int) % 30), uavText_eq _ _ _, ⟨last, ?_⟩, fun htime => ?_⟩
  · exact List.infix_append_of_infix_left (List.infix_append_of_infix_right hline)
  · refine ⟨_, _, { createNumber (ofInt n) with string := some name }, uavText_parsed ?_ cmd rand,
      rfl, ?_, ?_⟩
    · rw [BitVec.toNat_add]
      exact (Nat.mod_le _ _).trans_lt htime
    · rw [OnlyMember, numberObject_eq, List.filter_map]
      exact congrArg _ (filter_fst hname h)
    · rw [hint]
      rfl

/-- **The uplink is exact**, for every `mqtt_cmd`. -/
theorem carriesCommand (cmd : MqttCmd) :
    CarriesCommand cmd cmd.switch.toNat cmd.variableVal0.toInt cmd.variableVal1.toInt
      cmd.variableVal2.toInt :=
  fun _ _ => ⟨carries_of_mem (by decide) (abs_toNat_lt _) (by simp [dataNumbers]),
    carries_of_mem (by decide) (abs_toInt_lt _) (by simp [dataNumbers]),
    carries_of_mem (by decide) (abs_toInt_lt _) (by simp [dataNumbers]),
    carries_of_mem (by decide) (abs_toInt_lt _) (by simp [dataNumbers])⟩

/-! ## There and back -/

/-- A message 5004 with the four values as integers; the last three are `int32_t`. -/
@[mk_iff]
structure CommandMessage (buf : List Byte) (sw v₀ v₁ v₂ : BitVec 32) : Prop where
  msgId : msgIdOf buf = some msgDataDownId
  head : ∀ name ∈ headNames, (headOf buf).bind (getObjectItem · name) ≠ none
  switch : (dataOf buf).bind (memberNumber · (str "Switch")) = some (sw.toNat : Int)
  variableVal0 : (dataOf buf).bind (memberNumber · (str "Variable_Val_0")) = some v₀.toInt
  variableVal1 : (dataOf buf).bind (memberNumber · (str "Variable_Val_1")) = some v₁.toInt
  variableVal2 : (dataOf buf).bind (memberNumber · (str "Variable_Val_2")) = some v₂.toInt

instance (buf : List Byte) (sw v₀ v₁ v₂ : BitVec 32) : Decidable (CommandMessage buf sw v₀ v₁ v₂) :=
  decidable_of_iff _ (commandMessage_iff buf sw v₀ v₁ v₂).symm

/-- The integer members of a parsed tree, with what is stored for them. -/
theorem member_valueint {buf : List Byte} {dataItem : Item} {name : List Byte} {n : Int}
    (hdata : dataOf buf = some dataItem)
    (h : (dataOf buf).bind (memberNumber · name) = some (n : ℚ)) :
    ∃ item hn, getObjectItem dataItem name = some item ∧
      item.valueint = saturate (.finite n hn) := by
  obtain ⟨root, hroot, hget⟩ := Option.bind_eq_some_iff.mp hdata
  have hsat := allSaturated_getObjectItem (parseWithLength_saturated hroot) hget
  rw [hdata, Option.bind_some] at h
  obtain ⟨item, hn, hitem, htype, hval⟩ := memberNumber_eq_some h
  refine ⟨item, hn, hitem, ?_⟩
  rw [allSaturated_getObjectItem hsat hitem item (.self item) htype, hval]

/-- A command message is stored with its `Switch` as `valueint`. -/
theorem exec_commandMessage {buf : List Byte} {sw v₀ v₁ v₂ : BitVec 32}
    (h : CommandMessage buf sw v₀ v₁ v₂) (a : App) :
    ∃ hsw : Representable ((sw.toNat : Int) : ℚ), exec (jsonParse buf) a =
      (.ok 0, ⟨⟨saturate (.finite ((sw.toNat : Int) : ℚ) hsw), v₀, v₁, v₂⟩, a.deleted + 1⟩) := by
  obtain ⟨headItem, hhead, hmap⟩ := Option.bind_eq_some_iff.mp h.msgId
  obtain ⟨msgId, hgetid, hid⟩ := Option.map_eq_some_iff.mp hmap
  obtain ⟨root, hroot, hgethead⟩ := Option.bind_eq_some_iff.mp hhead
  obtain ⟨dataItem, hdata, -⟩ := Option.bind_eq_some_iff.mp h.switch
  obtain ⟨root', hroot', hgetdata⟩ := Option.bind_eq_some_iff.mp hdata
  cases hroot.symm.trans hroot'
  have hall : ∀ name ∈ headNames, ∃ item, getObjectItem headItem name = some item := by
    intro name hname
    have hne := h.head name hname
    rw [hhead, Option.bind_some] at hne
    exact Option.ne_none_iff_exists'.mp hne
  obtain ⟨msgNo, hgetno⟩ := hall (str "msg_no") (by simp [headNames])
  obtain ⟨timestamp, hgettime⟩ := hall (str "timestamp") (by simp [headNames])
  obtain ⟨s, hsw, hgs, hvs⟩ := member_valueint hdata h.switch
  obtain ⟨i₀, hr₀, hg₀, hv₀⟩ := member_valueint hdata h.variableVal0
  obtain ⟨i₁, hr₁, hg₁, hv₁⟩ := member_valueint hdata h.variableVal1
  obtain ⟨i₂, hr₂, hg₂, hv₂⟩ := member_valueint hdata h.variableVal2
  refine ⟨hsw, ?_⟩
  rw [exec_jsonParse, hroot]
  simp only [hgethead, exec_parseHead, hgetid, hgetno, hgettime, exec_dispatch, hid, if_true,
    hgetdata, exec_storeData, hgs, hg₀, hg₁, hg₂, hvs, hv₀, hv₁, hv₂, saturate_toInt]

/-- **Command values on the wire, exactly.** -/
theorem command_roundtrip_iff {buf : List Byte} {sw v₀ v₁ v₂ : BitVec 32}
    (h : CommandMessage buf sw v₀ v₁ v₂) (a : App) :
    ((exec (jsonParse buf) a).1 = .ok 0 ∧
      (exec (jsonParse buf) a).2.mqttCmd = ⟨sw, v₀, v₁, v₂⟩ ∧
      CarriesCommand (exec (jsonParse buf) a).2.mqttCmd sw.toNat v₀.toInt v₁.toInt v₂.toInt) ↔
    sw.toNat < 2 ^ 31 := by
  obtain ⟨hsw, hrun⟩ := exec_commandMessage h a
  rw [hrun, ← saturate_toNat_iff sw hsw]
  constructor
  · rintro ⟨-, hcmd, -⟩
    exact congrArg MqttCmd.switch hcmd
  · intro heq
    rw [heq]
    exact ⟨rfl, rfl, carriesCommand _⟩

/-- A message with the members of `data` that a command has. -/
def command (sw v₀ v₁ v₂ : String) : List Byte :=
  message ("\x7b\"Switch\":" ++ sw ++ ",\"Variable_Val_0\":" ++ v₀ ++ ",\"Variable_Val_1\":" ++
    v₁ ++ ",\"Variable_Val_2\":" ++ v₂ ++ "\x7d")

theorem command_roundtrip_command :
    ((exec (jsonParse (command "5" "-1" "2" "3")) ⟨⟨0, 0, 0, 0⟩, 0⟩).1 = .ok 0 ∧
      (exec (jsonParse (command "5" "-1" "2" "3")) ⟨⟨0, 0, 0, 0⟩, 0⟩).2.mqttCmd = ⟨5, -1, 2, 3⟩ ∧
      CarriesCommand (exec (jsonParse (command "5" "-1" "2" "3")) ⟨⟨0, 0, 0, 0⟩, 0⟩).2.mqttCmd
        (5 : BitVec 32).toNat (-1 : BitVec 32).toInt (2 : BitVec 32).toInt (3 : BitVec 32).toInt) ↔
    (5 : BitVec 32).toNat < 2 ^ 31 :=
  command_roundtrip_iff (by decide +kernel) ⟨⟨0, 0, 0, 0⟩, 0⟩

/-- `Switch` is saturated at `INT_MAX`. -/
theorem command_saturates_switch :
    ¬ ∀ (buf : List Byte) (sw v₀ v₁ v₂ : BitVec 32) (a : App), CommandMessage buf sw v₀ v₁ v₂ →
      (exec (jsonParse buf) a).2.mqttCmd = ⟨sw, v₀, v₁, v₂⟩ := by
  intro h
  have hcmd := h (command "2147483648" "1" "2" "3") 2147483648 1 2 3 ⟨⟨0, 0, 0, 0⟩, 0⟩
    (by decide +kernel)
  revert hcmd
  decide +kernel

end MqttDevice.Telemetry
