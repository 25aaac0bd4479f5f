import MqttDevice.CJson.Parse

/-!
# Inbound commands (`json_parse` in `mqtt_client.c`)

A payload is parsed, its head is read, and a message 5004 stores four members
of `data` in `mqtt_cmd`. An item that a lookup does not find is a null pointer;
the call ends abnormally where it is followed, and the state at that point
stays.

* `jsonParse_noNull_iff`: no null pointer is followed exactly when every
  member that the message needs is there;
* `jsonParse_allOrNothing_iff`: exactly when a message 5004 replaces all four
  fields or none.
-/

namespace MqttDevice.Command

open MqttDevice.Ascii MqttDevice.CJson

/-! ## The program -/

/-- `mqtt_cmd_struct`; the last three are `int32_t`. -/
structure MqttCmd where
  switch : BitVec 32
  variableVal0 : BitVec 32
  variableVal1 : BitVec 32
  variableVal2 : BitVec 32
  deriving DecidableEq, Repr

/-- `mqtt_cmd`, and how many parse trees have been given to `cJSON_Delete`. -/
structure App where
  mqttCmd : MqttCmd
  deleted : Nat

inductive Fault
  | nullDeref
  deriving DecidableEq

abbrev Exec := ExceptT Fault (StateM App)

/-- How the call ends, and the state it leaves. -/
def exec {α : Type} (x : Exec α) (a : App) : Except Fault α × App := x.run.run a

/-- The item that a pointer is followed to. -/
def deref : Option Item → Exec Item
  | some item => pure item
  | none => throw .nullDeref

def setCmd (f : MqttCmd → MqttCmd) : Exec Unit :=
  modify fun a => { a with mqttCmd := f a.mqttCmd }

/-- `cJSON_Delete(root)`; a null pointer is ignored. -/
def cJsonDelete : Option Item → Exec Unit
  | some _ => modify fun a => { a with deleted := a.deleted + 1 }
  | none => pure ()

def msgPowerOnId : BitVec 32 := 5001
def msgHraetId : BitVec 32 := 5002
def msgDataDownId : BitVec 32 := 5004

theorem msgDataDownId_ne_powerOn : msgDataDownId ≠ msgPowerOnId := by decide

theorem msgDataDownId_ne_hraet : msgDataDownId ≠ msgHraetId := by decide

/-- The case `MSG_DATA_DOWN_ID`, with `data` there. -/
def storeData (dataItem : Item) : Exec Unit := do
  let item ← deref (getObjectItem dataItem (str "Switch"))
  setCmd fun c => { c with switch := item.valueint }
  let item ← deref (getObjectItem dataItem (str "Variable_Val_0"))
  setCmd fun c => { c with variableVal0 := item.valueint }
  let item ← deref (getObjectItem dataItem (str "Variable_Val_1"))
  setCmd fun c => { c with variableVal1 := item.valueint }
  let item ← deref (getObjectItem dataItem (str "Variable_Val_2"))
  setCmd fun c => { c with variableVal2 := item.valueint }

/-- The `switch (msg_id)`. -/
def dispatch (root : Item) (msgId : BitVec 32) : Exec Unit :=
  let dataItem := getObjectItem root (str "data")
  if msgId = msgPowerOnId then pure ()
  else if msgId = msgHraetId then pure ()
  else if msgId = msgDataDownId then
    match dataItem with
    | some dataItem => storeData dataItem
    | none => pure ()
  else pure ()

/-- The head of a message and what follows from it. The `msg_no` and the
`timestamp` are read and not used. -/
def parseHead (root headItem : Item) : Exec Unit := do
  let msgId := (← deref (getObjectItem headItem (str "msg_id"))).valueint
  let _msgNo := (← deref (getObjectItem headItem (str "msg_no"))).valueint
  let _timestamp := (← deref (getObjectItem headItem (str "timestamp"))).valuedouble
  dispatch root msgId

/-- `json_parse` -/
def jsonParse (buf : List Byte) : Exec Int := do
  let root := parseWithLength buf
  match root with
  | some tree =>
    match getObjectItem tree (str "head") with
    | some headItem => parseHead tree headItem
    | none => pure ()
  | none => pure ()
  cJsonDelete root
  return 0

/-! ## How a call runs -/

@[simp] theorem exec_setCmd (f : MqttCmd → MqttCmd) (a : App) :
    exec (setCmd f) a = (.ok (), { a with mqttCmd := f a.mqttCmd }) := rfl

theorem exec_bind {α β : Type} (x : Exec α) (f : α → Exec β) (a : App) :
    exec (x >>= f) a = match exec x a with
      | (.ok y, a') => exec (f y) a'
      | (.error e, a') => (.error e, a') := by
  simp only [exec, ExceptT.run_bind, StateT.run_bind]
  rcases StateT.run (ExceptT.run x) a with ⟨_ | _, _⟩ <;> rfl

@[simp] theorem exec_deref (p : Option Item) (a : App) :
    exec (deref p) a = match p with
      | some item => (.ok item, a)
      | none => (.error .nullDeref, a) := by
  cases p <;> rfl

theorem exec_deref_bind {α : Type} (p : Option Item) (f : Item → Exec α) (a : App) :
    exec (deref p >>= f) a = match p with
      | some item => exec (f item) a
      | none => (.error .nullDeref, a) := by
  rw [exec_bind, exec_deref]
  cases p <;> rfl

theorem exec_setCmd_bind {α : Type} (g : MqttCmd → MqttCmd) (f : Unit → Exec α) (a : App) :
    exec (setCmd g >>= f) a = exec (f ()) { a with mqttCmd := g a.mqttCmd } := by
  rw [exec_bind, exec_setCmd]

/-! ## The members that a message needs -/

def HasAll (item : Item) (names : List (List Byte)) : Prop :=
  ∀ name ∈ names, getObjectItem item name ≠ none

def headNames : List (List Byte) := [str "msg_id", str "msg_no", str "timestamp"]

def dataNames : List (List Byte) :=
  [str "Switch", str "Variable_Val_0", str "Variable_Val_1", str "Variable_Val_2"]

theorem hasAll_headNames_iff (headItem : Item) : HasAll headItem headNames ↔
    getObjectItem headItem (str "msg_id") ≠ none ∧ getObjectItem headItem (str "msg_no") ≠ none ∧
      getObjectItem headItem (str "timestamp") ≠ none := by
  simp [HasAll, headNames]

theorem hasAll_dataNames_iff (dataItem : Item) : HasAll dataItem dataNames ↔
    getObjectItem dataItem (str "Switch") ≠ none ∧
      getObjectItem dataItem (str "Variable_Val_0") ≠ none ∧
        getObjectItem dataItem (str "Variable_Val_1") ≠ none ∧
          getObjectItem dataItem (str "Variable_Val_2") ≠ none := by
  simp [HasAll, dataNames]

/-- The message has every member that is read from it. -/
def Complete (root headItem : Item) : Prop :=
  HasAll headItem headNames ∧
    ∀ msgId, getObjectItem headItem (str "msg_id") = some msgId →
      msgId.valueint = msgDataDownId →
        ∀ dataItem, getObjectItem root (str "data") = some dataItem → HasAll dataItem dataNames

/-- What follows from the members that `data` has. -/
theorem exec_storeData (dataItem : Item) (a : App) :
    exec (storeData dataItem) a =
      match getObjectItem dataItem (str "Switch") with
      | none => (.error .nullDeref, a)
      | some s =>
        match getObjectItem dataItem (str "Variable_Val_0") with
        | none => (.error .nullDeref, { a with mqttCmd.switch := s.valueint })
        | some v₀ =>
          match getObjectItem dataItem (str "Variable_Val_1") with
          | none => (.error .nullDeref,
              { a with mqttCmd.switch := s.valueint, mqttCmd.variableVal0 := v₀.valueint })
          | some v₁ =>
            match getObjectItem dataItem (str "Variable_Val_2") with
            | none => (.error .nullDeref, { a with
                mqttCmd.switch := s.valueint
                mqttCmd.variableVal0 := v₀.valueint
                mqttCmd.variableVal1 := v₁.valueint })
            | some v₂ => (.ok (), { a with
                mqttCmd := ⟨s.valueint, v₀.valueint, v₁.valueint, v₂.valueint⟩ }) := by
  unfold storeData
  cases getObjectItem dataItem (str "Switch") <;>
    cases getObjectItem dataItem (str "Variable_Val_0") <;>
      cases getObjectItem dataItem (str "Variable_Val_1") <;>
        cases getObjectItem dataItem (str "Variable_Val_2") <;>
          simp only [exec_deref_bind, exec_setCmd_bind, exec_setCmd]

theorem storeData_ok_iff (dataItem : Item) (a : App) :
    (exec (storeData dataItem) a).1 = .ok () ↔ HasAll dataItem dataNames := by
  rw [exec_storeData, hasAll_dataNames_iff]
  cases getObjectItem dataItem (str "Switch") with
  | none => simp
  | some _ =>
    cases getObjectItem dataItem (str "Variable_Val_0") with
    | none => simp
    | some _ =>
      cases getObjectItem dataItem (str "Variable_Val_1") with
      | none => simp
      | some _ => cases getObjectItem dataItem (str "Variable_Val_2") <;> simp

theorem exec_dispatch (root : Item) (msgId : BitVec 32) (a : App) :
    exec (dispatch root msgId) a =
      if msgId = msgDataDownId then
        match getObjectItem root (str "data") with
        | some dataItem => exec (storeData dataItem) a
        | none => (.ok (), a)
      else (.ok (), a) := by
  unfold dispatch
  by_cases h : msgId = msgDataDownId
  · subst h
    simp only [msgDataDownId_ne_powerOn, msgDataDownId_ne_hraet, if_false, if_true]
    cases getObjectItem root (str "data") <;> rfl
  · simp only [h, if_false]
    split
    · rfl
    · split <;> rfl

theorem dispatch_ok_iff (root : Item) (msgId : BitVec 32) (a : App) :
    (exec (dispatch root msgId) a).1 = .ok () ↔
      (msgId = msgDataDownId → ∀ dataItem, getObjectItem root (str "data") = some dataItem →
        HasAll dataItem dataNames) := by
  rw [exec_dispatch]
  split
  · rename_i h
    cases getObjectItem root (str "data") with
    | none => simp [h]
    | some dataItem => simp [h, storeData_ok_iff]
  · rename_i h
    simp [h]

theorem exec_parseHead (root headItem : Item) (a : App) :
    exec (parseHead root headItem) a =
      match getObjectItem headItem (str "msg_id"), getObjectItem headItem (str "msg_no"),
        getObjectItem headItem (str "timestamp") with
      | some msgId, some _, some _ => exec (dispatch root msgId.valueint) a
      | _, _, _ => (.error .nullDeref, a) := by
  unfold parseHead
  cases getObjectItem headItem (str "msg_id") <;>
    cases getObjectItem headItem (str "msg_no") <;>
      cases getObjectItem headItem (str "timestamp") <;>
        simp only [exec_deref_bind]

theorem parseHead_ok_iff (root headItem : Item) (a : App) :
    (exec (parseHead root headItem) a).1 = .ok () ↔ Complete root headItem := by
  rw [exec_parseHead, Complete, hasAll_headNames_iff]
  cases getObjectItem headItem (str "msg_id") with
  | none => simp
  | some msgId =>
    cases getObjectItem headItem (str "msg_no") with
    | none => simp
    | some _ =>
      cases getObjectItem headItem (str "timestamp") with
      | none => simp
      | some _ => simp [dispatch_ok_iff]

theorem exec_jsonParse (buf : List Byte) (a : App) :
    exec (jsonParse buf) a =
      match parseWithLength buf with
      | none => (.ok 0, a)
      | some root =>
        match getObjectItem root (str "head") with
        | none => (.ok 0, { a with deleted := a.deleted + 1 })
        | some headItem =>
          match exec (parseHead root headItem) a with
          | (.ok (), a') => (.ok 0, { a' with deleted := a'.deleted + 1 })
          | (.error e, a') => (.error e, a') := by
  unfold jsonParse
  cases parseWithLength buf with
  | none => rfl
  | some root =>
    cases hhead : getObjectItem root (str "head") with
    | none => simp only [hhead]; rfl
    | some headItem =>
      simp only [hhead, exec_bind]
      rcases exec (parseHead root headItem) a with ⟨_ | _, _⟩ <;> rfl

/-- **No null pointer, exactly.** A payload is rejected, or has no head, or
has every member that is read from it. -/
theorem jsonParse_noNull_iff (buf : List Byte) (a : App) :
    (exec (jsonParse buf) a).1 ≠ .error .nullDeref ↔
      ∀ root, parseWithLength buf = some root →
        ∀ headItem, getObjectItem root (str "head") = some headItem → Complete root headItem := by
  rw [exec_jsonParse]
  cases parseWithLength buf with
  | none => simp
  | some root =>
    simp only [Option.some.injEq, forall_eq']
    cases hhead : getObjectItem root (str "head") with
    | none => simp
    | some headItem =>
      simp only [Option.some.injEq, forall_eq']
      have hok := parseHead_ok_iff root headItem a
      rcases hexec : exec (parseHead root headItem) a with ⟨e | u, a'⟩
      · cases e
        rw [hexec] at hok
        simpa using hok
      · rw [hexec] at hok
        simpa using hok

/-- An empty head is enough to follow a null pointer. -/
theorem jsonParse_null_at_empty_head :
    ¬ ∀ (buf : List Byte) (a : App), (exec (jsonParse buf) a).1 ≠ .error .nullDeref := by
  intro h
  have hnull : (exec (jsonParse (str "\x7b\"head\":\x7b\x7d\x7d")) ⟨⟨0, 0, 0, 0⟩, 0⟩).1 =
      .error .nullDeref := by decide +kernel
  exact h _ _ hnull

/-! ## All or nothing -/

def headOf (buf : List Byte) : Option Item :=
  (parseWithLength buf).bind fun root => getObjectItem root (str "head")

def dataOf (buf : List Byte) : Option Item :=
  (parseWithLength buf).bind fun root => getObjectItem root (str "data")

def msgIdOf (buf : List Byte) : Option (BitVec 32) :=
  (headOf buf).bind fun headItem => (getObjectItem headItem (str "msg_id")).map Item.valueint

/-- The command in `data`, when all four members are there. -/
def commandOf (dataItem : Item) : Option MqttCmd := do
  let s ← getObjectItem dataItem (str "Switch")
  let v₀ ← getObjectItem dataItem (str "Variable_Val_0")
  let v₁ ← getObjectItem dataItem (str "Variable_Val_1")
  let v₂ ← getObjectItem dataItem (str "Variable_Val_2")
  some ⟨s.valueint, v₀.valueint, v₁.valueint, v₂.valueint⟩

/-- `mqtt_cmd` is what it was, or the whole command of the payload. -/
def AllOrNothing (buf : List Byte) (old new : MqttCmd) : Prop :=
  new = old ∨ ∃ dataItem, dataOf buf = some dataItem ∧ commandOf dataItem = some new

/-- The fields in the order in which they are stored. -/
def fields (c : MqttCmd) : List (List Byte × BitVec 32) :=
  [(str "Switch", c.switch), (str "Variable_Val_0", c.variableVal0),
    (str "Variable_Val_1", c.variableVal1), (str "Variable_Val_2", c.variableVal2)]

/-- Every member in front of the first missing one has the value that the
field holds already. -/
def SameUpToGap (dataItem : Item) : List (List Byte × BitVec 32) → Prop
  | [] => True
  | (name, old) :: rest =>
    ∀ item, getObjectItem dataItem name = some item →
      item.valueint = old ∧ SameUpToGap dataItem rest

/-- No field is stored, or all are, or those that are stored do not change. -/
def NoTear (buf : List Byte) (old : MqttCmd) : Prop :=
  ∀ headItem, headOf buf = some headItem → HasAll headItem headNames →
    ∀ dataItem, dataOf buf = some dataItem →
      HasAll dataItem dataNames ∨ SameUpToGap dataItem (fields old)

theorem storeData_allOrNothing_iff (dataItem : Item) (a : App) :
    ((exec (storeData dataItem) a).2.mqttCmd = a.mqttCmd ∨
      commandOf dataItem = some (exec (storeData dataItem) a).2.mqttCmd) ↔
    HasAll dataItem dataNames ∨ SameUpToGap dataItem (fields a.mqttCmd) := by
  obtain ⟨⟨s, v₀, v₁, v₂⟩, deleted⟩ := a
  rw [exec_storeData, hasAll_dataNames_iff]
  simp only [commandOf, SameUpToGap, fields]
  cases getObjectItem dataItem (str "Switch") with
  | none => simp
  | some _ =>
    cases getObjectItem dataItem (str "Variable_Val_0") with
    | none => simp
    | some _ =>
      cases getObjectItem dataItem (str "Variable_Val_1") with
      | none => simp
      | some _ => cases getObjectItem dataItem (str "Variable_Val_2") <;> simp

/-- **All or nothing, exactly.** -/
theorem jsonParse_allOrNothing_iff {buf : List Byte} (h : msgIdOf buf = some msgDataDownId)
    (a : App) :
    AllOrNothing buf a.mqttCmd (exec (jsonParse buf) a).2.mqttCmd ↔ NoTear buf a.mqttCmd := by
  simp only [msgIdOf, headOf, Option.bind_eq_some_iff, Option.map_eq_some_iff] at h
  obtain ⟨headItem, ⟨root, hroot, hhead⟩, msgId, hmsgId, hid⟩ := h
  have hrun : (exec (jsonParse buf) a).2.mqttCmd =
      (exec (parseHead root headItem) a).2.mqttCmd := by
    rw [exec_jsonParse, hroot]
    simp only [hhead]
    rcases exec (parseHead root headItem) a with ⟨_ | _, _⟩ <;> rfl
  rw [hrun, exec_parseHead, hmsgId]
  simp only [AllOrNothing, NoTear, headOf, dataOf, hroot, hhead, Option.bind_some,
    Option.some.injEq, forall_eq', hasAll_headNames_iff, hmsgId]
  cases getObjectItem headItem (str "msg_no") with
  | none => simp
  | some _ =>
    cases getObjectItem headItem (str "timestamp") with
    | none => simp
    | some _ =>
      simp only [exec_dispatch, hid, if_true]
      cases hdata : getObjectItem root (str "data") with
      | none => simp
      | some dataItem => simpa using storeData_allOrNothing_iff dataItem a

/-- A message 5004 with all the members of its head and the given `data`. -/
def message (data : String) : List Byte :=
  str ("\x7b\"head\":\x7b\"msg_id\":5004,\"msg_no\":1,\"timestamp\":2\x7d,\"data\":" ++ data ++ "\x7d")

theorem jsonParse_allOrNothing_null_data :
    msgIdOf (message "null") = some msgDataDownId ∧
      (AllOrNothing (message "null") ⟨7, 8, 9, 10⟩
          (exec (jsonParse (message "null")) ⟨⟨7, 8, 9, 10⟩, 0⟩).2.mqttCmd ↔
        NoTear (message "null") ⟨7, 8, 9, 10⟩) :=
  ⟨by decide +kernel, jsonParse_allOrNothing_iff (by decide +kernel) ⟨⟨7, 8, 9, 10⟩, 0⟩⟩

/-- Only the first member is there: the new `Switch` stays with old values. -/
theorem jsonParse_tears_at_missing_member :
    ¬ ∀ (buf : List Byte) (a : App), msgIdOf buf = some msgDataDownId →
      AllOrNothing buf a.mqttCmd (exec (jsonParse buf) a).2.mqttCmd := by
  intro h
  have hnew : (exec (jsonParse (message "\x7b\"Switch\":1\x7d")) ⟨⟨0, 0, 0, 0⟩, 0⟩).2.mqttCmd =
      ⟨1, 0, 0, 0⟩ := by decide +kernel
  have hnone : (dataOf (message "\x7b\"Switch\":1\x7d")).bind commandOf = none := by decide +kernel
  rcases h (message "\x7b\"Switch\":1\x7d") ⟨⟨0, 0, 0, 0⟩, 0⟩ (by decide +kernel) with
    e | ⟨d, hd, hc⟩
  · rw [hnew] at e
    revert e
    decide
  · rw [hd, Option.bind_some, hc] at hnone
    cases hnone

end MqttDevice.Command
