import MqttDevice.CJson.Prefix
import MqttDevice.Command
import MqttDevice.Lib.Runs

/-!
# Inbound payloads (`mqtt_incoming_data_cb`, `json_parse`, `data_task`)

The program of `Command` again, on a machine where a load through a null pointer may
be answered: `zero` is the item that the memory at address 0 looks like, or `none` where
such a load faults.

* `does_jsonParseAt`: what a payload stores in `mqtt_cmd`, read off its parse tree;
* `reset_ordered_iff`: along every sequence of payloads the device is reset on command
  only, if and only if each payload that is taken for an order while bit 0 is clear is one;
* `fragments_iff`: when the pieces of a payload have the effect of the whole, by the
  commands among the pieces: a first piece with a closed object decides for the payload.
-/

namespace MqttDevice.Inbound

open MqttDevice.Ascii MqttDevice.CJson MqttDevice.Command MqttDevice.Runs

/-! ## The program -/

section Program

variable (zero : Option Item)

/-- The item read through a pointer that may be null. -/
def derefAt (p : Option Item) : Exec Item := deref (p.or zero)

def storeDataAt (dataItem : Item) : Exec Unit := do
  let item ← derefAt zero (getObjectItem dataItem (str "Switch"))
  setCmd fun c => { c with switch := item.valueint }
  let item ← derefAt zero (getObjectItem dataItem (str "Variable_Val_0"))
  setCmd fun c => { c with variableVal0 := item.valueint }
  let item ← derefAt zero (getObjectItem dataItem (str "Variable_Val_1"))
  setCmd fun c => { c with variableVal1 := item.valueint }
  let item ← derefAt zero (getObjectItem dataItem (str "Variable_Val_2"))
  setCmd fun c => { c with variableVal2 := item.valueint }

def dispatchAt (root : Item) (msgId : BitVec 32) : Exec Unit :=
  let dataItem := getObjectItem root (str "data")
  if msgId = msgPowerOnId then pure ()
  else if msgId = msgHraetId then pure ()
  else if msgId = msgDataDownId then
    match dataItem with
    | some dataItem => storeDataAt zero dataItem
    | none => pure ()
  else pure ()

def parseHeadAt (root headItem : Item) : Exec Unit := do
  let msgId := (← derefAt zero (getObjectItem headItem (str "msg_id"))).valueint
  let _msgNo := (← derefAt zero (getObjectItem headItem (str "msg_no"))).valueint
  let _timestamp := (← derefAt zero (getObjectItem headItem (str "timestamp"))).valuedouble
  dispatchAt zero root msgId

/-- `json_parse` -/
def jsonParseAt (buf : List Byte) : Exec Int := do
  let root := parseWithLength buf
  match root with
  | some tree =>
    match getObjectItem tree (str "head") with
    | some headItem => parseHeadAt zero tree headItem
    | none => pure ()
  | none => pure ()
  cJsonDelete root
  return 0

def mqttDataFlagLast : BitVec 8 := 1

/-- `mqtt_incoming_data_cb`; the flags are printed and not used. -/
def mqttIncomingDataCb (data : List Byte) (_flags : BitVec 8) : Exec Unit := do
  let _ ← jsonParseAt zero data

end Program

/-- `data_task` calls `ENC28J60_Reset` and `NVIC_SystemReset`. -/
def dataTaskResets (c : MqttCmd) : Bool := c.switch &&& (1 <<< 0) != 0

/-- Where a load through a null pointer faults the program is that of `Command`. -/
theorem parseHeadAt_none : parseHeadAt none = parseHead := by
  have hderef : derefAt none = deref := by
    funext p
    rw [derefAt, Option.or_none]
  have hstore : storeDataAt none = storeData := by
    funext dataItem
    rw [storeDataAt, hderef, storeData]
  have hdispatch : dispatchAt none = dispatch := by
    funext root msgId
    rw [dispatchAt, hstore]
    rfl
  funext root headItem
  rw [parseHeadAt, hderef, hdispatch, parseHead]

theorem jsonParseAt_none : jsonParseAt none = jsonParse := by
  funext buf
  rw [jsonParseAt, parseHeadAt_none]
  rfl

/-! ## What a payload stores -/

/-- The fields in the order in which they are stored. -/
def get (c : MqttCmd) : Fin 4 → BitVec 32
  | 0 => c.switch
  | 1 => c.variableVal0
  | 2 => c.variableVal1
  | 3 => c.variableVal2

theorem get_ext {c c' : MqttCmd} (h : ∀ i, get c i = get c' i) : c = c' := by
  obtain ⟨s, v₀, v₁, v₂⟩ := c
  obtain ⟨s', v₀', v₁', v₂'⟩ := c'
  have h0 : s = s' := h 0
  have h1 : v₀ = v₀' := h 1
  have h2 : v₁ = v₁' := h 2
  have h3 : v₂ = v₂' := h 3
  rw [h0, h1, h2, h3]

/-- Values laid over the fields, from the first one on. -/
def overlay : List (BitVec 32) → MqttCmd → MqttCmd
  | [], c => c
  | [s], c => { c with switch := s }
  | [s, v₀], c => { c with switch := s, variableVal0 := v₀ }
  | [s, v₀, v₁], c => { c with switch := s, variableVal0 := v₀, variableVal1 := v₁ }
  | s :: v₀ :: v₁ :: v₂ :: _, _ => ⟨s, v₀, v₁, v₂⟩

theorem overlay_get (vs : List (BitVec 32)) (c : MqttCmd) (i : Fin 4) :
    get (overlay vs c) i = (vs[i.val]?).getD (get c i) := by
  unfold overlay
  split <;> fin_cases i <;> rfl

/-- The members up to the first one that a null pointer stands for. -/
def values (zero : Option Item) (dataItem : Item) : List (List Byte) → List (BitVec 32)
  | [] => []
  | name :: names =>
    match (getObjectItem dataItem name).or zero with
    | some item => item.valueint :: values zero dataItem names
    | none => []

/-- What a payload stores, and whether the call ends at a null pointer. -/
structure Reading where
  stored : List (BitVec 32)
  ends : Bool

def readingOfHead (zero : Option Item) (root headItem : Item) : Reading :=
  match (getObjectItem headItem (str "msg_id")).or zero,
    (getObjectItem headItem (str "msg_no")).or zero,
    (getObjectItem headItem (str "timestamp")).or zero with
  | some msgId, some _, some _ =>
    if msgId.valueint = msgDataDownId then
      match getObjectItem root (str "data") with
      | some dataItem =>
        let stored := values zero dataItem dataNames
        ⟨stored, stored.length < dataNames.length⟩
      | none => ⟨[], false⟩
    else ⟨[], false⟩
  | _, _, _ => ⟨[], true⟩

/-- The reading of a payload, off its parse tree. -/
def reading (zero : Option Item) (buf : List Byte) : Reading :=
  match parseWithLength buf with
  | some root =>
    match getObjectItem root (str "head") with
    | some headItem => readingOfHead zero root headItem
    | none => ⟨[], false⟩
  | none => ⟨[], false⟩

/-- The call ends as the reading says and leaves the values that it stores. -/
def Does {α : Type} (x : Exec α) (r : Reading) (ok : α) : Prop :=
  ∀ a, (exec x a).1 = (if r.ends then .error .nullDeref else .ok ok) ∧
    (exec x a).2.mqttCmd = overlay r.stored a.mqttCmd

theorem exec_derefAt_bind {α : Type} (zero p : Option Item) (f : Item → Exec α) (a : App) :
    exec (derefAt zero p >>= f) a = match p.or zero with
      | some item => exec (f item) a
      | none => (.error .nullDeref, a) := exec_deref_bind (p.or zero) f a

theorem does_storeDataAt (zero : Option Item) (dataItem : Item) :
    Does (storeDataAt zero dataItem)
      ⟨values zero dataItem dataNames, (values zero dataItem dataNames).length < dataNames.length⟩
      () := by
  intro a
  unfold storeDataAt
  simp only [exec_derefAt_bind, exec_setCmd_bind, exec_setCmd, values, dataNames]
  cases (getObjectItem dataItem (str "Switch")).or zero with
  | none => exact ⟨rfl, rfl⟩
  | some _ =>
    cases (getObjectItem dataItem (str "Variable_Val_0")).or zero with
    | none => exact ⟨rfl, rfl⟩
    | some _ =>
      cases (getObjectItem dataItem (str "Variable_Val_1")).or zero with
      | none => exact ⟨rfl, rfl⟩
      | some _ =>
        cases (getObjectItem dataItem (str "Variable_Val_2")).or zero with
        | none => exact ⟨rfl, rfl⟩
        | some _ => exact ⟨rfl, rfl⟩

theorem does_dispatchAt (zero : Option Item) (root : Item) (msgId : BitVec 32) :
    Does (dispatchAt zero root msgId)
      (if msgId = msgDataDownId then
        match getObjectItem root (str "data") with
        | some dataItem =>
          ⟨values zero dataItem dataNames,
            (values zero dataItem dataNames).length < dataNames.length⟩
        | none => ⟨[], false⟩
      else ⟨[], false⟩) () := by
  intro a
  unfold dispatchAt
  by_cases h : msgId = msgDataDownId
  · subst h
    simp only [msgDataDownId_ne_powerOn, msgDataDownId_ne_hraet, if_false, if_true]
    cases getObjectItem root (str "data") with
    | none => exact ⟨rfl, rfl⟩
    | some dataItem => exact does_storeDataAt zero dataItem a
  · simp only [h, if_false]
    split
    · exact ⟨rfl, rfl⟩
    · split
      · exact ⟨rfl, rfl⟩
      · exact ⟨rfl, rfl⟩

theorem does_parseHeadAt (zero : Option Item) (root headItem : Item) :
    Does (parseHeadAt zero root headItem) (readingOfHead zero root headItem) () := by
  intro a
  unfold parseHeadAt readingOfHead
  simp only [exec_derefAt_bind]
  cases (getObjectItem headItem (str "msg_id")).or zero with
  | none => exact ⟨rfl, rfl⟩
  | some msgId =>
    cases (getObjectItem headItem (str "msg_no")).or zero with
    | none => exact ⟨rfl, rfl⟩
    | some _ =>
      cases (getObjectItem headItem (str "timestamp")).or zero with
      | none => exact ⟨rfl, rfl⟩
      | some _ => exact does_dispatchAt zero root msgId.valueint a

/-- What comes after a call: nothing, if it ends at a null pointer. -/
theorem Does.exec_bind {α β : Type} {x : Exec α} {r : Reading} {ok : α} (h : Does x r ok)
    (f : α → Exec β) (a : App) :
    exec (x >>= f) a =
      if r.ends then (.error .nullDeref, (exec x a).2) else exec (f ok) (exec x a).2 := by
  obtain ⟨hend, -⟩ := h a
  rw [Command.exec_bind]
  rcases hx : exec x a with ⟨e | u, a'⟩
  · rw [hx] at hend
    cases hends : r.ends
    · rw [hends] at hend
      cases hend
    · rw [hends] at hend
      cases hend
      rfl
  · rw [hx] at hend
    cases hends : r.ends
    · rw [hends] at hend
      cases hend
      rfl
    · rw [hends] at hend
      cases hend

/-- A program that leaves `mqtt_cmd` alone may follow. -/
theorem Does.andThen {α β : Type} {x : Exec α} {r : Reading} {ok : α} {ok' : β}
    (h : Does x r ok) {f : α → Exec β}
    (hf : ∀ a, (exec (f ok) a).1 = .ok ok' ∧ (exec (f ok) a).2.mqttCmd = a.mqttCmd) :
    Does (x >>= f) r ok' := by
  intro a
  obtain ⟨-, hcmd⟩ := h a
  rw [h.exec_bind f a]
  cases hends : r.ends
  · exact ⟨(hf _).1, (hf _).2.trans hcmd⟩
  · exact ⟨rfl, hcmd⟩

/-- **What a payload does**, in every state. -/
theorem does_jsonParseAt (zero : Option Item) (buf : List Byte) :
    Does (jsonParseAt zero buf) (reading zero buf) 0 := by
  unfold jsonParseAt reading
  cases parseWithLength buf with
  | none => exact fun a => ⟨rfl, rfl⟩
  | some root =>
    cases hhead : getObjectItem root (str "head") with
    | none =>
      simp only [hhead]
      exact fun a => ⟨rfl, rfl⟩
    | some headItem =>
      simp only [hhead]
      exact (does_parseHeadAt zero root headItem).andThen fun a => ⟨rfl, rfl⟩

theorem does_mqttIncomingDataCb (zero : Option Item) (data : List Byte) (flags : BitVec 8) :
    Does (mqttIncomingDataCb zero data flags) (reading zero data) () :=
  (does_jsonParseAt zero data).andThen fun _ => ⟨rfl, rfl⟩

/-! ## Reset on command only -/

/-- The device, the payloads that have come in so far, and whether a call ended at a
null pointer, which no later one follows. -/
structure Device where
  app : App
  seen : List (List Byte)
  stopped : Bool

/-- `mqtt_cmd` is all zero. -/
def start : Device := ⟨⟨⟨0, 0, 0, 0⟩, 0⟩, [], false⟩

def step (zero : Option Item) (s : Device) (payload : List Byte) : Option Device :=
  if s.stopped then none
  else
    let r := exec (mqttIncomingDataCb zero payload mqttDataFlagLast) s.app
    some ⟨r.2, s.seen ++ [payload], !r.1.isOk⟩

/-- The command to reset: 5004 is written as the `msg_id` of the head, and an odd integer
as the `Switch` of the data. -/
def isOrder (payload : List Byte) : Bool :=
  (parseWithLength payload).isSome &&
    (((rootPlace payload).named (str "head")).any fun headItem =>
      (headItem.named (str "msg_id")).any fun msgId => msgId.number = some 5004) &&
    ((rootPlace payload).named (str "data")).any fun dataItem =>
      (dataItem.named (str "Switch")).any fun item =>
        item.number.any fun q => q.den = 1 && q.num % 2 = 1

/-- A child of this name has the property. -/
def HasChild (object : Item) (name : List Byte) (P : Item → Prop) : Prop :=
  ∃ value, { value with string := some name } ∈ object.child ∧ P value

/-- In the tree of an order both numbers are there. -/
theorem tree_of_order {payload : List Byte} (h : isOrder payload = true) :
    ∃ root, parseWithLength payload = some root ∧
      HasChild root (str "head") (fun headItem =>
        HasChild headItem (str "msg_id") fun item => item = createNumber (Binary64.ofRat 5004)) ∧
      HasChild root (str "data") (fun dataItem =>
        HasChild dataItem (str "Switch") fun item =>
          ∃ n : Int, n % 2 = 1 ∧ item = createNumber (Binary64.ofRat n)) := by
  simp only [isOrder, Bool.and_eq_true, List.any_eq_true, decide_eq_true_eq] at h
  obtain ⟨⟨hroot, _, hhead, _, hid, hnumber⟩, _, hdata, _, hplace, hodd⟩ := h
  obtain ⟨root, hroot⟩ := Option.isSome_iff_exists.mp hroot
  have hitem : (rootPlace payload).item = some root := by
    rw [item_root, hroot]
    rintro rfl
    cases hroot
  refine ⟨root, hroot, ?_, ?_⟩
  · obtain ⟨headItem, hheadItem, hheadMem⟩ := child_of_named hitem hhead
    obtain ⟨item, hitem, hmem⟩ := child_of_named hheadItem hid
    exact ⟨headItem, hheadMem, item, hmem, item_number hitem hnumber⟩
  · obtain ⟨dataItem, hdataItem, hdataMem⟩ := child_of_named hitem hdata
    obtain ⟨item, hitem, hmem⟩ := child_of_named hdataItem hplace
    obtain ⟨q, hq, hint⟩ := (Option.any_eq_true ..).mp hodd
    simp only [Bool.and_eq_true, decide_eq_true_eq] at hint
    refine ⟨dataItem, hdataMem, item, hmem, q.num, hint.2, ?_⟩
    rw [Rat.coe_int_num_of_den_eq_one hint.1]
    exact item_number hitem hq

/-- If `data_task` resets the device now, an order has come in. -/
def Commanded (s : Device) : Prop :=
  dataTaskResets s.app.mqttCmd = true → ∃ p ∈ s.seen, isOrder p = true

/-- The device is reset on command only: the payload that sets bit 0 is an order, and
while the bit is set an order has come in. -/
structure OnCommand (s : Device) (payload : List Byte) (t : Device) : Prop where
  setsBit : dataTaskResets s.app.mqttCmd = false → dataTaskResets t.app.mqttCmd = true →
    isOrder payload = true
  commanded : Commanded t

/-- An item with the `valueint` 5004. -/
def TakenFor5004 (item : Item) : Prop :=
  item.type = .number ∧
    match item.valuedouble with
    | .finite q _ => 5004 ≤ q ∧ q < 5005
    | .inf _ => False

/-- An item with an odd `valueint`: `true`, a number that saturates at the top, or one
with an odd integer part. -/
def TakenForOdd (item : Item) : Prop :=
  item.type = .true ∨ item.type = .number ∧
    match item.valuedouble with
    | .finite q _ => intMax ≤ q ∨ intMin < q ∧ truncate q % 2 = 1
    | .inf neg => neg = false

/-- The first member of the name, whatever its case, is taken so; if there is none, what is
at the address 0 is. -/
def Taken (zero : Option Item) (object : Item) (name : List Byte) (P : Item → Prop)
    (atZero : BitVec 32 → Prop) : Prop :=
  match getObjectItem object name with
  | some item => P item
  | none => ∃ z, zero = some z ∧ atZero z.valueint

/-- The text is taken for a command with this `data`, whose members may be missing. -/
def TakenForCommand (zero : Option Item) (text : List Byte) (dataItem : Item) : Prop :=
  ∃ root headItem, parseWithLength text = some root ∧
    getObjectItem root (str "head") = some headItem ∧
    Taken zero headItem (str "msg_id") TakenFor5004 (fun v => v = msgDataDownId) ∧
    (zero = none → HasAll headItem [str "msg_no", str "timestamp"]) ∧
    getObjectItem root (str "data") = some dataItem

/-- The payload is taken for an order, whether it is one or not. -/
def TakenForOrder (zero : Option Item) (payload : List Byte) : Prop :=
  ∃ dataItem, TakenForCommand zero payload dataItem ∧
    Taken zero dataItem (str "Switch") TakenForOdd (fun v => v.toNat % 2 = 1)

/-- While bit 0 is clear, what is taken for an order is one. -/
def OnlyOrders (zero : Option Item) (s : Device) (payload : List Byte) (_ : Device) : Prop :=
  dataTaskResets s.app.mqttCmd = false → TakenForOrder zero payload → isOrder payload = true

theorem dataTaskResets_iff (c : MqttCmd) :
    dataTaskResets c = true ↔ c.switch.toNat % 2 = 1 := by
  have hand : (c.switch &&& (1 <<< 0)).toNat = c.switch.toNat % 2 := by
    rw [BitVec.toNat_and]
    exact Nat.and_one_is_mod _
  unfold dataTaskResets
  rw [bne_iff_ne, ne_eq, BitVec.toNat_eq, hand]
  show ¬ c.switch.toNat % 2 = 0 ↔ _
  omega

theorem ofInt_odd_iff (n : Int) : (BitVec.ofInt 32 n).toNat % 2 = 1 ↔ n % 2 = 1 := by
  rw [BitVec.toNat_ofInt]
  omega

theorem truncate_bounds {q : ℚ} (hmax : ¬ intMax ≤ q) (hmin : ¬ q ≤ intMin) :
    intMin ≤ truncate q ∧ truncate q ≤ intMax := by
  rw [not_le] at hmax hmin
  unfold truncate
  split
  · rename_i hneg
    have hceil : ⌈q⌉ ≤ 0 := Int.ceil_le.mpr (by exact_mod_cast le_of_lt hneg)
    have hlo : intMin ≤ ⌈q⌉ := by exact_mod_cast le_trans (le_of_lt hmin) (Int.le_ceil q)
    have : (0 : Int) ≤ intMax := by decide
    omega
  · rename_i hnn
    have hfloor : 0 ≤ ⌊q⌋ := Int.floor_nonneg.mpr (not_lt.mp hnn)
    have hhi : ⌊q⌋ ≤ intMax := by exact_mod_cast le_trans (Int.floor_le q) (le_of_lt hmax)
    have : intMin ≤ (0 : Int) := by decide
    omega

theorem saturate_odd_iff (d : Binary64.Double) :
    (saturate d).toNat % 2 = 1 ↔
      match d with
      | .finite q _ => intMax ≤ q ∨ intMin < q ∧ truncate q % 2 = 1
      | .inf neg => neg = false := by
  cases d with
  | finite q hq =>
    simp only [saturate]
    split
    · rename_i hmax
      exact iff_of_true (by decide) (.inl hmax)
    · rename_i hmax
      split
      · rename_i hmin
        refine iff_of_false (by decide) ?_
        rintro (h | ⟨h, -⟩)
        · exact hmax h
        · exact absurd hmin (not_le.mpr h)
      · rename_i hmin
        rw [ofInt_odd_iff]
        constructor
        · exact fun h => .inr ⟨not_le.mp hmin, h⟩
        · rintro (h | ⟨-, h⟩)
          · exact absurd h hmax
          · exact h
  | inf neg => cases neg <;> decide

theorem truncate_eq_5004_iff (q : ℚ) : truncate q = 5004 ↔ 5004 ≤ q ∧ q < 5005 := by
  unfold truncate
  split
  · rename_i hneg
    have hceil : ⌈q⌉ ≤ 0 := Int.ceil_le.mpr (by exact_mod_cast le_of_lt hneg)
    constructor
    · intro h
      omega
    · rintro ⟨h, -⟩
      linarith
  · rw [Int.floor_eq_iff]
    norm_num

theorem saturate_5004_iff (d : Binary64.Double) :
    saturate d = msgDataDownId ↔
      match d with
      | .finite q _ => 5004 ≤ q ∧ q < 5005
      | .inf _ => False := by
  cases d with
  | finite q hq =>
    simp only [saturate]
    split
    · rename_i hmax
      refine iff_of_false (by decide) ?_
      rintro ⟨-, h⟩
      have : (5005 : ℚ) ≤ intMax := by norm_num [intMax]
      linarith
    · rename_i hmax
      split
      · rename_i hmin
        refine iff_of_false (by decide) ?_
        rintro ⟨h, -⟩
        have : (intMin : ℚ) ≤ 0 := by norm_num [intMin]
        linarith
      · rename_i hmin
        obtain ⟨hlo, hhi⟩ := truncate_bounds hmax hmin
        have hint : (BitVec.ofInt 32 (truncate q)).toInt = truncate q := by
          rw [BitVec.toInt_ofInt]
          unfold intMin at hlo
          unfold intMax at hhi
          rw [Int.bmod_def]
          split <;> omega
        have h5004 : msgDataDownId.toInt = 5004 := by decide
        rw [← truncate_eq_5004_iff, ← BitVec.toInt_inj, hint, h5004]
  | inf neg => cases neg <;> decide

theorem valueint_odd_iff {item : Item} (h : CJson.Valued item) :
    item.valueint.toNat % 2 = 1 ↔ TakenForOdd item := by
  unfold CJson.Valued at h
  unfold TakenForOdd
  rw [h]
  split
  · rename_i hnumber
    rw [saturate_odd_iff]
    simp [hnumber]
  · rename_i hnumber
    split
    · rename_i htrue
      exact iff_of_true (by decide) (.inl htrue)
    · rename_i htrue
      exact iff_of_false (by decide) (by simp [htrue, hnumber])

theorem valueint_5004_iff {item : Item} (h : CJson.Valued item) :
    item.valueint = msgDataDownId ↔ TakenFor5004 item := by
  unfold CJson.Valued at h
  unfold TakenFor5004
  rw [h]
  split
  · rename_i hnumber
    rw [saturate_5004_iff]
    simp [hnumber]
  · rename_i hnumber
    refine iff_of_false ?_ (fun hitem => hnumber hitem.1)
    split <;> decide

theorem taken_iff {zero : Option Item} {object : Item} {name : List Byte} {P : Item → Prop}
    {R : BitVec 32 → Prop}
    (hP : ∀ item, getObjectItem object name = some item → (R item.valueint ↔ P item)) :
    Taken zero object name P R ↔
      ∃ item, (getObjectItem object name).or zero = some item ∧ R item.valueint := by
  unfold Taken
  cases hitem : getObjectItem object name with
  | none => simp
  | some item => simpa using (hP item hitem).symm

theorem hasAll_iff_or {zero : Option Item} {object : Item} {names : List (List Byte)} :
    (zero = none → HasAll object names) ↔
      ∀ name ∈ names, (getObjectItem object name).or zero ≠ none := by
  cases zero with
  | none => simp [HasAll]
  | some z => simp

/-- The payload stores an odd `Switch`. -/
def StoresOdd (zero : Option Item) (payload : List Byte) : Prop :=
  ∃ v, (reading zero payload).stored[0]? = some v ∧ v.toNat % 2 = 1

/-- The members are stored up to the first one that is missing. -/
theorem values_iff (zero : Option Item) (dataItem : Item) (names : List (List Byte))
    (i : Fin names.length) (v : BitVec 32) :
    (values zero dataItem names)[i.val]? = some v ↔
      (zero = none → HasAll dataItem (names.take i.val)) ∧
        ∃ item, (getObjectItem dataItem (names.get i)).or zero = some item ∧
          item.valueint = v := by
  rw [hasAll_iff_or]
  induction names with
  | nil => exact i.elim0
  | cons name names ih =>
    cases i using Fin.cases with
    | zero =>
      rw [values]
      cases hitem : (getObjectItem dataItem name).or zero <;> simp [hitem]
    | succ i =>
      rw [values]
      simp only [Fin.val_succ, List.take_succ_cons, List.forall_mem_cons]
      cases hitem : (getObjectItem dataItem name).or zero with
      | none => simp
      | some item =>
        simp only [List.getElem?_cons_succ, ne_eq, reduceCtorEq, not_false_eq_true, true_and]
        exact ih i

theorem readingOfHead_iff (zero : Option Item) (root headItem : Item) (i : Fin 4)
    (v : BitVec 32) :
    (readingOfHead zero root headItem).stored[i.val]? = some v ↔
      ∃ dataItem, getObjectItem root (str "data") = some dataItem ∧
        (∃ msgId, (getObjectItem headItem (str "msg_id")).or zero = some msgId ∧
          msgId.valueint = msgDataDownId) ∧
        (zero = none → HasAll headItem [str "msg_no", str "timestamp"]) ∧
        (values zero dataItem dataNames)[i.val]? = some v := by
  unfold readingOfHead
  simp only [hasAll_iff_or, List.forall_mem_cons, List.not_mem_nil, false_implies, implies_true,
    and_true]
  cases (getObjectItem headItem (str "msg_id")).or zero with
  | none => simp
  | some msgId =>
    cases (getObjectItem headItem (str "msg_no")).or zero with
    | none => simp
    | some _ =>
      cases (getObjectItem headItem (str "timestamp")).or zero with
      | none => simp
      | some _ =>
        by_cases hid : msgId.valueint = msgDataDownId
        · cases getObjectItem root (str "data") with
          | none => simp [hid]
          | some dataItem => simp [hid]
        · simp [hid]

/-- **What a payload stores in a field**, off its tree. -/
theorem stored_iff (zero : Option Item) (payload : List Byte) (i : Fin 4) (v : BitVec 32) :
    (reading zero payload).stored[i.val]? = some v ↔
      ∃ dataItem, TakenForCommand zero payload dataItem ∧
        (zero = none → HasAll dataItem (dataNames.take i.val)) ∧
          ∃ item, (getObjectItem dataItem (dataNames.get i)).or zero = some item ∧
            item.valueint = v := by
  unfold reading TakenForCommand
  cases hroot : parseWithLength payload with
  | none => simp
  | some root =>
    simp only [Option.some.injEq, exists_and_left, exists_eq_left']
    cases hhead : getObjectItem root (str "head") with
    | none => simp
    | some headItem =>
      have hin := within_getObjectItem hhead (.self root)
      rw [readingOfHead_iff]
      simp only [Option.some.injEq, exists_eq_left']
      refine exists_congr fun dataItem => ?_
      rw [taken_iff fun item hitem =>
        valueint_5004_iff (parseWithLength_valued hroot (within_getObjectItem hitem hin)),
        ← values_iff zero dataItem dataNames i v]
      tauto

theorem valued_of_command {zero : Option Item} {text : List Byte} {dataItem : Item}
    (h : TakenForCommand zero text dataItem) {name : List Byte} {item : Item}
    (hitem : getObjectItem dataItem name = some item) : CJson.Valued item := by
  obtain ⟨root, _, hroot, -, -, -, hdata⟩ := h
  exact parseWithLength_valued hroot
    (within_getObjectItem hitem (within_getObjectItem hdata (.self root)))

theorem storesOdd_iff (zero : Option Item) (payload : List Byte) :
    StoresOdd zero payload ↔ TakenForOrder zero payload := by
  have hnone (dataItem : Item) : zero = none → HasAll dataItem (dataNames.take 0) :=
    fun _ => List.forall_mem_nil _
  constructor
  · rintro ⟨v, hv, hodd⟩
    obtain ⟨dataItem, hcommand, -, item, hitem, rfl⟩ := (stored_iff zero payload 0 v).mp hv
    exact ⟨dataItem, hcommand, (taken_iff fun x hx =>
      valueint_odd_iff (valued_of_command hcommand hx)).mpr ⟨item, hitem, hodd⟩⟩
  · rintro ⟨dataItem, hcommand, htaken⟩
    obtain ⟨item, hitem, hodd⟩ := (taken_iff fun x hx =>
      valueint_odd_iff (valued_of_command hcommand hx)).mp htaken
    exact ⟨item.valueint, (stored_iff zero payload 0 _).mpr
      ⟨dataItem, hcommand, hnone dataItem, item, hitem, rfl⟩, hodd⟩

/-- What one payload does to the field that `data_task` looks at. -/
theorem step_resets {zero : Option Item} {s t : Device} {payload : List Byte}
    (h : step zero s payload = some t) :
    t.seen = s.seen ++ [payload] ∧
      (dataTaskResets t.app.mqttCmd = true → TakenForOrder zero payload ∨
        dataTaskResets s.app.mqttCmd = true) ∧
      (TakenForOrder zero payload → dataTaskResets t.app.mqttCmd = true) := by
  unfold step at h
  split at h
  · cases h
  cases h
  obtain ⟨-, hcmd⟩ := does_mqttIncomingDataCb zero payload mqttDataFlagLast s.app
  have hswitch := overlay_get (reading zero payload).stored s.app.mqttCmd 0
  rw [← hcmd] at hswitch
  simp only [get, Fin.val_zero] at hswitch
  rw [dataTaskResets_iff, dataTaskResets_iff, ← storesOdd_iff]
  refine ⟨rfl, ?_, ?_⟩
  · intro hodd
    rw [hswitch] at hodd
    cases hv : (reading zero payload).stored[0]? with
    | none =>
      rw [hv] at hodd
      exact .inr hodd
    | some v =>
      rw [hv] at hodd
      exact .inl ⟨v, hv, hodd⟩
  · rintro ⟨v, hv, hodd⟩
    rw [hswitch, hv]
    exact hodd

theorem commanded_start : Commanded start := by
  intro h
  revert h
  decide

theorem setsBit_iff {zero : Option Item} {s t : Device} {payload : List Byte}
    (h : step zero s payload = some t) :
    (dataTaskResets s.app.mqttCmd = false → dataTaskResets t.app.mqttCmd = true →
        isOrder payload = true) ↔ OnlyOrders zero s payload t := by
  obtain ⟨-, hto, hfrom⟩ := step_resets h
  refine forall_congr' fun hclear => ⟨fun hset htaken => hset (hfrom htaken), fun hg hset => ?_⟩
  rcases hto hset with htaken | hold
  · exact hg htaken
  · rw [hclear] at hold
    cases hold

/-- The bit was set before, and an order was in, or this payload is one. -/
theorem commanded_step {zero : Option Item} {s t : Device} {payload : List Byte} (hs : Commanded s)
    (h : step zero s payload = some t) (hg : OnlyOrders zero s payload t) : Commanded t := by
  intro hreset
  rw [(step_resets h).1]
  cases hclear : dataTaskResets s.app.mqttCmd with
  | false =>
    exact ⟨payload, List.mem_append_right _ (List.mem_singleton_self _),
      (setsBit_iff h).mpr hg hclear hreset⟩
  | true =>
    obtain ⟨p, hp, horder⟩ := hs hclear
    exact ⟨p, List.mem_append_left _ hp, horder⟩

/-- **Reset on command only, exactly**: in a history in which whatever is taken for an
order while bit 0 is clear is one, and in no other. -/
theorem reset_ordered_iff (zero : Option Item) (payloads : List (List Byte)) :
    Along (step zero) OnCommand start payloads ↔
      Along (step zero) (OnlyOrders zero) start payloads := by
  refine along_iff (I := Commanded) ?_ ?_ payloads commanded_start
  · exact fun s payload t hs h hg => commanded_step hs h hg
  · intro s payload t hs h
    exact ⟨fun ho => (setsBit_iff h).mp ho.setsBit,
      fun hg => ⟨(setsBit_iff h).mpr hg, commanded_step hs h hg⟩⟩

/-- The members of `data` with the given `Switch`. -/
def command (switch : String) : List Byte :=
  message ("\x7b\"Switch\":" ++ switch ++
    ",\"Variable_Val_0\":0,\"Variable_Val_1\":0,\"Variable_Val_2\":0\x7d")

example : isOrder (command "-3") = true := by decide +kernel

/-- Only bit 31 is set in the command: it saturates to a number with all bits below. -/
theorem reset_at_bit_31 :
    ¬ ∀ (zero : Option Item) (payloads : List (List Byte)),
      Along (step zero) OnCommand start payloads := by
  intro h
  have horder : isOrder (command "2147483648") = false := by decide +kernel
  have hreset : (step none start (command "2147483648")).map
      (fun t => dataTaskResets t.app.mqttCmd) = some true := by decide +kernel
  obtain ⟨t, ht, hodd⟩ := Option.map_eq_some_iff.mp hreset
  have hset := (h none [command "2147483648"] t ht).1.setsBit (by decide) hodd
  rw [horder] at hset
  cases hset

/-! ## Payloads in pieces -/

/-- The calls for a payload in pieces; none follows one that ended abnormally. -/
def deliver (zero : Option Item) : List (List Byte) → Exec Unit
  | [] => pure ()
  | [piece] => mqttIncomingDataCb zero piece mqttDataFlagLast
  | piece :: pieces => do
    mqttIncomingDataCb zero piece 0
    deliver zero pieces

/-- The integer that an item stands for: a number without its fraction and saturated, 1 for
`true`, 0 for anything else. -/
def integerOf (item : Item) : BitVec 32 :=
  if item.type = .number then saturate item.valuedouble else if item.type = .true then 1 else 0

/-- A command with `v` for the field `i`: the member is in its `data`, and so are those of
the fields before. -/
def Carries (zero : Option Item) (text : List Byte) (i : Fin 4) (v : BitVec 32) : Prop :=
  ∃ dataItem, TakenForCommand zero text dataItem ∧
    (zero = none → HasAll dataItem (dataNames.take i.val)) ∧
    Taken zero dataItem (dataNames.get i) (fun item => integerOf item = v) (fun w => w = v)

/-- A member that is looked up is missing, where this ends the call. -/
def Faults (zero : Option Item) (text : List Byte) : Prop :=
  zero = none ∧ ∃ root headItem, parseWithLength text = some root ∧
    getObjectItem root (str "head") = some headItem ∧ ¬ Complete root headItem

/-- Of the pieces that are delivered, the last command with the field `i` has `v` for it. -/
def LastCarries (zero : Option Item) (i : Fin 4) : List (List Byte) → BitVec 32 → Prop
  | [], _ => False
  | piece :: pieces, v =>
    ¬ Faults zero piece ∧ LastCarries zero i pieces v ∨
      Carries zero piece i v ∧ (Faults zero piece ∨ ∀ w, ¬ LastCarries zero i pieces w)

/-- The text is accepted as an object: its brace is closed. -/
def Closed (text : List Byte) : Prop :=
  ∃ root, parseWithLength text = some root ∧ root.type = .object

/-- The text is a command with `v` for the field, or the field holds `v` and the text is no
command with this field. -/
def CarriesOrKeeps (zero : Option Item) (text : List Byte) (i : Fin 4) (old v : BitVec 32) : Prop :=
  Carries zero text i v ∨ (∀ w, ¬ Carries zero text i w) ∧ old = v

/-- Which of the pieces may be commands. If the object of the first piece is closed, it is
what the payload is read as, and what a later command has for a field must be what it has.
If it is not, the first piece does nothing: a later command must have what the payload has,
and without one the payload must have what the field held. -/
def PiecesAgree (zero : Option Item) (c : MqttCmd) : List (List Byte) → Prop
  | [] => True
  | first :: rest =>
    (Closed first → Faults zero first ∨
      ∀ i v, LastCarries zero i rest v → CarriesOrKeeps zero first i (get c i) v) ∧
    (¬ Closed first → ∀ i,
      (∀ v, LastCarries zero i rest v →
        CarriesOrKeeps zero (first ++ rest.flatten) i (get c i) v) ∧
      ((∀ v, ¬ LastCarries zero i rest v) →
        ∀ v, Carries zero (first ++ rest.flatten) i v → get c i = v))

/-- What a text by itself stores in a field. -/
def storedIn (zero : Option Item) (i : Fin 4) (text : List Byte) : Option (BitVec 32) :=
  (reading zero text).stored[i.val]?

/-- The last of the pieces that stores something in the field decides; none follows one
whose call ends at a null pointer. -/
def lastStored (zero : Option Item) (i : Fin 4) : List (List Byte) → Option (BitVec 32)
  | [] => none
  | piece :: pieces =>
    if (reading zero piece).ends then storedIn zero i piece
    else (lastStored zero i pieces).or (storedIn zero i piece)

theorem get_callback (zero : Option Item) (data : List Byte) (flags : BitVec 8) (a : App)
    (i : Fin 4) :
    get (exec (mqttIncomingDataCb zero data flags) a).2.mqttCmd i =
      (storedIn zero i data).getD (get a.mqttCmd i) := by
  rw [(does_mqttIncomingDataCb zero data flags a).2, overlay_get]
  rfl

/-- The flags make no difference to the calls. -/
theorem exec_deliver_cons (zero : Option Item) (piece : List Byte) (pieces : List (List Byte))
    (a : App) :
    (exec (deliver zero (piece :: pieces)) a).2 =
      if (reading zero piece).ends then (exec (mqttIncomingDataCb zero piece 0) a).2
      else (exec (deliver zero pieces) (exec (mqttIncomingDataCb zero piece 0) a).2).2 := by
  cases pieces with
  | nil => split <;> rfl
  | cons next pieces =>
    have hcalls : deliver zero (piece :: next :: pieces) =
        mqttIncomingDataCb zero piece 0 >>= fun _ => deliver zero (next :: pieces) := rfl
    rw [hcalls, (does_mqttIncomingDataCb zero piece 0).exec_bind]
    split <;> rfl

/-- By induction on the pieces, in every state. -/
theorem get_deliver (zero : Option Item) (pieces : List (List Byte)) (a : App) (i : Fin 4) :
    get (exec (deliver zero pieces) a).2.mqttCmd i =
      (lastStored zero i pieces).getD (get a.mqttCmd i) := by
  induction pieces generalizing a with
  | nil => rfl
  | cons piece pieces ih =>
    rw [exec_deliver_cons, lastStored]
    split
    · exact get_callback zero piece 0 a i
    · rw [ih, get_callback]
      cases lastStored zero i pieces <;> rfl

/-! ## The commands among the pieces -/

theorem length_values (z : Item) (dataItem : Item) (names : List (List Byte)) :
    (values (some z) dataItem names).length = names.length := by
  induction names with
  | nil => rfl
  | cons name names ih =>
    rw [values]
    cases hitem : getObjectItem dataItem name <;> simp [ih]

/-- Where null pointers are answered no call ends at one. -/
theorem readingOfHead_some (z root headItem : Item) :
    (readingOfHead (some z) root headItem).ends = false := by
  unfold readingOfHead
  simp only [Option.or_some, length_values]
  split
  · cases getObjectItem root (str "data") with
    | none => rfl
    | some dataItem => simp
  · rfl

theorem readingOfHead_none (root headItem : Item) :
    (readingOfHead none root headItem).ends = true ↔ ¬ Complete root headItem := by
  have hok := parseHead_ok_iff root headItem start.app
  rw [← parseHeadAt_none, (does_parseHeadAt none root headItem start.app).1] at hok
  rw [← hok]
  cases (readingOfHead none root headItem).ends <;> simp

theorem ends_iff (zero : Option Item) (text : List Byte) :
    (reading zero text).ends = true ↔ Faults zero text := by
  unfold reading Faults
  cases hroot : parseWithLength text with
  | none => simp
  | some root =>
    simp only [Option.some.injEq, exists_and_left, exists_eq_left']
    cases hhead : getObjectItem root (str "head") with
    | none => simp
    | some headItem =>
      cases zero with
      | some z => simp [readingOfHead_some]
      | none => simp [readingOfHead_none]

theorem storedIn_iff (zero : Option Item) (text : List Byte) (i : Fin 4) (v : BitVec 32) :
    storedIn zero i text = some v ↔ Carries zero text i v := by
  rw [storedIn, stored_iff]
  refine exists_congr fun dataItem => and_congr_right fun hcommand => and_congr_right fun _ => ?_
  refine (taken_iff (R := fun w => w = v) fun item hitem => ?_).symm
  have hvalued : item.valueint = integerOf item := valued_of_command hcommand hitem
  rw [hvalued]

theorem storedIn_eq_none_iff (zero : Option Item) (text : List Byte) (i : Fin 4) :
    storedIn zero i text = none ↔ ∀ v, ¬ Carries zero text i v := by
  simp only [← storedIn_iff, Option.eq_none_iff_forall_ne_some, ne_eq]

/-- By induction on the pieces. -/
theorem lastStored_iff (zero : Option Item) (i : Fin 4) (pieces : List (List Byte))
    (v : BitVec 32) : lastStored zero i pieces = some v ↔ LastCarries zero i pieces v := by
  induction pieces generalizing v with
  | nil => simp [lastStored, LastCarries]
  | cons piece pieces ih =>
    rw [lastStored, LastCarries, ← ends_iff, ← storedIn_iff]
    simp only [← ih]
    cases (reading zero piece).ends with
    | true => simp
    | false => cases lastStored zero i pieces <;> simp

/-- What a text leaves in a field. -/
theorem getD_storedIn_iff (zero : Option Item) (text : List Byte) (i : Fin 4)
    (old v : BitVec 32) :
    v = (storedIn zero i text).getD old ↔ CarriesOrKeeps zero text i old v := by
  rw [CarriesOrKeeps, ← storedIn_iff, ← storedIn_eq_none_iff]
  cases storedIn zero i text <;> simp [eq_comm]

/-- A closed object is all that is read of a text. -/
theorem reading_append {text : List Byte} (h : Closed text) (zero : Option Item)
    (more : List Byte) : reading zero (text ++ more) = reading zero text := by
  obtain ⟨root, hroot, htype⟩ := h
  rw [reading, reading, parseWithLength_append hroot htype, hroot]

/-- Without one nothing is read of it. -/
theorem reading_open {text : List Byte} (h : ¬ Closed text) (zero : Option Item) :
    reading zero text = ⟨[], false⟩ := by
  rw [reading]
  cases hroot : parseWithLength text with
  | none => rfl
  | some root =>
    have hhead : getObjectItem root (str "head") = none :=
      getObjectItem_of_not_object hroot (fun htype => h ⟨root, hroot, htype⟩) _
    simp only [hhead]

/-- The first piece has a closed object. -/
theorem agree_closed {first : List Byte} (h : Closed first) (zero : Option Item)
    (rest : List (List Byte)) (old : BitVec 32) (i : Fin 4) :
    (lastStored zero i (first :: rest)).getD old =
        (storedIn zero i (first ++ rest.flatten)).getD old ↔
      Faults zero first ∨
        ∀ v, LastCarries zero i rest v → CarriesOrKeeps zero first i old v := by
  have hwhole : storedIn zero i (first ++ rest.flatten) = storedIn zero i first := by
    rw [storedIn, reading_append h, storedIn]
  simp only [hwhole, lastStored, ← ends_iff, ← lastStored_iff, ← getD_storedIn_iff]
  split
  · rename_i hends
    simp [hends]
  · rename_i hends
    cases lastStored zero i rest <;> simp [hends]

/-- The first piece has none. -/
theorem agree_open {first : List Byte} (h : ¬ Closed first) (zero : Option Item)
    (rest : List (List Byte)) (old : BitVec 32) (i : Fin 4) :
    (lastStored zero i (first :: rest)).getD old =
        (storedIn zero i (first ++ rest.flatten)).getD old ↔
      (∀ v, LastCarries zero i rest v →
        CarriesOrKeeps zero (first ++ rest.flatten) i old v) ∧
      ((∀ v, ¬ LastCarries zero i rest v) →
        ∀ v, Carries zero (first ++ rest.flatten) i v → old = v) := by
  have hfirst : storedIn zero i first = none := by rw [storedIn, reading_open h]; rfl
  have hends : (reading zero first).ends = false := by rw [reading_open h]
  simp only [lastStored, hends, hfirst, ← lastStored_iff, ← getD_storedIn_iff, ← storedIn_iff]
  cases lastStored zero i rest with
  | none => cases storedIn zero i (first ++ rest.flatten) <;> simp
  | some v => simp

/-- When no piece behind the first is a command, the first must have the whole object, or the
payload must be no command with anything new. -/
theorem piecesAgree_no_later {zero : Option Item} {c : MqttCmd} {first : List Byte}
    {rest : List (List Byte)}
    (h : ∀ piece ∈ rest, ∀ dataItem, ¬ TakenForCommand zero piece dataItem) :
    PiecesAgree zero c (first :: rest) ↔
      Closed first ∨ ∀ i v, Carries zero (first ++ rest.flatten) i v → get c i = v := by
  have hnone : ∀ i v, ¬ LastCarries zero i rest v := by
    intro i v
    induction rest with
    | nil => exact id
    | cons piece pieces ih =>
      obtain ⟨hpiece, hpieces⟩ := List.forall_mem_cons.mp h
      rintro (⟨-, hlast⟩ | ⟨⟨dataItem, htaken, -⟩, -⟩)
      · exact ih hpieces hlast
      · exact hpiece dataItem htaken
  by_cases hclosed : Closed first <;> simp [PiecesAgree, hclosed, hnone]

/-- **Pieces and whole, exactly**: by the commands among the pieces. -/
theorem fragments_iff (zero : Option Item) (pieces : List (List Byte)) (a : App) :
    (exec (deliver zero pieces) a).2.mqttCmd =
        (exec (mqttIncomingDataCb zero pieces.flatten mqttDataFlagLast) a).2.mqttCmd ↔
      PiecesAgree zero a.mqttCmd pieces := by
  have hfields : (exec (deliver zero pieces) a).2.mqttCmd =
      (exec (mqttIncomingDataCb zero pieces.flatten mqttDataFlagLast) a).2.mqttCmd ↔
      ∀ i, (lastStored zero i pieces).getD (get a.mqttCmd i) =
        (storedIn zero i pieces.flatten).getD (get a.mqttCmd i) := by
    simp only [← get_deliver, ← get_callback zero _ mqttDataFlagLast]
    exact ⟨fun h i => by rw [h], get_ext⟩
  rw [hfields]
  cases pieces with
  | nil => exact iff_of_true (fun i => rfl) trivial
  | cons first rest =>
    simp only [List.flatten_cons, PiecesAgree]
    by_cases h : Closed first
    · simp only [agree_closed h, h, not_true_eq_false, false_implies, and_true, true_implies]
      exact forall_or_left
    · simp only [agree_open h, h, not_false_eq_true, false_implies, true_and, true_implies]

/-- A command in two pieces is dropped: no piece is a JSON text. -/
theorem fragments_drop_command :
    ¬ ∀ (zero : Option Item) (pieces : List (List Byte)) (a : App), (∀ p ∈ pieces, p ≠ []) →
      (exec (deliver zero pieces) a).2.mqttCmd =
        (exec (mqttIncomingDataCb zero pieces.flatten mqttDataFlagLast) a).2.mqttCmd := by
  intro h
  have hcut : ∀ p ∈ [(command "2").take 50, (command "2").drop 50], p ≠ [] := by decide +kernel
  have hpieces : (exec (deliver none [(command "2").take 50, (command "2").drop 50])
      start.app).2.mqttCmd = ⟨0, 0, 0, 0⟩ := by decide +kernel
  have hwhole : (exec (mqttIncomingDataCb none
      [(command "2").take 50, (command "2").drop 50].flatten mqttDataFlagLast)
      start.app).2.mqttCmd = ⟨2, 0, 0, 0⟩ := by decide +kernel
  have heq := h none _ start.app hcut
  rw [hpieces, hwhole] at heq
  revert heq
  decide

end MqttDevice.Inbound
