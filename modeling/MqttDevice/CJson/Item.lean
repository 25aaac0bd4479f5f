import MqttDevice.Lib.Ascii
import MqttDevice.Lib.Binary64

/-!
# cJSON items (`cJSON.h`, `cJSON.c`)

* `Item`: the node of a tree; the list of children stands for the chain of
  `next` pointers that begins at `child`;
* `getObjectItem`: the lookup by name, blind to case;
* `saturate_intCast`: the `valueint` of an item whose number is an integer is
  this integer, clamped to the range of `int`.
-/

namespace MqttDevice.CJson

open MqttDevice.Ascii MqttDevice.Binary64

/-- The values of `type` without the two flag bits. -/
inductive ItemType
  | invalid | false | true | null | number | string | array | object | raw
  deriving DecidableEq, Repr

/-- `cJSON`. A string is the bytes of its block without the last zero. -/
structure Item where
  type : ItemType
  valuestring : Option (List Byte)
  valueint : BitVec 32
  valuedouble : Double
  string : Option (List Byte)
  child : List Item

/-- `cJSON_New_Item`: all bytes zero. -/
def newItem : Item := ⟨.invalid, none, 0, .finite 0 representable_zero, none, []⟩

/-! ## Lookup -/

def tolower (b : Byte) : Byte := if ch 'A' ≤ b && b ≤ ch 'Z' then b + 32 else b

/-- The loop of `case_insensitive_strcmp`; a list is followed by a zero. -/
def strcmpLoop : List Byte → List Byte → Int
  | [], ys =>
    if tolower 0 = tolower (ys.headD 0) then 0
    else (tolower 0).toNat - (tolower (ys.headD 0)).toNat
  | x :: xs, ys =>
    if tolower x = tolower (ys.headD 0) then
      if x = 0 then 0 else strcmpLoop xs ys.tail
    else (tolower x).toNat - (tolower (ys.headD 0)).toNat

/-- `case_insensitive_strcmp`, with `none` for a null pointer. -/
def caseInsensitiveStrcmp : Option (List Byte) → Option (List Byte) → Int
  | some xs, some ys => strcmpLoop xs ys
  | _, _ => 1

/-- `cJSON_GetObjectItem`, which is `get_object_item` without case sensitivity. -/
def getObjectItem (object : Item) (name : List Byte) : Option Item :=
  object.child.find? fun c => caseInsensitiveStrcmp (some name) c.string = 0

/-! ## Numbers -/

def intMax : Int := 2147483647
def intMin : Int := -2147483648

/-- The conversion `(int)number` of a number in range. -/
def truncate (q : ℚ) : Int := if q < 0 then ⌈q⌉ else ⌊q⌋

/-- The `valueint` that goes with a number: `parse_number` and
`cJSON_CreateNumber` use saturation in case of overflow. -/
def saturate : Double → BitVec 32
  | .finite q _ =>
    if intMax ≤ q then BitVec.ofInt 32 intMax
    else if q ≤ intMin then BitVec.ofInt 32 intMin
    else BitVec.ofInt 32 (truncate q)
  | .inf neg => BitVec.ofInt 32 (if neg then intMin else intMax)

/-- `cJSON_CreateNumber`. -/
def createNumber (num : Double) : Item :=
  { newItem with type := .number, valuedouble := num, valueint := saturate num }

/-- The number of an item that is one. -/
def numberOf (item : Item) : Option ℚ :=
  match item.type, item.valuedouble with
  | .number, .finite q _ => some q
  | _, _ => none

def memberNumber (object : Item) (name : List Byte) : Option ℚ :=
  (getObjectItem object name).bind numberOf

/-! ## Construction -/

/-- `cJSON_CreateObject` -/
def createObject : Item := { newItem with type := .object }

/-- `cJSON_AddItemToObject` -/
def addItemToObject (object : Item) (name : List Byte) (item : Item) : Item :=
  { object with child := object.child ++ [{ item with string := some name }] }

/-- `cJSON_AddNumberToObject` -/
def addNumberToObject (object : Item) (name : List Byte) (number : Double) : Item :=
  addItemToObject object name (createNumber number)

/-! ## Integers as numbers -/

@[simp] theorem truncate_intCast (n : Int) : truncate n = n := by
  simp [truncate]

theorem saturate_intCast (n : Int) (h : Representable n) :
    saturate (.finite n h) = BitVec.ofInt 32 (max intMin (min intMax n)) := by
  simp only [saturate, truncate_intCast, Int.cast_le]
  split
  · rename_i hmax
    rw [min_eq_left hmax]
    rfl
  · rename_i hmax
    rw [min_eq_right (by omega)]
    split
    · rename_i hmin
      rw [max_eq_left hmin]
    · rename_i hmin
      rw [max_eq_right (by omega)]

/-- The `valueint` of an `int` is this `int`. -/
theorem saturate_toInt (v : BitVec 32) (h : Representable v.toInt) :
    saturate (.finite v.toInt h) = v := by
  have hlt := BitVec.toInt_lt (x := v)
  have hle := BitVec.le_toInt (x := v)
  norm_num at hlt hle
  rw [saturate_intCast, min_eq_right (by unfold intMax; omega),
    max_eq_right (by unfold intMin; omega), BitVec.ofInt_toInt]

/-- Of the values of a `uint32_t` only the lower half survives in `valueint`. -/
theorem saturate_toNat_iff (v : BitVec 32) (h : Representable ((v.toNat : Int) : ℚ)) :
    saturate (.finite ((v.toNat : Int) : ℚ) h) = v ↔ v.toNat < 2 ^ 31 := by
  rw [saturate_intCast]
  rcases Nat.lt_or_ge v.toNat (2 ^ 31) with hlt | hge
  · rw [min_eq_right (by unfold intMax; omega), max_eq_right (by unfold intMin; omega)]
    simpa using hlt
  · rw [min_eq_left (by unfold intMax; omega)]
    have hmax : (BitVec.ofInt 32 (max intMin intMax)).toNat = 2 ^ 31 - 1 := by decide
    constructor
    · intro e
      rw [e] at hmax
      omega
    · intro h
      omega

theorem memberNumber_eq_some {object : Item} {name : List Byte} {q : ℚ}
    (h : memberNumber object name = some q) :
    ∃ item hq, getObjectItem object name = some item ∧ item.type = .number ∧
      item.valuedouble = .finite q hq := by
  obtain ⟨item, hitem, hq⟩ := Option.bind_eq_some_iff.mp h
  unfold numberOf at hq
  split at hq
  · rename_i htype hval
    cases hq
    exact ⟨item, _, hitem, htype, hval⟩
  · cases hq

end MqttDevice.CJson
