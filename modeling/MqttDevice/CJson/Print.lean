import MqttDevice.CJson.Number

/-!
# The printer (`cJSON.c`)

The functions from `cJSON_Print` down to `print_string_ptr`, as text that is
appended: every `ensure` finds memory. `none` stands for their false.

* `printMembers_numbers`: numbers in an object are printed one line each.
-/

namespace MqttDevice.CJson

open MqttDevice.Ascii MqttDevice.Binary64

/-- A C string ends at its first zero. -/
def cString (s : List Byte) : List Byte := s.takeWhile (· ≠ 0)

/-- The lower-case digit of `%x`. -/
def hexChar (d : Nat) : Byte := if d < 10 then digit d else BitVec.ofNat 8 (87 + d)

/-- One byte inside the quotes. -/
def escapeByte (c : Byte) : List Byte :=
  if c > 31 ∧ c ≠ ch '"' ∧ c ≠ ch '\\' then [c]
  else if c = ch '\\' then str "\\\\"
  else if c = ch '"' then str "\\\""
  else if c = 8 then str "\\b"
  else if c = 12 then str "\\f"
  else if c = 10 then str "\\n"
  else if c = 13 then str "\\r"
  else if c = 9 then str "\\t"
  else str "\\u00" ++ [hexChar (c.toNat / 16), hexChar (c.toNat % 16)]

/-- `print_string_ptr` -/
def printStringPtr : Option (List Byte) → List Byte
  | none => str "\"\""
  | some s => ch '"' :: (cString s).flatMap escapeByte ++ [ch '"']

def tabs (depth : Nat) : List Byte := List.replicate depth (ch '\t')

mutual

/-- `print_value`, at a depth of objects around it. -/
def printValue (format : Bool) (depth : Nat) : Item → Option (List Byte)
  | ⟨type, valuestring, _, valuedouble, _, child⟩ =>
    match type with
    | .null => some (str "null")
    | .false => some (str "false")
    | .true => some (str "true")
    | .number => printNumber valuedouble
    | .raw => valuestring.map cString
    | .string => some (printStringPtr valuestring)
    | .array => do
      let elements ← printElements format (depth + 1) child
      some ([ch '['] ++ elements ++ [ch ']'])
    | .object => do
      let members ← printMembers format (depth + 1) child
      some (str (if format then "\x7b\n" else "\x7b") ++ members ++
        (if format then tabs depth else []) ++ [ch '}'])
    | .invalid => none

/-- The loop of `print_array`. -/
def printElements (format : Bool) (depth : Nat) : List Item → Option (List Byte)
  | [] => some []
  | item :: next => do
    let value ← printValue format depth item
    let rest ← printElements format depth next
    some (value ++ (if next.isEmpty then [] else str (if format then ", " else ",")) ++ rest)

/-- The loop of `print_object`. -/
def printMembers (format : Bool) (depth : Nat) : List Item → Option (List Byte)
  | [] => some []
  | item :: next => do
    let value ← printValue format depth item
    let rest ← printMembers format depth next
    some ((if format then tabs depth else []) ++ printStringPtr item.string ++
      str (if format then ":\t" else ":") ++ value ++
      (if next.isEmpty then [] else [ch ',']) ++ (if format then [ch '\n'] else []) ++ rest)

end

/-- `cJSON_Print` -/
def cJsonPrint (item : Item) : Option (List Byte) := printValue true 0 item

/-! ## Objects -/

/-- The text of an object whose members print. -/
theorem printValue_object {depth : Nat} {item : Item} {members : List Byte}
    (hitem : item.type = .object)
    (h : printMembers true (depth + 1) item.child = some members) :
    printValue true depth item = some (str "\x7b\n" ++ members ++ tabs depth ++ [ch '}']) := by
  obtain ⟨type, _, _, _, _, child⟩ := item
  cases hitem
  simp only at h
  simp [printValue, h]

theorem printMembers_cons {depth : Nat} {item : Item} {next : List Item}
    {value rest : List Byte} (hitem : printValue true depth item = some value)
    (hnext : printMembers true depth next = some rest) :
    printMembers true depth (item :: next) =
      some (tabs depth ++ printStringPtr item.string ++ str ":\t" ++ value ++
        (if next.isEmpty then [] else [ch ',']) ++ [ch '\n'] ++ rest) := by
  simp [printMembers, hitem, hnext]

/-- The line that is printed for a number in an object. -/
def numberLine (depth : Nat) (name : List Byte) (number : Double) (last : Bool) : List Byte :=
  tabs depth ++ printStringPtr (some name) ++ str ":\t" ++ numberText number ++
    (if last then [] else [ch ',']) ++ [ch '\n']

def numberLines (depth : Nat) : List (List Byte × Double) → List Byte
  | [] => []
  | (name, number) :: rest =>
    numberLine depth name number rest.isEmpty ++ numberLines depth rest

/-- An object that holds the given numbers. -/
def numberObject (numbers : List (List Byte × Double)) : Item :=
  numbers.foldl (fun object m => addNumberToObject object m.1 m.2) createObject

theorem numberObject_eq (numbers : List (List Byte × Double)) :
    numberObject numbers = { createObject with
      child := numbers.map fun m => { createNumber m.2 with string := some m.1 } } := by
  have hfold : ∀ object : Item,
      numbers.foldl (fun object m => addNumberToObject object m.1 m.2) object = { object with
        child := object.child ++ numbers.map fun m =>
          { createNumber m.2 with string := some m.1 } } := by
    induction numbers with
    | nil => intro object; cases object; simp
    | cons m rest ih =>
      intro object
      rw [List.foldl_cons, ih]
      simp [addNumberToObject, addItemToObject]
  rw [numberObject, hfold]
  rfl

theorem printMembers_numbers (depth : Nat) (numbers : List (List Byte × Double)) :
    printMembers true depth
      (numbers.map fun m => { createNumber m.2 with string := some m.1 }) =
      some (numberLines depth numbers) := by
  induction numbers with
  | nil => rfl
  | cons m rest ih =>
    have hvalue : printValue true depth { createNumber m.2 with string := some m.1 } =
        some (numberText m.2) := by
      simp [createNumber, newItem, printValue, printNumber_eq]
    rw [List.map_cons, printMembers_cons hvalue ih, List.isEmpty_map]
    rfl

theorem mem_numberLines (depth : Nat) {numbers : List (List Byte × Double)} {name : List Byte}
    {number : Double} (h : (name, number) ∈ numbers) :
    ∃ last, numberLine depth name number last <:+: numberLines depth numbers := by
  induction numbers with
  | nil => cases h
  | cons m rest ih =>
    rcases List.mem_cons.mp h with rfl | h
    · exact ⟨rest.isEmpty, List.infix_append_of_infix_left (List.infix_refl _)⟩
    · obtain ⟨last, hl⟩ := ih h
      exact ⟨last, List.infix_append_of_infix_right hl⟩

end MqttDevice.CJson
