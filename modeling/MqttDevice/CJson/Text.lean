import MqttDevice.CJson.Parse

/-!
# An object as it is written

The parser keeps of a number only its rounding. Here are the places in the text where the
members of an object stand, and the number that is written there.

* `item_members`: the children of a parsed object are parsed at the places of its members;
* `item_number`: where a number is written its rounding is parsed.
-/

namespace MqttDevice.CJson

open MqttDevice.Ascii MqttDevice.Binary64

/-- Where in the text a value begins, with the fuel that the parser has there. -/
structure Place where
  fuel : Nat
  buffer : ParseBuffer

/-- The names and the places of the values in the loop of `parse_object`. -/
def memberPlaces : Nat → ParseBuffer → List (List Byte × Place)
  | 0, _ => []
  | fuel + 1, b =>
    match parseString (bufferSkipWhitespace (b.advance 1)) with
    | none => []
    | some (name, k) =>
      let value := bufferSkipWhitespace ((bufferSkipWhitespace k).advance 1)
      (name, ⟨fuel, value⟩) ::
        match parseValue fuel value with
        | .ok (_, e) =>
          let e := bufferSkipWhitespace e
          if e.isAt (ch ',') then memberPlaces fuel e else []
        | .error _ => []

namespace Place

/-- The item that `parse_value` makes of the text at a place. -/
def item (p : Place) : Option Item := (parseValue p.fuel p.buffer).toOption.map Prod.fst

/-- The members of the object at a place. -/
def members (p : Place) : List (List Byte × Place) :=
  let b' := bufferSkipWhitespace (p.buffer.advance 1)
  if p.buffer.isAt (ch '{') && !b'.isAt (ch '}') then
    memberPlaces (p.fuel - 2) { b' with offset := b'.offset - 1, depth := p.buffer.depth + 1 }
  else []

/-- The members of one name. -/
def named (p : Place) (name : List Byte) : List Place :=
  (p.members.filter fun m => m.1 = name).map Prod.snd

/-- The number that is written at a place, without any rounding. -/
def number (p : Place) : Option ℚ :=
  if p.buffer.isAt (ch '-') || p.buffer.canAccess 0 && isDigit p.buffer.byte then
    (scanNumber ((p.buffer.rest.take 63).takeWhile isNumberChar)).map Scanned.value
  else none

end Place

/-- The place of the root. -/
def rootPlace (value : List Byte) : Place :=
  ⟨3 * value.length + 1, bufferSkipWhitespace (skipUtf8Bom ⟨value, 0, 0⟩)⟩

/-! ## What is parsed there -/

/-- `c` is parsed at the place of the member `m` and has its name. -/
def ParsedAt (c : Item) (m : List Byte × Place) : Prop :=
  ∃ value, m.2.item = some value ∧ c = { value with string := some m.1 }

theorem item_root {value : List Byte} (h : value ≠ []) :
    (rootPlace value).item = parseWithLength value := by
  unfold parseWithLength parseWithLengthOpts
  rw [if_neg h]
  unfold Place.item rootPlace
  cases parseValue (3 * value.length + 1) (bufferSkipWhitespace (skipUtf8Bom ⟨value, 0, 0⟩)) <;>
    rfl

theorem parseMembers_places {fuel : Nat} {b e : ParseBuffer} {items : List Item}
    (h : parseMembers fuel b = .ok (items, e)) :
    List.Forall₂ ParsedAt items (memberPlaces fuel b) := by
  induction fuel generalizing b e items with
  | zero => cases h
  | succ fuel ih =>
    obtain ⟨name, k, item, f, hk, -, hf, hrest⟩ := parseMembers_ok h
    unfold behind at hk hf
    have hat : ParsedAt { item with string := some name }
        (name, ⟨fuel, bufferSkipWhitespace ((bufferSkipWhitespace k).advance 1)⟩) :=
      ⟨item, by simp only [Place.item, hf]; rfl, rfl⟩
    unfold memberPlaces
    simp only [hk, hf]
    rcases hrest with ⟨hcomma, rfl, -⟩ | ⟨hcomma, rest, hg, rfl⟩
    · simp only [hcomma]
      exact .cons hat .nil
    · simp only [hcomma]
      exact .cons hat (ih hg)

theorem parseObject_places {fuel : Nat} {b e : ParseBuffer} {x : Item}
    (h : parseObject fuel b = .ok (x, e)) :
    List.Forall₂ ParsedAt x.child (Place.mk (fuel + 1) b).members := by
  cases fuel with
  | zero => cases h
  | succ fuel =>
    obtain ⟨⟨-, hat⟩, hx⟩ := parseObject_ok h
    unfold behind at hx
    unfold Place.members
    rcases hx with ⟨hclose, rfl, -⟩ | ⟨⟨hclose, -⟩, items, f, hf, -, rfl, -⟩
    · simp only [hat, hclose]
      exact .nil
    · simp only [hat, hclose]
      exact parseMembers_places hf

theorem parseArray_type {fuel : Nat} {b e : ParseBuffer} {x : Item}
    (h : parseArray fuel b = .ok (x, e)) : x.type = .array := by
  cases fuel with
  | zero => cases h
  | succ fuel =>
    rcases (parseArray_ok h).2 with ⟨-, rfl, -⟩ | ⟨-, items, f, -, -, rfl, -⟩
    · rfl
    · rfl

theorem parseObject_type {fuel : Nat} {b e : ParseBuffer} {x : Item}
    (h : parseObject fuel b = .ok (x, e)) : x.type = .object := by
  cases fuel with
  | zero => cases h
  | succ fuel =>
    rcases (parseObject_ok h).2 with ⟨-, rfl, -⟩ | ⟨-, items, f, -, -, rfl, -⟩
    · rfl
    · rfl

/-- An object comes from its own function. -/
theorem parseValue_object {fuel : Nat} {b e : ParseBuffer} {x : Item}
    (h : parseValue (fuel + 1) b = .ok (x, e)) (hx : x.type = .object) :
    parseObject fuel b = .ok (x, e) := by
  cases parseValue_ok h with
  | null => cases hx
  | false => cases hx
  | true => cases hx
  | string _ => cases hx
  | number hn =>
    simp only [parseNumber, Option.map_eq_some_iff] at hn
    obtain ⟨r, -, hr⟩ := hn
    cases hr
    cases hx
  | array ha =>
    rw [parseArray_type ha] at hx
    cases hx
  | object ho => exact ho

theorem isAt_iff {b : ParseBuffer} {c : Byte} :
    b.isAt c = true ↔ b.offset < b.content.length ∧ b.byte = c := by
  simp [ParseBuffer.isAt, ParseBuffer.canAccess]

theorem isAt_eq_false {b : ParseBuffer} {c d : Byte} (hat : b.isAt c = true) (hd : d ≠ c) :
    b.isAt d = false := by
  rw [Bool.eq_false_iff, ne_eq, isAt_iff, (isAt_iff.mp hat).2]
  exact fun h => hd h.2.symm

/-- A word that is there begins with the byte at the offset. -/
theorem startsWith_eq_false {b : ParseBuffer} {c w : Byte} {word : List Byte}
    (hat : b.isAt c = true) (hw : w ≠ c) : b.startsWith (w :: word) = false := by
  obtain ⟨hlt, hbyte⟩ := isAt_iff.mp hat
  have hget : b.content[b.offset] = c := by
    rw [← hbyte, ParseBuffer.byte, List.getD_eq_getElem?_getD, List.getElem?_eq_getElem hlt]
    rfl
  unfold ParseBuffer.startsWith ParseBuffer.rest
  rw [List.drop_eq_getElem_cons hlt, List.isPrefixOf_cons_cons, hget]
  simp [hw]

theorem parseValue_at_brace {fuel : Nat} {b : ParseBuffer} (hat : b.isAt (ch '{') = true) :
    parseValue (fuel + 1) b = parseObject fuel b := by
  have hn : b.startsWith (str "null") = false := startsWith_eq_false hat (by decide)
  have hf : b.startsWith (str "false") = false := startsWith_eq_false hat (by decide)
  have ht : b.startsWith (str "true") = false := startsWith_eq_false hat (by decide)
  have hquote : b.isAt (ch '"') = false := isAt_eq_false hat (by decide)
  have hminus : b.isAt (ch '-') = false := isAt_eq_false hat (by decide)
  have hdigit : isDigit b.byte = false := by
    rw [(isAt_iff.mp hat).2]
    decide
  have hbracket : b.isAt (ch '[') = false := isAt_eq_false hat (by decide)
  unfold parseValue
  simp only [hn, hf, ht, hquote, hminus, hdigit, hbracket, hat, Bool.and_false, Bool.or_false,
    Bool.false_eq_true, if_false, if_true]

theorem parseValue_at_number {fuel : Nat} {b : ParseBuffer}
    (hat : (b.isAt (ch '-') || b.canAccess 0 && isDigit b.byte) = true) :
    parseValue (fuel + 1) b = accepted (parseNumber b) := by
  obtain ⟨c, hc, hat'⟩ : ∃ c, (c = ch '-' ∨ isDigit c = true) ∧ b.isAt c = true := by
    rcases (Bool.or_eq_true _ _).mp hat with h | h
    · exact ⟨_, .inl rfl, h⟩
    · obtain ⟨hcan, hdigit⟩ := (Bool.and_eq_true _ _).mp h
      exact ⟨b.byte, .inr hdigit, by simp [ParseBuffer.isAt, hcan]⟩
  have hne {d : Byte} (hd : d ≠ ch '-') (hdigit : isDigit d = false) : d ≠ c := by
    rintro rfl
    rcases hc with h | h
    · exact hd h
    · rw [hdigit] at h
      cases h
  have hn : b.startsWith (str "null") = false :=
    startsWith_eq_false hat' (hne (by decide) (by decide))
  have hf : b.startsWith (str "false") = false :=
    startsWith_eq_false hat' (hne (by decide) (by decide))
  have ht : b.startsWith (str "true") = false :=
    startsWith_eq_false hat' (hne (by decide) (by decide))
  have hquote : b.isAt (ch '"') = false := isAt_eq_false hat' (hne (by decide) (by decide))
  unfold parseValue
  simp only [hn, hf, ht, hquote, hat, Bool.false_eq_true, if_false, if_true]

theorem item_eq_some {p : Place} {x : Item} (h : p.item = some x) :
    ∃ fuel e, p.fuel = fuel + 1 ∧ parseValue (fuel + 1) p.buffer = .ok (x, e) := by
  obtain ⟨_ | fuel, b⟩ := p
  · cases h
  · unfold Place.item at h
    cases hv : parseValue (fuel + 1) b with
    | error e => rw [hv] at h; cases h
    | ok r =>
      rw [hv] at h
      cases h
      exact ⟨fuel, r.2, rfl, hv⟩

/-- The members at a place belong to an object. -/
theorem item_object {p : Place} {x : Item} (h : p.item = some x)
    (hat : p.buffer.isAt (ch '{') = true) : x.type = .object := by
  obtain ⟨fuel, e, -, he⟩ := item_eq_some h
  rw [parseValue_at_brace hat] at he
  exact parseObject_type he

/-- **The children of an object** are its members as they are written. -/
theorem item_members {p : Place} {x : Item} (h : p.item = some x) (hx : x.type = .object) :
    List.Forall₂ ParsedAt x.child p.members := by
  obtain ⟨fuel, e, hfuel, he⟩ := item_eq_some h
  have hplaces := parseObject_places (parseValue_object he hx)
  rwa [← hfuel] at hplaces

theorem exists_of_mem_right {α β : Type} {R : α → β → Prop} {xs : List α} {ys : List β}
    (h : List.Forall₂ R xs ys) {y : β} (hy : y ∈ ys) : ∃ x ∈ xs, R x y := by
  induction h with
  | nil => cases hy
  | cons hxy _ ih =>
    rcases List.mem_cons.mp hy with rfl | hy
    · exact ⟨_, List.mem_cons_self, hxy⟩
    · obtain ⟨x, hx, hR⟩ := ih hy
      exact ⟨x, List.mem_cons_of_mem _ hx, hR⟩

/-- A member as it is written is a child with this name. -/
theorem child_of_named {p m : Place} {x : Item} {name : List Byte} (h : p.item = some x)
    (hm : m ∈ p.named name) :
    ∃ value, m.item = some value ∧ { value with string := some name } ∈ x.child := by
  obtain ⟨⟨name', m'⟩, hmem, rfl⟩ := List.mem_map.mp hm
  obtain ⟨hmem, hname⟩ := List.mem_filter.mp hmem
  have hat : p.buffer.isAt (ch '{') = true := by
    cases hbrace : p.buffer.isAt (ch '{')
    · simp [Place.members, hbrace] at hmem
    · rfl
  obtain ⟨c, hc, value, hvalue, rfl⟩ :=
    exists_of_mem_right (item_members h (item_object h hat)) hmem
  rw [of_decide_eq_true hname] at hc
  exact ⟨value, hvalue, hc⟩

/-- **Where a number is written** its rounding is parsed. -/
theorem item_number {p : Place} {x : Item} {q : ℚ} (h : p.item = some x)
    (hq : p.number = some q) : x = createNumber (ofRat q) := by
  obtain ⟨fuel, e, -, he⟩ := item_eq_some h
  unfold Place.number at hq
  split at hq
  · rename_i hat
    rw [parseValue_at_number hat] at he
    have hnumber := accepted_ok he
    obtain ⟨n, hn, rfl⟩ := Option.map_eq_some_iff.mp hq
    rw [parseNumber, strtod, hn] at hnumber
    cases hnumber
    rfl
  · cases hq

end MqttDevice.CJson
