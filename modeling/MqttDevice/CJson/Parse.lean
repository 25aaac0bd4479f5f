import MqttDevice.CJson.Number

/-!
# The parser (`cJSON.c`)

The functions from `cJSON_ParseWithLength` down to `parse_number`, on a buffer
with an offset. The recursion of `parse_value` is bounded by a fuel; memory
for the items is always found.

* `parseValue_consumes`: no value is empty;
* `parseWithLength_ne_outOfFuel`: the fuel that `parseWithLength` gives is
  enough for every input;
* `parseWithLength_built`: what holds of the leaves and is kept by nodes and names
  holds of every parsed tree;
* `parseWithLength_saturated`, `parseWithLength_valued`: the `valueint` of each item of
  a parsed tree;
* `parseNumber_literal`: a decimal integer below `2 ^ 53` is parsed exactly.
-/

namespace MqttDevice.CJson

open MqttDevice.Ascii MqttDevice.Binary64

/-- `parse_buffer` -/
structure ParseBuffer where
  content : List Byte
  offset : Nat
  depth : Nat

/-- `rejected`: the source returns false; `outOfFuel` is of this model only. -/
inductive ParseError
  | rejected | outOfFuel
  deriving DecidableEq

def nestingLimit : Nat := 1000

namespace ParseBuffer

def canAccess (b : ParseBuffer) (i : Nat) : Bool := b.offset + i < b.content.length

/-- The byte at the offset; the source reads at most one byte behind the
buffer, and no byte it could find there is accepted. -/
def byte (b : ParseBuffer) : Byte := b.content.getD b.offset 0

def rest (b : ParseBuffer) : List Byte := b.content.drop b.offset

/-- `can_read` and `strncmp` with a word. -/
def startsWith (b : ParseBuffer) (word : List Byte) : Bool := word.isPrefixOf b.rest

/-- `can_access_at_index(buffer, 0)` and a comparison of the byte. -/
def isAt (b : ParseBuffer) (c : Byte) : Bool := b.canAccess 0 && b.byte = c

def advance (b : ParseBuffer) (n : Nat) : ParseBuffer := { b with offset := b.offset + n }

end ParseBuffer

/-- `buffer_skip_whitespace`: at the end of the buffer it steps back by one. -/
def bufferSkipWhitespace (b : ParseBuffer) : ParseBuffer :=
  if b.canAccess 0 then
    let offset := b.offset + (b.rest.takeWhile (· ≤ 32)).length
    { b with offset := if offset = b.content.length then offset - 1 else offset }
  else b

/-- `skip_utf8_bom` -/
def skipUtf8Bom (b : ParseBuffer) : ParseBuffer :=
  if b.canAccess 4 && b.startsWith [0xEF, 0xBB, 0xBF] then b.advance 3 else b

/-! ## Strings -/

def hexDigit (c : Byte) : Option Nat :=
  if ch '0' ≤ c && c ≤ ch '9' then some (c.toNat - 48)
  else if ch 'A' ≤ c && c ≤ ch 'F' then some (10 + c.toNat - 65)
  else if ch 'a' ≤ c && c ≤ ch 'f' then some (10 + c.toNat - 97)
  else none

/-- `parse_hex4`: 0 when one of the bytes is no digit. -/
def parseHex4 (c₀ c₁ c₂ c₃ : Byte) : Nat :=
  match hexDigit c₀, hexDigit c₁, hexDigit c₂, hexDigit c₃ with
  | some h₀, some h₁, some h₂, some h₃ => ((h₀ * 16 + h₁) * 16 + h₂) * 16 + h₃
  | _, _, _, _ => 0

/-- The last `k` bytes of a UTF-8 sequence, and what is left of the codepoint. -/
def continuationBytes : Nat → Nat → List Byte → Nat × List Byte
  | 0, codepoint, out => (codepoint, out)
  | k + 1, codepoint, out =>
    continuationBytes k (codepoint >>> 6) (BitVec.ofNat 8 ((codepoint ||| 0x80) &&& 0xBF) :: out)

def encodeUtf8 (codepoint : Nat) : Option (List Byte) :=
  let multi (k mark : Nat) :=
    let (first, out) := continuationBytes k codepoint []
    BitVec.ofNat 8 ((first ||| mark) &&& 0xFF) :: out
  if codepoint < 0x80 then some [BitVec.ofNat 8 (codepoint &&& 0x7F)]
  else if codepoint < 0x800 then some (multi 1 0xC0)
  else if codepoint < 0x10000 then some (multi 2 0xE0)
  else if codepoint ≤ 0x10FFFF then some (multi 3 0xF0)
  else none

/-- `utf16_literal_to_utf8` at `\uXXXX`, with `left` bytes up to the end of the
string: the bytes written and the length of the literal. -/
def utf16LiteralToUtf8 (left : Nat) (s : List Byte) : Option (List Byte × Nat) :=
  if left < 6 then none
  else
    match s with
    | _ :: _ :: c₀ :: c₁ :: c₂ :: c₃ :: second =>
      let firstCode := parseHex4 c₀ c₁ c₂ c₃
      if 0xDC00 ≤ firstCode ∧ firstCode ≤ 0xDFFF then none
      else if 0xD800 ≤ firstCode ∧ firstCode ≤ 0xDBFF then
        if left - 6 < 6 then none
        else
          match second with
          | s₀ :: s₁ :: d₀ :: d₁ :: d₂ :: d₃ :: _ =>
            if s₀ ≠ ch '\\' ∨ s₁ ≠ ch 'u' then none
            else
              let secondCode := parseHex4 d₀ d₁ d₂ d₃
              if secondCode < 0xDC00 ∨ 0xDFFF < secondCode then none
              else
                let codepoint := 0x10000 + (((firstCode &&& 0x3FF) <<< 10) ||| (secondCode &&& 0x3FF))
                (encodeUtf8 codepoint).map fun out => (out, 12)
          | _ => none
      else (encodeUtf8 firstCode).map fun out => (out, 6)
    | _ => none

/-- The first loop of `parse_string`: how far away the closing quote is. -/
def closingQuote : List Byte → Option Nat
  | [] => none
  | c :: s =>
    if c = ch '"' then some 0
    else if c = ch '\\' then
      match s with
      | [] => none
      | _ :: s => (closingQuote s).map (· + 2)
    else (closingQuote s).map (· + 1)

/-- The second loop: `left` bytes up to the closing quote. An escape may
reach over the quote, the loop then ends. -/
def unescape : Nat → Nat → List Byte → Option (List Byte)
  | _, 0, _ => some []
  | 0, _, _ => none
  | fuel + 1, left, s =>
    match s with
    | [] => none
    | [_] => none
    | c :: e :: _ =>
      if c ≠ ch '\\' then (unescape fuel (left - 1) s.tail).map (c :: ·)
      else
        let short (out : Byte) := (unescape fuel (left - 2) (s.drop 2)).map (out :: ·)
        if e = ch 'b' then short 8
        else if e = ch 'f' then short 12
        else if e = ch 'n' then short 10
        else if e = ch 'r' then short 13
        else if e = ch 't' then short 9
        else if e = ch '"' ∨ e = ch '\\' ∨ e = ch '/' then short e
        else if e = ch 'u' then
          match utf16LiteralToUtf8 left s with
          | some (out, n) => (unescape fuel (left - n) (s.drop n)).map (out ++ ·)
          | none => none
        else none

theorem utf16LiteralToUtf8_pos {left n : Nat} {s out : List Byte}
    (h : utf16LiteralToUtf8 left s = some (out, n)) : 1 ≤ n := by
  have hmap : ∀ {o : Option (List Byte)} {k : Nat}, 1 ≤ k →
      o.map (fun out => (out, k)) = some (out, n) → 1 ≤ n := by
    intro o k hk ho
    obtain ⟨_, _, he⟩ := Option.map_eq_some_iff.mp ho
    cases he
    exact hk
  simp only [utf16LiteralToUtf8] at h
  split at h
  · cases h
  split at h
  · split at h
    · cases h
    split at h
    · split at h
      · cases h
      split at h
      · split at h
        · cases h
        split at h
        · cases h
        · exact hmap (by decide) h
      · cases h
    · exact hmap (by decide) h
  · cases h

/-- Fuel for every byte is enough. -/
theorem unescape_fuel {f g left : Nat} {s : List Byte} (hf : left ≤ f) (hg : left ≤ g) :
    unescape f left s = unescape g left s := by
  induction f generalizing g left s with
  | zero =>
    obtain rfl := Nat.le_zero.mp hf
    simp [unescape]
  | succ f ih =>
    cases left with
    | zero => simp [unescape]
    | succ left =>
      obtain ⟨g, rfl⟩ : ∃ g', g = g' + 1 := ⟨g - 1, by omega⟩
      have hrec : ∀ n s, 1 ≤ n →
          unescape f (left + 1 - n) s = unescape g (left + 1 - n) s :=
        fun n s hn => ih (by omega) (by omega)
      match s with
      | [] => rfl
      | [_] => rfl
      | c :: e :: s =>
        simp only [unescape, hrec 1 _ (Nat.le_refl 1), hrec 2 _ (by decide)]
        cases hu : utf16LiteralToUtf8 (left + 1) (c :: e :: s) with
        | none => rfl
        | some r => simp only [hrec r.2 _ (utf16LiteralToUtf8_pos hu)]

/-- `parse_string`: the unescaped bytes. -/
def parseString (b : ParseBuffer) : Option (List Byte × ParseBuffer) :=
  if b.byte ≠ ch '"' then none
  else do
    let s := b.rest.drop 1
    let n ← closingQuote s
    let output ← unescape n n s
    some (output, b.advance (n + 2))

/-! ## Numbers -/

def isNumberChar (c : Byte) : Bool :=
  isDigit c || c = ch '+' || c = ch '-' || c = ch 'e' || c = ch 'E' || c = ch '.'

/-- `parse_number`, through a buffer of 64 bytes. -/
def parseNumber (b : ParseBuffer) : Option (Item × ParseBuffer) :=
  (strtod ((b.rest.take 63).takeWhile isNumberChar)).map fun (number, length) =>
    (createNumber number, b.advance length)

/-! ## Values -/

/-- The result of a parser of this file that has no fuel. -/
def accepted {α : Type} : Option α → Except ParseError α
  | some a => .ok a
  | none => .error .rejected

mutual

/-- `parse_value` -/
def parseValue : Nat → ParseBuffer → Except ParseError (Item × ParseBuffer)
  | 0, _ => .error .outOfFuel
  | fuel + 1, b =>
    if b.startsWith (str "null") then .ok ({ newItem with type := .null }, b.advance 4)
    else if b.startsWith (str "false") then .ok ({ newItem with type := .false }, b.advance 5)
    else if b.startsWith (str "true") then
      .ok ({ newItem with type := .true, valueint := 1 }, b.advance 4)
    else if b.isAt (ch '"') then
      (accepted (parseString b)).map fun (output, b) =>
        ({ newItem with type := .string, valuestring := some output }, b)
    else if b.isAt (ch '-') || b.canAccess 0 && isDigit b.byte then accepted (parseNumber b)
    else if b.isAt (ch '[') then parseArray fuel b
    else if b.isAt (ch '{') then parseObject fuel b
    else .error .rejected

/-- `parse_array` -/
def parseArray : Nat → ParseBuffer → Except ParseError (Item × ParseBuffer)
  | 0, _ => .error .outOfFuel
  | fuel + 1, b =>
    if nestingLimit ≤ b.depth then .error .rejected
    else if b.byte ≠ ch '[' then .error .rejected
    else
      let b' := bufferSkipWhitespace (b.advance 1)
      if b'.isAt (ch ']') then .ok ({ newItem with type := .array }, b'.advance 1)
      else if ¬ b'.canAccess 0 then .error .rejected
      else do
        let (items, e) ← parseElements fuel { b' with offset := b'.offset - 1, depth := b.depth + 1 }
        if e.isAt (ch ']') then
          .ok ({ newItem with type := .array, child := items }, { e.advance 1 with depth := b.depth })
        else .error .rejected

/-- The loop of `parse_array`. -/
def parseElements : Nat → ParseBuffer → Except ParseError (List Item × ParseBuffer)
  | 0, _ => .error .outOfFuel
  | fuel + 1, b => do
    let (item, e) ← parseValue fuel (bufferSkipWhitespace (b.advance 1))
    let e := bufferSkipWhitespace e
    if e.isAt (ch ',') then
      let (items, e) ← parseElements fuel e
      .ok (item :: items, e)
    else .ok ([item], e)

/-- `parse_object` -/
def parseObject : Nat → ParseBuffer → Except ParseError (Item × ParseBuffer)
  | 0, _ => .error .outOfFuel
  | fuel + 1, b =>
    if nestingLimit ≤ b.depth then .error .rejected
    else if ¬ b.isAt (ch '{') then .error .rejected
    else
      let b' := bufferSkipWhitespace (b.advance 1)
      if b'.isAt (ch '}') then .ok ({ newItem with type := .object }, b'.advance 1)
      else if ¬ b'.canAccess 0 then .error .rejected
      else do
        let (items, e) ← parseMembers fuel { b' with offset := b'.offset - 1, depth := b.depth + 1 }
        if e.isAt (ch '}') then
          .ok ({ newItem with type := .object, child := items }, { e.advance 1 with depth := b.depth })
        else .error .rejected

/-- The loop of `parse_object`. -/
def parseMembers : Nat → ParseBuffer → Except ParseError (List Item × ParseBuffer)
  | 0, _ => .error .outOfFuel
  | fuel + 1, b => do
    let (name, k) ← accepted (parseString (bufferSkipWhitespace (b.advance 1)))
    let k := bufferSkipWhitespace k
    if ¬ k.isAt (ch ':') then .error .rejected
    else
      let (item, e) ← parseValue fuel (bufferSkipWhitespace (k.advance 1))
      let item := { item with string := some name }
      let e := bufferSkipWhitespace e
      if e.isAt (ch ',') then
        let (items, e) ← parseMembers fuel e
        .ok (item :: items, e)
      else .ok ([item], e)

end

/-- `cJSON_ParseWithLength` with its outcome in full. -/
def parseWithLengthOpts (value : List Byte) : Except ParseError Item :=
  if value = [] then .error .rejected
  else (parseValue (3 * value.length + 1)
    (bufferSkipWhitespace (skipUtf8Bom ⟨value, 0, 0⟩))).map Prod.fst

/-- `cJSON_ParseWithLength`: the root, or `none` for a null pointer. -/
def parseWithLength (value : List Byte) : Option Item := (parseWithLengthOpts value).toOption

/-! ## Progress -/

/-- `e` is the same text as `b`, at least `n` bytes further on. -/
structure After (n : Nat) (b e : ParseBuffer) : Prop where
  content : e.content = b.content
  offset : b.offset + n ≤ e.offset

theorem After.trans {m n : Nat} {b e f : ParseBuffer} (h : After m b e) (h' : After n e f) :
    After (m + n) b f :=
  ⟨h'.content.trans h.content, by have := h.offset; have := h'.offset; omega⟩

theorem After.mono {m n : Nat} {b e : ParseBuffer} (h : After m b e) (hnm : n ≤ m) : After n b e :=
  ⟨h.content, by have := h.offset; omega⟩

theorem after_advance (b : ParseBuffer) (n : Nat) : After n b (b.advance n) := ⟨rfl, Nat.le_refl _⟩

/-- Skipping steps back only after it has gone forward. -/
theorem after_skip (b : ParseBuffer) : After 0 b (bufferSkipWhitespace b) := by
  unfold bufferSkipWhitespace
  split
  · rename_i h
    refine ⟨rfl, ?_⟩
    simp only [ParseBuffer.canAccess, decide_eq_true_eq] at h
    simp only
    split <;> omega
  · exact ⟨rfl, Nat.le_refl _⟩

theorem after_parseString {b e : ParseBuffer} {output : List Byte}
    (h : parseString b = some (output, e)) : After 2 b e := by
  unfold parseString at h
  split at h
  · cases h
  · simp only [Option.bind_eq_bind, Option.bind_eq_some_iff] at h
    obtain ⟨n, -, out, -, he⟩ := h
    cases he
    exact (after_advance b (n + 2)).mono (by omega)

theorem after_parseNumber {b e : ParseBuffer} {item : Item}
    (h : parseNumber b = some (item, e)) : After 1 b e := by
  unfold parseNumber strtod at h
  simp only [Option.map_map, Option.map_eq_some_iff] at h
  obtain ⟨n, hn, he⟩ := h
  cases he
  exact (after_advance b n.length).mono (scanNumber_length_pos hn)

theorem accepted_ok {α : Type} {o : Option α} {a : α} (h : accepted o = .ok a) : o = some a := by
  cases o with
  | none => cases h
  | some _ => cases h; rfl

theorem bind_eq_ok {α β : Type} {x : Except ParseError α} {f : α → Except ParseError β} {r : β} :
    (x >>= f) = .ok r ↔ ∃ a, x = .ok a ∧ f a = .ok r := by
  cases x with
  | error e => simp [bind, Except.bind]
  | ok a => simp [bind, Except.bind]

theorem bind_eq_error {α β : Type} {x : Except ParseError α} {f : α → Except ParseError β}
    {e : ParseError} :
    (x >>= f) = .error e ↔ x = .error e ∨ ∃ a, x = .ok a ∧ f a = .error e := by
  cases x with
  | error e => simp [bind, Except.bind]
  | ok a => simp [bind, Except.bind]

/-! ## What is accepted

One lemma for each of the five functions says all that follows from a result. -/

/-- Where the value of `b` can come from, with what stands at the offset. -/
inductive ValueFrom (fuel : Nat) (b : ParseBuffer) : Item → ParseBuffer → Prop
  | null (first : b.startsWith (str "null") = true) :
      ValueFrom fuel b { newItem with type := .null } (b.advance 4)
  | false (first : b.startsWith (str "false") = true) :
      ValueFrom fuel b { newItem with type := .false } (b.advance 5)
  | true (first : b.startsWith (str "true") = true) :
      ValueFrom fuel b { newItem with type := .true, valueint := 1 } (b.advance 4)
  | string {output : List Byte} {e : ParseBuffer} (h : parseString b = some (output, e))
      (first : b.isAt (ch '"') = true) :
      ValueFrom fuel b { newItem with type := .string, valuestring := some output } e
  | number {x : Item} {e : ParseBuffer} (h : parseNumber b = some (x, e))
      (first : (b.isAt (ch '-') || b.canAccess 0 && isDigit b.byte) = true) : ValueFrom fuel b x e
  | array {x : Item} {e : ParseBuffer} (h : parseArray fuel b = .ok (x, e))
      (first : b.isAt (ch '[') = true) : ValueFrom fuel b x e
  | object {x : Item} {e : ParseBuffer} (h : parseObject fuel b = .ok (x, e))
      (first : b.isAt (ch '{') = true) : ValueFrom fuel b x e

theorem parseValue_ok {fuel : Nat} {b e : ParseBuffer} {x : Item}
    (h : parseValue (fuel + 1) b = .ok (x, e)) : ValueFrom fuel b x e := by
  unfold parseValue at h
  split at h
  · cases h
    exact .null ‹_›
  split at h
  · cases h
    exact .false ‹_›
  split at h
  · cases h
    exact .true ‹_›
  split at h
  · cases hs : parseString b with
    | none => rw [hs] at h; cases h
    | some r =>
      rw [hs] at h
      cases h
      exact .string hs ‹_›
  split at h
  · exact .number (accepted_ok h) ‹_›
  split at h
  · exact .array h ‹_›
  split at h
  · exact .object h ‹_›
  · cases h

/-- What stands behind the bracket or the brace. -/
def behind (b : ParseBuffer) : ParseBuffer := bufferSkipWhitespace (b.advance 1)

/-- Where the loops of `parse_array` and `parse_object` begin: one step back. -/
def loopStart (b : ParseBuffer) : ParseBuffer :=
  { behind b with offset := (behind b).offset - 1, depth := b.depth + 1 }

theorem parseArray_ok {fuel : Nat} {b e : ParseBuffer} {x : Item}
    (h : parseArray (fuel + 1) b = .ok (x, e)) :
    (b.depth < nestingLimit ∧ b.byte = ch '[') ∧
    (((behind b).isAt (ch ']') = true ∧ x = { newItem with type := .array } ∧
      e = (behind b).advance 1) ∨
    ((behind b).isAt (ch ']') = false ∧ (behind b).canAccess 0 = true) ∧ ∃ items f,
      parseElements fuel (loopStart b) = .ok (items, f) ∧ f.isAt (ch ']') = true ∧
      x = { newItem with type := .array, child := items } ∧
      e = { f.advance 1 with depth := b.depth }) := by
  unfold parseArray at h
  split at h
  · cases h
  rename_i hdepth
  split at h
  · cases h
  rename_i hopen
  refine ⟨⟨Nat.not_le.mp hdepth, not_not.mp hopen⟩, ?_⟩
  simp only at h
  split at h
  · rename_i hclose
    cases h
    exact .inl ⟨hclose, rfl, rfl⟩
  rename_i hclose
  split at h
  · cases h
  rename_i hcan
  obtain ⟨⟨items, f⟩, hf, h⟩ := bind_eq_ok.mp h
  simp only at h
  split at h
  · rename_i hend
    cases h
    exact .inr ⟨⟨Bool.eq_false_iff.mpr hclose, not_not.mp hcan⟩, items, f, hf, hend, rfl, rfl⟩
  · cases h

theorem parseElements_ok {fuel : Nat} {b e : ParseBuffer} {items : List Item}
    (h : parseElements (fuel + 1) b = .ok (items, e)) :
    ∃ item f, parseValue fuel (behind b) = .ok (item, f) ∧
      (((bufferSkipWhitespace f).isAt (ch ',') = false ∧
        items = [item] ∧ e = bufferSkipWhitespace f) ∨
      (bufferSkipWhitespace f).isAt (ch ',') = true ∧
        ∃ rest, parseElements fuel (bufferSkipWhitespace f) = .ok (rest, e) ∧
          items = item :: rest) := by
  unfold parseElements at h
  obtain ⟨⟨item, f⟩, hf, h⟩ := bind_eq_ok.mp h
  refine ⟨item, f, hf, ?_⟩
  simp only at h
  split at h
  · rename_i hcomma
    obtain ⟨⟨rest, g⟩, hg, h⟩ := bind_eq_ok.mp h
    cases h
    exact .inr ⟨hcomma, rest, hg, rfl⟩
  · rename_i hcomma
    cases h
    exact .inl ⟨Bool.eq_false_iff.mpr hcomma, rfl, rfl⟩

theorem parseObject_ok {fuel : Nat} {b e : ParseBuffer} {x : Item}
    (h : parseObject (fuel + 1) b = .ok (x, e)) :
    (b.depth < nestingLimit ∧ b.isAt (ch '{') = true) ∧
    (((behind b).isAt (ch '}') = true ∧ x = { newItem with type := .object } ∧
      e = (behind b).advance 1) ∨
    ((behind b).isAt (ch '}') = false ∧ (behind b).canAccess 0 = true) ∧ ∃ items f,
      parseMembers fuel (loopStart b) = .ok (items, f) ∧ f.isAt (ch '}') = true ∧
      x = { newItem with type := .object, child := items } ∧
      e = { f.advance 1 with depth := b.depth }) := by
  unfold parseObject at h
  split at h
  · cases h
  rename_i hdepth
  split at h
  · cases h
  rename_i hat
  refine ⟨⟨Nat.not_le.mp hdepth, not_not.mp hat⟩, ?_⟩
  simp only at h
  split at h
  · rename_i hclose
    cases h
    exact .inl ⟨hclose, rfl, rfl⟩
  rename_i hclose
  split at h
  · cases h
  rename_i hcan
  obtain ⟨⟨items, f⟩, hf, h⟩ := bind_eq_ok.mp h
  simp only at h
  split at h
  · rename_i hend
    cases h
    exact .inr ⟨⟨Bool.eq_false_iff.mpr hclose, not_not.mp hcan⟩, items, f, hf, hend, rfl, rfl⟩
  · cases h

theorem parseMembers_ok {fuel : Nat} {b e : ParseBuffer} {items : List Item}
    (h : parseMembers (fuel + 1) b = .ok (items, e)) :
    ∃ name k item f, parseString (behind b) = some (name, k) ∧
      (bufferSkipWhitespace k).isAt (ch ':') = true ∧
      parseValue fuel (behind (bufferSkipWhitespace k)) = .ok (item, f) ∧
      (((bufferSkipWhitespace f).isAt (ch ',') = false ∧
        items = [{ item with string := some name }] ∧ e = bufferSkipWhitespace f) ∨
      (bufferSkipWhitespace f).isAt (ch ',') = true ∧
        ∃ rest, parseMembers fuel (bufferSkipWhitespace f) = .ok (rest, e) ∧
          items = { item with string := some name } :: rest) := by
  unfold parseMembers at h
  obtain ⟨⟨name, k⟩, hk, h⟩ := bind_eq_ok.mp h
  simp only at h
  split at h
  · cases h
  rename_i hcolon
  obtain ⟨⟨item, f⟩, hf, h⟩ := bind_eq_ok.mp h
  refine ⟨name, k, item, f, accepted_ok hk, not_not.mp hcolon, hf, ?_⟩
  simp only at h
  split at h
  · rename_i hcomma
    obtain ⟨⟨rest, g⟩, hg, h⟩ := bind_eq_ok.mp h
    cases h
    exact .inr ⟨hcomma, rest, hg, rfl⟩
  · rename_i hcomma
    cases h
    exact .inl ⟨Bool.eq_false_iff.mpr hcomma, rfl, rfl⟩

/-! ## What is consumed -/

/-- What each of the five functions consumes. -/
structure Consumes (fuel : Nat) : Prop where
  value : ∀ b item e, parseValue fuel b = .ok (item, e) → After 1 b e
  array : ∀ b item e, parseArray fuel b = .ok (item, e) → After 1 b e
  elements : ∀ b items e, parseElements fuel b = .ok (items, e) → After 1 b e
  object : ∀ b item e, parseObject fuel b = .ok (item, e) → After 1 b e
  members : ∀ b items e, parseMembers fuel b = .ok (items, e) → After 1 b e

theorem after_skip_advance (b : ParseBuffer) (n : Nat) :
    After n b (bufferSkipWhitespace (b.advance n)) :=
  ((after_advance b n).trans (after_skip _)).mono (by omega)

theorem after_behind (b : ParseBuffer) : After 1 b (behind b) := after_skip_advance b 1

theorem after_loopStart (b : ParseBuffer) : After 0 b (loopStart b) :=
  ⟨(after_behind b).content, by
    have := (after_behind b).offset
    simp only [loopStart]
    omega⟩

theorem after_close {b e f : ParseBuffer} (h : After 0 b e) (h' : After 1 e f) (depth : Nat) :
    After 1 b { f.advance 1 with depth } :=
  ⟨h'.content.trans h.content, by
    have := h.offset
    have := h'.offset
    simp only [ParseBuffer.advance]
    omega⟩

theorem after_empty (b : ParseBuffer) : After 1 b ((behind b).advance 1) :=
  ((after_behind b).trans (after_advance _ 1)).mono (by omega)

theorem canAccess_of_isAt {b : ParseBuffer} {c : Byte} (h : b.isAt c = true) :
    b.canAccess 0 = true := by
  simp only [ParseBuffer.isAt, Bool.and_eq_true] at h
  exact h.1

/-- **Step lemma** of the five functions: one more unit of fuel. -/
theorem consumes_succ {fuel : Nat} (h : Consumes fuel) : Consumes (fuel + 1) where
  value := by
    intro b item e he
    cases parseValue_ok he with
    | null => exact (after_advance b 4).mono (by omega)
    | false => exact (after_advance b 5).mono (by omega)
    | true => exact (after_advance b 4).mono (by omega)
    | string hs => exact (after_parseString hs).mono (by omega)
    | number hn => exact after_parseNumber hn
    | array ha => exact h.array b item e ha
    | object ho => exact h.object b item e ho
  array := by
    intro b item e he
    rcases (parseArray_ok he).2 with ⟨-, -, rfl⟩ | ⟨-, items, f, hf, -, -, rfl⟩
    · exact after_empty b
    · exact after_close (after_loopStart b) (h.elements _ _ _ hf) _
  elements := by
    intro b items e he
    obtain ⟨item, f, hf, hrest⟩ := parseElements_ok he
    have hitem := ((after_behind b).trans (h.value _ _ _ hf)).trans (after_skip f)
    rcases hrest with ⟨-, -, rfl⟩ | ⟨-, rest, hg, -⟩
    · exact hitem.mono (by omega)
    · exact (hitem.trans (h.elements _ _ _ hg)).mono (by omega)
  object := by
    intro b item e he
    rcases (parseObject_ok he).2 with ⟨-, -, rfl⟩ | ⟨-, items, f, hf, -, -, rfl⟩
    · exact after_empty b
    · exact after_close (after_loopStart b) (h.members _ _ _ hf) _
  members := by
    intro b items e he
    obtain ⟨name, k, item, f, hk, -, hf, hrest⟩ := parseMembers_ok he
    have hname := ((after_behind b).trans (after_parseString hk)).trans (after_skip k)
    have hvalue := hname.trans ((after_behind _).trans (h.value _ _ _ hf))
    have hitem := hvalue.trans (after_skip f)
    rcases hrest with ⟨-, -, rfl⟩ | ⟨-, rest, hg, -⟩
    · exact hitem.mono (by omega)
    · exact (hitem.trans (h.members _ _ _ hg)).mono (by omega)

theorem consumes (fuel : Nat) : Consumes fuel := by
  induction fuel with
  | zero => constructor <;> intro b r e he <;> cases he
  | succ fuel ih => exact consumes_succ ih

/-- **Progress.** -/
theorem parseValue_consumes {fuel : Nat} {b e : ParseBuffer} {item : Item}
    (h : parseValue fuel b = .ok (item, e)) : After 1 b e := (consumes fuel).value b item e h

/-! ## The fuel is enough -/

def remaining (b : ParseBuffer) : Nat := b.content.length - b.offset

theorem remaining_after {n : Nat} {b e : ParseBuffer} (h : After n b e) :
    remaining e ≤ remaining b - n := by
  have := h.offset
  simp only [remaining, h.content]
  omega

/-- The fuel that each function needs for what remains of the text. -/
structure Enough (fuel : Nat) : Prop where
  value : ∀ b, 3 * remaining b + 1 ≤ fuel → parseValue fuel b ≠ .error .outOfFuel
  array : ∀ b, 1 ≤ remaining b → 3 * remaining b ≤ fuel → parseArray fuel b ≠ .error .outOfFuel
  elements : ∀ b, 1 ≤ remaining b → 3 * remaining b ≤ fuel + 1 →
    parseElements fuel b ≠ .error .outOfFuel
  object : ∀ b, 1 ≤ remaining b → 3 * remaining b ≤ fuel → parseObject fuel b ≠ .error .outOfFuel
  members : ∀ b, 1 ≤ remaining b → 3 * remaining b ≤ fuel + 1 →
    parseMembers fuel b ≠ .error .outOfFuel

theorem remaining_of_canAccess {b : ParseBuffer} (h : b.canAccess 0 = true) : 1 ≤ remaining b := by
  simp only [ParseBuffer.canAccess, decide_eq_true_eq] at h
  simp only [remaining]
  omega

theorem remaining_stepBack {b e : ParseBuffer} (h : After 1 b e) (hcan : e.canAccess 0 = true)
    (depth : Nat) :
    1 ≤ remaining { e with offset := e.offset - 1, depth } ∧
      remaining { e with offset := e.offset - 1, depth } ≤ remaining b := by
  have hpos := remaining_of_canAccess hcan
  have hoff := h.offset
  simp only [remaining, h.content] at hpos ⊢
  omega

theorem accepted_ne_outOfFuel {α : Type} (o : Option α) : accepted o ≠ .error .outOfFuel := by
  cases o <;> simp [accepted]

theorem enough_value {fuel : Nat} (h : Enough fuel) {b : ParseBuffer}
    (hb : 3 * remaining b + 1 ≤ fuel + 1) : parseValue (fuel + 1) b ≠ .error .outOfFuel := by
  intro he
  unfold parseValue at he
  split at he
  · cases he
  split at he
  · cases he
  split at he
  · cases he
  split at he
  · cases hs : parseString b <;> rw [hs] at he <;> cases he
  split at he
  · exact accepted_ne_outOfFuel _ he
  split at he
  · rename_i hat
    have := remaining_of_canAccess (canAccess_of_isAt hat)
    exact h.array b this (by omega) he
  split at he
  · rename_i hat
    have := remaining_of_canAccess (canAccess_of_isAt hat)
    exact h.object b this (by omega) he
  · cases he

theorem enough_array {fuel : Nat} (h : Enough fuel) {b : ParseBuffer}
    (hb : 3 * remaining b ≤ fuel + 1) : parseArray (fuel + 1) b ≠ .error .outOfFuel := by
  intro he
  unfold parseArray at he
  split at he
  · cases he
  split at he
  · cases he
  simp only at he
  split at he
  · cases he
  split at he
  · cases he
  rename_i hcan
  obtain ⟨hlo, hhi⟩ := remaining_stepBack (after_skip_advance b 1) (by simpa using hcan)
    (b.depth + 1)
  rcases bind_eq_error.mp he with hx | ⟨⟨items, f⟩, -, hx⟩
  · exact h.elements _ hlo (by omega) hx
  · simp only at hx
    split at hx <;> cases hx

theorem enough_elements {fuel : Nat} (h : Enough fuel) {b : ParseBuffer} (hpos : 1 ≤ remaining b)
    (hb : 3 * remaining b ≤ fuel + 1 + 1) : parseElements (fuel + 1) b ≠ .error .outOfFuel := by
  intro he
  unfold parseElements at he
  have hskip := remaining_after (after_skip_advance b 1)
  rcases bind_eq_error.mp he with hx | ⟨⟨item, f⟩, hf, hx⟩
  · exact h.value _ (by omega) hx
  have hitem := remaining_after (((after_skip_advance b 1).trans
    (parseValue_consumes hf)).trans (after_skip f))
  simp only at hx
  split at hx
  · rename_i hat
    have := remaining_of_canAccess (canAccess_of_isAt hat)
    rcases bind_eq_error.mp hx with hy | ⟨⟨items, g⟩, -, hy⟩
    · exact h.elements _ this (by omega) hy
    · cases hy
  · cases hx

theorem enough_object {fuel : Nat} (h : Enough fuel) {b : ParseBuffer}
    (hb : 3 * remaining b ≤ fuel + 1) : parseObject (fuel + 1) b ≠ .error .outOfFuel := by
  intro he
  unfold parseObject at he
  split at he
  · cases he
  split at he
  · cases he
  simp only at he
  split at he
  · cases he
  split at he
  · cases he
  rename_i hcan
  obtain ⟨hlo, hhi⟩ := remaining_stepBack (after_skip_advance b 1) (by simpa using hcan)
    (b.depth + 1)
  rcases bind_eq_error.mp he with hx | ⟨⟨items, f⟩, -, hx⟩
  · exact h.members _ hlo (by omega) hx
  · simp only at hx
    split at hx <;> cases hx

theorem enough_members {fuel : Nat} (h : Enough fuel) {b : ParseBuffer} (hpos : 1 ≤ remaining b)
    (hb : 3 * remaining b ≤ fuel + 1 + 1) : parseMembers (fuel + 1) b ≠ .error .outOfFuel := by
  intro he
  unfold parseMembers at he
  rcases bind_eq_error.mp he with hx | ⟨⟨name, k⟩, hk, hx⟩
  · exact accepted_ne_outOfFuel _ hx
  have hname := (after_skip_advance b 1).trans (after_parseString (accepted_ok hk))
  have hcolon := (hname.trans (after_skip k)).trans (after_skip_advance _ 1)
  have hvalue := remaining_after hcolon
  simp only at hx
  split at hx
  · cases hx
  rcases bind_eq_error.mp hx with hy | ⟨⟨item, f⟩, hf, hy⟩
  · exact h.value _ (by omega) hy
  have hitem := remaining_after ((hcolon.trans (parseValue_consumes hf)).trans (after_skip f))
  simp only at hy
  split at hy
  · rename_i hat
    have := remaining_of_canAccess (canAccess_of_isAt hat)
    rcases bind_eq_error.mp hy with hz | ⟨⟨items, g⟩, -, hz⟩
    · exact h.members _ this (by omega) hz
    · cases hz
  · cases hy

theorem enough (fuel : Nat) : Enough fuel := by
  induction fuel with
  | zero => constructor <;> intros <;> omega
  | succ fuel ih =>
    constructor
    · exact fun b hb => enough_value ih hb
    · exact fun b _ hb => enough_array ih hb
    · exact fun b hpos hb => enough_elements ih hpos hb
    · exact fun b _ hb => enough_object ih hb
    · exact fun b hpos hb => enough_members ih hpos hb

/-- **The fuel is enough**: a text is accepted or rejected. -/
theorem parseWithLength_ne_outOfFuel (value : List Byte) :
    parseWithLengthOpts value ≠ .error .outOfFuel := by
  intro h
  unfold parseWithLengthOpts at h
  split at h
  · cases h
  have hbom : After 0 ⟨value, 0, 0⟩ (skipUtf8Bom ⟨value, 0, 0⟩) := by
    unfold skipUtf8Bom
    split
    · exact (after_advance _ 3).mono (by omega)
    · exact ⟨rfl, Nat.le_refl _⟩
  have hrem := remaining_after (hbom.trans (after_skip _))
  have hstart : remaining ⟨value, 0, 0⟩ = value.length := rfl
  cases hv : parseValue (3 * value.length + 1)
      (bufferSkipWhitespace (skipUtf8Bom ⟨value, 0, 0⟩)) with
  | ok r => rw [hv] at h; cases h
  | error e =>
    rw [hv] at h
    cases h
    exact (enough _).value _ (by omega) hv

/-! ## Items of a parsed tree -/

/-- `P` holds of whatever the parser builds: of the leaves, and of an array or an object
when it holds of the items in it, which an object names. -/
structure Built (P : Item → Prop) : Prop where
  null : P { newItem with type := .null }
  false : P { newItem with type := .false }
  true : P { newItem with type := .true, valueint := 1 }
  string : ∀ output, P { newItem with type := .string, valuestring := some output }
  number : ∀ d, P (createNumber d)
  array : ∀ items, (∀ c ∈ items, P c) → P { newItem with type := .array, child := items }
  object : ∀ items, (∀ c ∈ items, P c) → P { newItem with type := .object, child := items }
  named : ∀ name item, P item → P { item with string := some name }

structure Parses (P : Item → Prop) (fuel : Nat) : Prop where
  value : ∀ b item e, parseValue fuel b = .ok (item, e) → P item
  array : ∀ b item e, parseArray fuel b = .ok (item, e) → P item
  elements : ∀ b items e, parseElements fuel b = .ok (items, e) → ∀ c ∈ items, P c
  object : ∀ b item e, parseObject fuel b = .ok (item, e) → P item
  members : ∀ b items e, parseMembers fuel b = .ok (items, e) → ∀ c ∈ items, P c

section Built

variable {P : Item → Prop} (hP : Built P)
include hP

theorem parseValue_built {fuel : Nat} (h : Parses P fuel) {b e : ParseBuffer} {item : Item}
    (he : parseValue (fuel + 1) b = .ok (item, e)) : P item := by
  cases parseValue_ok he with
  | null => exact hP.null
  | false => exact hP.false
  | true => exact hP.true
  | string _ => exact hP.string _
  | number hn =>
    simp only [parseNumber, Option.map_eq_some_iff] at hn
    obtain ⟨r, -, hr⟩ := hn
    cases hr
    exact hP.number r.1
  | array ha => exact h.array b item e ha
  | object ho => exact h.object b item e ho

theorem parseArray_built {fuel : Nat} (h : Parses P fuel) {b e : ParseBuffer} {item : Item}
    (he : parseArray (fuel + 1) b = .ok (item, e)) : P item := by
  rcases (parseArray_ok he).2 with ⟨-, rfl, -⟩ | ⟨-, items, f, hf, -, rfl, -⟩
  · exact hP.array [] nofun
  · exact hP.array items (h.elements _ _ _ hf)

omit hP in
theorem parseElements_built {fuel : Nat} (h : Parses P fuel) {b e : ParseBuffer}
    {items : List Item} (he : parseElements (fuel + 1) b = .ok (items, e)) :
    ∀ c ∈ items, P c := by
  obtain ⟨item, f, hf, ⟨-, rfl, -⟩ | ⟨-, rest, hg, rfl⟩⟩ := parseElements_ok he
  · exact List.forall_mem_singleton.mpr (h.value _ _ _ hf)
  · exact List.forall_mem_cons.mpr ⟨h.value _ _ _ hf, h.elements _ _ _ hg⟩

theorem parseObject_built {fuel : Nat} (h : Parses P fuel) {b e : ParseBuffer} {item : Item}
    (he : parseObject (fuel + 1) b = .ok (item, e)) : P item := by
  rcases (parseObject_ok he).2 with ⟨-, rfl, -⟩ | ⟨-, items, f, hf, -, rfl, -⟩
  · exact hP.object [] nofun
  · exact hP.object items (h.members _ _ _ hf)

theorem parseMembers_built {fuel : Nat} (h : Parses P fuel) {b e : ParseBuffer}
    {items : List Item} (he : parseMembers (fuel + 1) b = .ok (items, e)) :
    ∀ c ∈ items, P c := by
  obtain ⟨name, k, item, f, -, -, hf, hrest⟩ := parseMembers_ok he
  have hitem := hP.named name item (h.value _ _ _ hf)
  rcases hrest with ⟨-, rfl, -⟩ | ⟨-, rest, hg, rfl⟩
  · exact List.forall_mem_singleton.mpr hitem
  · exact List.forall_mem_cons.mpr ⟨hitem, h.members _ _ _ hg⟩

/-- The rule for all five functions, by induction on the fuel. -/
theorem parses (fuel : Nat) : Parses P fuel := by
  induction fuel with
  | zero => constructor <;> intro b r e he <;> cases he
  | succ fuel ih =>
    constructor
    · exact fun b item e he => parseValue_built hP ih he
    · exact fun b item e he => parseArray_built hP ih he
    · exact fun b items e he => parseElements_built ih he
    · exact fun b item e he => parseObject_built hP ih he
    · exact fun b items e he => parseMembers_built hP ih he

/-- **Rule of the parser.** -/
theorem parseWithLength_built {value : List Byte} {root : Item}
    (h : parseWithLength value = some root) : P root := by
  unfold parseWithLength parseWithLengthOpts at h
  split at h
  · cases h
  cases hv : parseValue (3 * value.length + 1)
      (bufferSkipWhitespace (skipUtf8Bom ⟨value, 0, 0⟩)) with
  | error e => rw [hv] at h; cases h
  | ok r =>
    rw [hv] at h
    cases h
    exact (parses hP _).value _ _ _ hv

end Built

/-- `x` is an item of the tree `t`. -/
inductive Within : Item → Item → Prop
  | self (t : Item) : Within t t
  | child {x c t : Item} : c ∈ t.child → Within x c → Within x t

/-- What holds of an item whatever its name and its children are, and of the leaves, holds
throughout a tree that the parser builds. -/
theorem built_within {Q : Item → Prop} (leaves : Built Q)
    (frame : ∀ item name items, Q item → Q { item with string := name, child := items }) :
    Built fun t => ∀ x, Within x t → Q x := by
  have hleaf {t : Item} (ht : Q t) (hc : t.child = []) : ∀ x, Within x t → Q x := by
    intro x hx
    cases hx with
    | self => exact ht
    | child hmem _ => simp [hc] at hmem
  have hnode {t : Item} (ht : Q t) (hc : ∀ c ∈ t.child, ∀ x, Within x c → Q x) :
      ∀ x, Within x t → Q x := by
    intro x hx
    cases hx with
    | self => exact ht
    | child hmem hin => exact hc _ hmem x hin
  constructor
  · exact hleaf leaves.null rfl
  · exact hleaf leaves.false rfl
  · exact hleaf leaves.true rfl
  · exact fun output => hleaf (leaves.string output) rfl
  · exact fun d => hleaf (leaves.number d) rfl
  · exact fun items h => hnode (frame _ none items (leaves.array [] nofun)) h
  · exact fun items h => hnode (frame _ none items (leaves.object [] nofun)) h
  · intro name item h
    exact hnode (frame _ (some name) item.child (h item (.self item))) fun c hc x hx =>
      h x (.child hc hx)

/-! ## Numbers of a parsed tree -/

/-- A number whose `valueint` belongs to its `valuedouble`. -/
def Saturated (x : Item) : Prop := x.type = .number → x.valueint = saturate x.valuedouble

def AllSaturated (t : Item) : Prop := ∀ x, Within x t → Saturated x

theorem built_saturated : Built Saturated where
  null := nofun
  false := nofun
  true := nofun
  string _ := nofun
  number _ _ := rfl
  array _ _ := nofun
  object _ _ := nofun
  named _ _ h := h

/-- **Every number of a parsed tree is saturated.** -/
theorem parseWithLength_saturated {value : List Byte} {root : Item}
    (h : parseWithLength value = some root) : AllSaturated root :=
  parseWithLength_built (built_within built_saturated fun _ _ _ h => h) h

/-- A number has the `valueint` of its `valuedouble`, `true` has 1 and all else 0. -/
def Valued (x : Item) : Prop :=
  x.valueint =
    if x.type = .number then saturate x.valuedouble else if x.type = .true then 1 else 0

theorem built_valued : Built Valued where
  null := rfl
  false := rfl
  true := rfl
  string _ := rfl
  number _ := rfl
  array _ _ := rfl
  object _ _ := rfl
  named _ _ h := h

/-- **The `valueint` of every item of a parsed tree.** -/
theorem parseWithLength_valued {value : List Byte} {root x : Item}
    (h : parseWithLength value = some root) (hx : Within x root) : Valued x :=
  parseWithLength_built (built_within built_valued fun _ _ _ h => h) h x hx

theorem within_getObjectItem {t c : Item} {name : List Byte}
    (hc : getObjectItem t name = some c) {r : Item} (ht : Within t r) : Within c r := by
  have hmem := List.mem_of_find?_eq_some hc
  induction ht with
  | self => exact .child hmem (.self c)
  | child hin _ ih => exact .child hin ih

theorem allSaturated_getObjectItem {t c : Item} {name : List Byte} (h : AllSaturated t)
    (hc : getObjectItem t name = some c) : AllSaturated c :=
  fun x hx => h x (.child (List.mem_of_find?_eq_some hc) hx)

/-! ## Integers -/

theorem isNumberChar_of_mem_literal {n : Int} {c : Byte} (h : c ∈ literal n) :
    isNumberChar c = true := by
  have hdigit : ∀ c ∈ decimal n.natAbs, isNumberChar c = true := fun c hc => by
    simp [isNumberChar, isDigit_of_mem_decimal hc]
  unfold literal at h
  split at h
  · rcases List.mem_cons.mp h with rfl | h
    · decide
    · exact hdigit c h
  · exact hdigit c h

/-- An integer in the text, up to a byte that is not of a number, becomes the
item that `cJSON_CreateNumber` makes for it. -/
theorem parseNumber_literal {n : Int} (h : |n| < 2 ^ 53) {b : ParseBuffer} {s : List Byte}
    (hb : b.rest = literal n ++ s) (hs : ∀ c ∈ s.head?, isNumberChar c = false) :
    parseNumber b = some (createNumber (.finite n (representable_intCast h)),
      b.advance (literal n).length) := by
  have hlen : (literal n).length ≤ 17 := by
    have hnat : n.natAbs < 10 ^ (15 + 1) := by
      rw [Int.abs_eq_natAbs] at h
      omega
    have := decimal_length_le hnat
    unfold literal
    split <;> simp <;> omega
  have htake : (b.rest.take 63).takeWhile isNumberChar = literal n := by
    rw [hb, List.take_append, List.take_of_length_le (by omega),
      List.takeWhile_append_of_pos fun c hc => isNumberChar_of_mem_literal hc]
    cases s with
    | nil => simp
    | cons c s =>
      obtain ⟨k, hk⟩ : ∃ k, 63 - (literal n).length = k + 1 := ⟨62 - (literal n).length, by omega⟩
      rw [hk, List.take_succ_cons, List.takeWhile_cons_of_neg (by simp [hs c (by simp)]),
        List.append_nil]
  rw [parseNumber, htake, strtod_literal h]
  rfl

end MqttDevice.CJson
