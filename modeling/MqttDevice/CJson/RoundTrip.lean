import MqttDevice.CJson.Print
import MqttDevice.CJson.Text

/-!
# What is printed is read back (`cJSON.c`)

`print_value` and its parts on one side, `parse_value` and its parts on the other.

* `parseString_printStringPtr`: a string, with whatever bytes in it;
* `parseValue_printValue`: a value, followed by anything that cannot be taken for more of it;
* `print_parse`: a tree is read back from its text, with and without format.
-/

namespace MqttDevice.CJson

open MqttDevice.Ascii MqttDevice.Binary64

/-! ## Strings -/

theorem closingQuote_skip {c : Byte} (hquote : c ≠ ch '"') (hback : c ≠ ch '\\') (s : List Byte) :
    closingQuote (c :: s) = (closingQuote s).map (· + 1) := by
  rw [closingQuote.eq_def]
  dsimp only
  rw [if_neg hquote, if_neg hback]

theorem closingQuote_escape (e : Byte) (s : List Byte) :
    closingQuote (ch '\\' :: e :: s) = (closingQuote s).map (· + 2) := by
  rw [closingQuote, if_neg (by decide), if_pos rfl]

/-- The forms of a byte inside the quotes. -/
inductive Escaped (c : Byte) : List Byte → Prop
  | plain (low : 31 < c) (quote : c ≠ ch '"') (back : c ≠ ch '\\') : Escaped c [c]
  | short (e : Byte) (letter : (e, c) ∈ [(ch 'b', 8), (ch 'f', 12), (ch 'n', 10), (ch 'r', 13),
      (ch 't', 9), (ch '"', ch '"'), (ch '\\', ch '\\')]) : Escaped c [ch '\\', e]
  | code (low : c < 32) : Escaped c
      [ch '\\', ch 'u', ch '0', ch '0', hexChar (c.toNat / 16), hexChar (c.toNat % 16)]

theorem escaped_escapeByte (c : Byte) : Escaped c (escapeByte c) := by
  unfold escapeByte
  split
  · rename_i h
    exact .plain h.1 h.2.1 h.2.2
  rename_i h
  split
  · rename_i hc
    exact .short (ch '\\') (hc ▸ by simp)
  split
  · rename_i hc
    exact .short (ch '"') (hc ▸ by simp)
  rename_i hback hquote
  have hlow : c < 32 := by
    simp only [hback, hquote, ne_eq, not_false_eq_true, and_true] at h
    bv_omega
  split
  · rename_i hc
    exact .short (ch 'b') (hc ▸ by simp)
  split
  · rename_i hc
    exact .short (ch 'f') (hc ▸ by simp)
  split
  · rename_i hc
    exact .short (ch 'n') (hc ▸ by simp)
  split
  · rename_i hc
    exact .short (ch 'r') (hc ▸ by simp)
  split
  · rename_i hc
    exact .short (ch 't') (hc ▸ by simp)
  · exact .code hlow

/-- The closing quote is not among the bytes of a string. -/
theorem closingQuote_escaped {c : Byte} {e : List Byte} (h : Escaped c e) (s : List Byte) :
    closingQuote (e ++ s) = (closingQuote s).map (· + e.length) := by
  have hmap : ∀ m n : Nat, ((closingQuote s).map (· + m)).map (· + n) =
      (closingQuote s).map (· + (m + n)) := by
    intro m n
    rw [Option.map_map]
    congr 1
    funext k
    exact Nat.add_assoc k m n
  cases h with
  | plain low quote back => exact closingQuote_skip quote back s
  | short e letter => exact closingQuote_escape e s
  | code low =>
    have hhex : ∀ d < 16, hexChar d ≠ ch '"' ∧ hexChar d ≠ ch '\\' := by decide
    obtain ⟨hhigh, hhigh'⟩ := hhex (c.toNat / 16) (by have := c.isLt; omega)
    obtain ⟨hlow, hlow'⟩ := hhex (c.toNat % 16) (Nat.mod_lt _ (by decide))
    simp only [List.cons_append, List.nil_append]
    rw [closingQuote_escape, closingQuote_skip (by decide) (by decide),
      closingQuote_skip (by decide) (by decide), closingQuote_skip hhigh hhigh',
      closingQuote_skip hlow hlow']
    simp only [hmap]
    rfl

theorem closingQuote_string (l s : List Byte) :
    closingQuote (l.flatMap escapeByte ++ ch '"' :: s) = some (l.flatMap escapeByte).length := by
  induction l with
  | nil =>
    rw [List.flatMap_nil, List.nil_append, closingQuote.eq_def]
    exact if_pos rfl
  | cons c l ih =>
    rw [List.flatMap_cons, List.append_assoc, closingQuote_escaped (escaped_escapeByte c), ih,
      List.length_append, Option.map_some, Nat.add_comm]

theorem utf16LiteralToUtf8_code {c : Byte} (hc : c < 32) (left : Nat) (t : List Byte) :
    utf16LiteralToUtf8 (left + 6) (ch '\\' :: ch 'u' :: ch '0' :: ch '0' ::
      hexChar (c.toNat / 16) :: hexChar (c.toNat % 16) :: t) = some ([c], 6) := by
  have hcode : ∀ c < (32 : Byte), parseHex4 (ch '0') (ch '0') (hexChar (c.toNat / 16))
      (hexChar (c.toNat % 16)) = c.toNat := by decide
  have hutf8 : ∀ c < (32 : Byte), encodeUtf8 c.toNat = some [c] := by decide
  have hsmall : c.toNat < 32 := hc
  rw [utf16LiteralToUtf8, if_neg (by omega)]
  dsimp only
  rw [hcode c hc, if_neg (by omega), if_neg (by omega), hutf8 c hc]
  rfl

/-- One byte of a string is read back. -/
theorem unescape_escaped {c : Byte} {e : List Byte} (h : Escaped c e) {fuel left : Nat}
    (hfuel : left + e.length ≤ fuel) {t : List Byte} (ht : t ≠ []) :
    unescape fuel (left + e.length) (e ++ t) = (unescape left left t).map (c :: ·) := by
  obtain ⟨fuel, rfl⟩ : ∃ f, fuel = f + 1 := by
    refine ⟨fuel - 1, ?_⟩
    cases h <;> simp only [List.length_cons] at hfuel <;> omega
  have hrec : ∀ {m}, m = left → unescape fuel m t = unescape left left t := by
    rintro m rfl
    refine unescape_fuel ?_ le_rfl
    cases h <;> simp only [List.length_cons] at hfuel <;> omega
  cases h with
  | plain low quote back =>
    obtain ⟨d, t, rfl⟩ := List.exists_cons_of_ne_nil ht
    have hleft : left + [c].length = left + 1 := rfl
    rw [hleft, List.singleton_append]
    simp [unescape, back, hrec]
  | short e letter =>
    simp only [List.mem_cons, Prod.mk.injEq, List.not_mem_nil, or_false] at letter
    have hleft : left + [ch '\\', e].length = left + 1 + 1 := rfl
    rw [hleft, List.cons_append, List.singleton_append]
    rcases letter with ⟨rfl, rfl⟩ | ⟨rfl, rfl⟩ | ⟨rfl, rfl⟩ | ⟨rfl, rfl⟩ | ⟨rfl, rfl⟩ | ⟨rfl, rfl⟩ |
      ⟨rfl, rfl⟩ <;> simp [unescape, ch, hrec]
  | code low =>
    have hleft : left + [ch '\\', ch 'u', ch '0', ch '0', hexChar (c.toNat / 16),
      hexChar (c.toNat % 16)].length = left + 5 + 1 := rfl
    have hcode : utf16LiteralToUtf8 (left + 5 + 1) (92#8 :: 117#8 :: 48#8 :: 48#8 ::
        hexChar (c.toNat / 16) :: hexChar (c.toNat % 16) :: t) = some ([c], 6) :=
      utf16LiteralToUtf8_code low left t
    rw [hleft]
    simp [unescape, ch, hcode, hrec]

theorem unescape_string (l s : List Byte) {fuel : Nat}
    (hfuel : (l.flatMap escapeByte).length ≤ fuel) :
    unescape fuel (l.flatMap escapeByte).length (l.flatMap escapeByte ++ ch '"' :: s) = some l := by
  induction l generalizing fuel with
  | nil => rw [List.flatMap_nil, List.length_nil, unescape]
  | cons c l ih =>
    rw [List.flatMap_cons, List.length_append] at hfuel ⊢
    rw [Nat.add_comm] at hfuel ⊢
    rw [List.append_assoc, unescape_escaped (escaped_escapeByte c) hfuel (by simp), ih le_rfl]
    rfl

/-- **A string is read back**, up to its first zero. -/
theorem parseString_printStringPtr {b : ParseBuffer} {l : Option (List Byte)} {s : List Byte}
    (hb : b.rest = printStringPtr l ++ s) :
    parseString b = some (cString (l.getD []), b.advance (printStringPtr l).length) := by
  have hoffset : b.content.drop b.offset = printStringPtr l ++ s := hb
  have hbyte : b.byte = ch '"' := by
    rw [ParseBuffer.byte, List.getD_eq_getElem?_getD, ← List.head?_drop, hoffset]
    cases l <;> rfl
  have hs : b.rest.drop 1 = (cString (l.getD [])).flatMap escapeByte ++ ch '"' :: s := by
    rw [hb]
    cases l with
    | none => rfl
    | some l => simp [printStringPtr]
  have hlen : (printStringPtr l).length =
      ((cString (l.getD [])).flatMap escapeByte).length + 2 := by
    cases l with
    | none => rfl
    | some l => simp [printStringPtr]
  rw [parseString, if_neg (not_not_intro hbyte), hs, hlen]
  simp only [closingQuote_string, unescape_string _ _ le_rfl, Option.bind_eq_bind, Option.bind_some]

/-! ## The buffer -/

namespace ParseBuffer

variable {b : ParseBuffer} {c : Byte} {l t : List Byte}

theorem rest_advance (h : b.rest = l ++ t) : (b.advance l.length).rest = t := by
  have hdrop : (b.advance l.length).rest = b.rest.drop l.length := List.drop_drop.symm
  rw [hdrop, h, List.drop_left]

theorem advance_advance (b : ParseBuffer) (m n : Nat) :
    (b.advance m).advance n = b.advance (m + n) := by
  simp [advance, Nat.add_assoc]

theorem offset_lt (h : b.rest = c :: t) : b.offset < b.content.length := by
  by_contra hge
  have hnil : b.rest = [] := List.drop_eq_nil_of_le (Nat.not_lt.mp hge)
  rw [h] at hnil
  cases hnil

theorem byte_of_rest (h : b.rest = c :: t) : b.byte = c := by
  have hdrop : b.content.drop b.offset = c :: t := h
  rw [byte, List.getD_eq_getElem?_getD, ← List.head?_drop, hdrop]
  rfl

theorem canAccess_of_rest (h : b.rest = c :: t) : b.canAccess 0 = true :=
  decide_eq_true (offset_lt h)

theorem isAt_of_rest (h : b.rest = c :: t) : b.isAt c = true :=
  isAt_iff.mpr ⟨offset_lt h, byte_of_rest h⟩

theorem not_isAt_of_rest (h : b.rest = c :: t) {d : Byte} (hd : d ≠ c) : b.isAt d = false :=
  isAt_eq_false (isAt_of_rest h) hd

theorem startsWith_of_rest (h : b.rest = l ++ t) : b.startsWith l = true := by
  rw [startsWith, h]
  simp

end ParseBuffer

open ParseBuffer

/-- Whitespace is skipped up to the next byte. -/
theorem skip_of_rest {b : ParseBuffer} {ws t : List Byte} {c : Byte} (h : b.rest = ws ++ c :: t)
    (hws : ∀ w ∈ ws, w ≤ 32) (hc : 32 < c) : bufferSkipWhitespace b = b.advance ws.length := by
  have hcan : b.canAccess 0 = true := by
    cases ws with
    | nil => exact canAccess_of_rest h
    | cons w ws => exact canAccess_of_rest h
  have hspace : b.rest.takeWhile (· ≤ 32) = ws := by
    rw [h, List.takeWhile_append_of_pos fun w hw => decide_eq_true (hws w hw),
      List.takeWhile_cons_of_neg (by simpa using hc), List.append_nil]
  have hlt : b.offset + ws.length < b.content.length :=
    offset_lt (b := b.advance ws.length) (rest_advance h)
  rw [bufferSkipWhitespace, if_pos hcan, hspace]
  dsimp only
  rw [if_neg (Nat.ne_of_lt hlt)]
  rfl

theorem skip_none {b : ParseBuffer} {t : List Byte} {c : Byte} (h : b.rest = c :: t)
    (hc : 32 < c) : bufferSkipWhitespace b = b :=
  skip_of_rest (h.trans (List.nil_append _).symm) (List.forall_mem_nil _) hc

/-! ## What is read back -/

/-- An integer of at most 15 digits. -/
def IsInteger : Double → Prop
  | .finite q _ => q.den = 1 ∧ q.num.natAbs < 10 ^ 15
  | .inf _ => False

mutual

/-- A tree without raw text, with integers of at most 15 digits, and no deeper than `levels`. -/
def Readable : Nat → Item → Prop
  | levels, ⟨type, _, _, valuedouble, _, child⟩ =>
    match type with
    | .number => IsInteger valuedouble
    | .array | .object => 0 < levels ∧ ReadableAll (levels - 1) child
    | .invalid | .raw => False
    | _ => True

def ReadableAll : Nat → List Item → Prop
  | _, [] => True
  | levels, item :: next => Readable levels item ∧ ReadableAll levels next

end

mutual

/-- What is read back: without a name, and with the `valueint` that the parser sets. -/
def readBack : Item → Item
  | ⟨type, valuestring, _, valuedouble, _, child⟩ =>
    match type with
    | .true => { newItem with type := .true, valueint := 1 }
    | .number => createNumber valuedouble
    | .string =>
      { newItem with type := .string, valuestring := some (cString (valuestring.getD [])) }
    | .array => { newItem with type := .array, child := readBackElements child }
    | .object => { newItem with type := .object, child := readBackMembers child }
    | _ => { newItem with type := type }

def readBackElements : List Item → List Item
  | [] => []
  | item :: next => readBack item :: readBackElements next

def readBackMembers : List Item → List Item
  | [] => []
  | item :: next =>
    { readBack item with string := some (cString (item.string.getD [])) } :: readBackMembers next

end

/-- No byte that could be more of a number. -/
def Follow (s : List Byte) : Prop := ∀ c ∈ s.head?, isNumberChar c = false

/-- The text of a value: what it begins with, and what the parser makes of it. -/
structure Reads (levels : Nat) (text : List Byte) (item : Item) : Prop where
  head : ∃ c t, text = c :: t ∧ 32 < c ∧ c ≠ ch ']' ∧ c ≠ 0xEF
  parse : ∀ (fuel : Nat) (b : ParseBuffer) {s : List Byte}, 2 * text.length ≤ fuel →
    b.depth + levels ≤ nestingLimit → b.rest = text ++ s → Follow s →
    parseValue fuel b = .ok (item, b.advance text.length)

/-- The text of the elements of an array. -/
structure ReadsElements (levels : Nat) (text : List Byte) (items : List Item) : Prop where
  head : ∃ c t, text = c :: t ∧ 32 < c ∧ c ≠ ch ']' ∧ c ≠ 0xEF
  parse : ∀ (fuel : Nat) (b : ParseBuffer) {s : List Byte}, 2 * text.length + 1 ≤ fuel →
    (behind b).depth + levels ≤ nestingLimit → (behind b).rest = text ++ ch ']' :: s →
    parseElements fuel b = .ok (items, (behind b).advance text.length)

theorem exists_fuel {m n : Nat} (h : m + 1 ≤ n) : ∃ k, n = k + 1 ∧ m ≤ k :=
  ⟨n - 1, by omega, by omega⟩

theorem reads_null (levels : Nat) :
    Reads levels (str "null") { newItem with type := .null } := by
  refine ⟨⟨_, _, rfl, by decide⟩, fun fuel b s hfuel _ hb _ => ?_⟩
  obtain ⟨fuel, rfl, -⟩ := exists_fuel (Nat.le_of_succ_le hfuel)
  unfold parseValue
  rw [if_pos (startsWith_of_rest hb)]
  rfl

theorem reads_false (levels : Nat) :
    Reads levels (str "false") { newItem with type := .false } := by
  refine ⟨⟨_, _, rfl, by decide⟩, fun fuel b s hfuel _ hb _ => ?_⟩
  obtain ⟨fuel, rfl, -⟩ := exists_fuel (Nat.le_of_succ_le hfuel)
  have hat : b.isAt (ch 'f') = true := isAt_of_rest (t := str "alse" ++ s) hb
  have hnull : b.startsWith (str "null") = false := startsWith_eq_false hat (by decide)
  unfold parseValue
  rw [if_neg (by rw [hnull]; exact Bool.false_ne_true), if_pos (startsWith_of_rest hb)]
  rfl

theorem reads_true (levels : Nat) :
    Reads levels (str "true") { newItem with type := .true, valueint := 1 } := by
  refine ⟨⟨_, _, rfl, by decide⟩, fun fuel b s hfuel _ hb _ => ?_⟩
  obtain ⟨fuel, rfl, -⟩ := exists_fuel (Nat.le_of_succ_le hfuel)
  have hat : b.isAt (ch 't') = true := isAt_of_rest (t := str "rue" ++ s) hb
  have hnull : b.startsWith (str "null") = false := startsWith_eq_false hat (by decide)
  have hfalse : b.startsWith (str "false") = false := startsWith_eq_false hat (by decide)
  unfold parseValue
  simp only [hnull, hfalse, startsWith_of_rest hb, Bool.false_eq_true, if_false, if_true]
  rfl

theorem parseValue_at_quote {fuel : Nat} {b : ParseBuffer} (hat : b.isAt (ch '"') = true) :
    parseValue (fuel + 1) b = (accepted (parseString b)).map fun (output, b) =>
      ({ newItem with type := .string, valuestring := some output }, b) := by
  have hn : b.startsWith (str "null") = false := startsWith_eq_false hat (by decide)
  have hf : b.startsWith (str "false") = false := startsWith_eq_false hat (by decide)
  have ht : b.startsWith (str "true") = false := startsWith_eq_false hat (by decide)
  unfold parseValue
  simp only [hn, hf, ht, hat, Bool.false_eq_true, if_false, if_true]

theorem parseValue_at_bracket {fuel : Nat} {b : ParseBuffer} (hat : b.isAt (ch '[') = true) :
    parseValue (fuel + 1) b = parseArray fuel b := by
  have hn : b.startsWith (str "null") = false := startsWith_eq_false hat (by decide)
  have hf : b.startsWith (str "false") = false := startsWith_eq_false hat (by decide)
  have ht : b.startsWith (str "true") = false := startsWith_eq_false hat (by decide)
  have hquote : b.isAt (ch '"') = false := isAt_eq_false hat (by decide)
  have hminus : b.isAt (ch '-') = false := isAt_eq_false hat (by decide)
  have hdigit : isDigit b.byte = false := by
    rw [(isAt_iff.mp hat).2]
    decide
  unfold parseValue
  simp only [hn, hf, ht, hquote, hminus, hdigit, hat, Bool.and_false, Bool.or_false,
    Bool.false_eq_true, if_false, if_true]

theorem printStringPtr_cons (l : Option (List Byte)) : ∃ t, printStringPtr l = ch '"' :: t := by
  cases l with
  | none => exact ⟨_, rfl⟩
  | some l => exact ⟨_, List.cons_append⟩

theorem reads_string (levels : Nat) (l : Option (List Byte)) :
    Reads levels (printStringPtr l)
      { newItem with type := .string, valuestring := some (cString (l.getD [])) } := by
  obtain ⟨t, ht⟩ := printStringPtr_cons l
  refine ⟨⟨_, _, ht, by decide⟩, fun fuel b s hfuel _ hb _ => ?_⟩
  have hlen : 1 ≤ (printStringPtr l).length := by
    rw [ht]
    exact Nat.succ_pos _
  obtain ⟨fuel, rfl, -⟩ := exists_fuel (m := 0) (n := fuel) (by omega)
  have hat : b.isAt (ch '"') = true := isAt_of_rest (hb.trans (by rw [ht]; rfl))
  rw [parseValue_at_quote hat, parseString_printStringPtr hb]
  rfl

theorem isInteger_eq {d : Double} (h : IsInteger d) :
    ∃ (n : Int) (hn : Representable n), |n| < 10 ^ 15 ∧ d = .finite n hn := by
  cases d with
  | inf neg => exact absurd h id
  | finite q hq =>
    obtain ⟨hden, hnum⟩ := h
    have hint : (q.num : ℚ) = q := (Rat.den_eq_one_iff q).mp hden
    refine ⟨q.num, hint.symm ▸ hq, ?_, ?_⟩
    · rw [Int.abs_eq_natAbs]
      exact_mod_cast hnum
    · simp only [hint]

theorem digit_visible : ∀ c : Byte, isDigit c = true → 32 < c ∧ c ≠ ch ']' ∧ c ≠ 0xEF := by
  decide

theorem reads_number (levels : Nat) {d : Double} (h : IsInteger d) :
    Reads levels (numberText d) (createNumber d) := by
  obtain ⟨n, hn, hlt, rfl⟩ := isInteger_eq h
  have hbound : |n| < 2 ^ 53 := hlt.trans (by norm_num)
  rw [numberText_intCast hlt hn]
  obtain ⟨c, t, hct, hc⟩ : ∃ c t, literal n = c :: t ∧ (c = ch '-' ∨ isDigit c = true) := by
    obtain ⟨d, ds, hds, hd⟩ := decimal_head n.natAbs
    unfold literal
    split
    · exact ⟨_, _, rfl, .inl rfl⟩
    · exact ⟨d, ds, hds, .inr hd⟩
  have hfirst : 32 < c ∧ c ≠ ch ']' ∧ c ≠ 0xEF := by
    rcases hc with rfl | hc
    · decide
    · exact digit_visible c hc
  refine ⟨⟨c, t, hct, hfirst⟩, fun fuel b s hfuel _ hb hs => ?_⟩
  have hlen : 1 ≤ (literal n).length := by
    rw [hct]
    exact Nat.succ_pos _
  obtain ⟨fuel, rfl, -⟩ := exists_fuel (m := 0) (n := fuel) (by omega)
  have hrest : b.rest = c :: (t ++ s) := hb.trans (by rw [hct]; rfl)
  have hat : (b.isAt (ch '-') || b.canAccess 0 && isDigit b.byte) = true := by
    rcases hc with rfl | hc
    · rw [isAt_of_rest hrest, Bool.true_or]
    · rw [canAccess_of_rest hrest, byte_of_rest hrest, hc, Bool.true_and, Bool.or_true]
  rw [parseValue_at_number hat, parseNumber_literal hbound hb hs]
  rfl

/-! ## Arrays -/

theorem reads_array_nil {levels : Nat} (hlevels : 0 < levels) :
    Reads levels (ch '[' :: [ch ']']) { newItem with type := .array } := by
  refine ⟨⟨_, _, rfl, by decide⟩, fun fuel b s hfuel hdepth hb _ => ?_⟩
  obtain ⟨fuel, rfl⟩ := Nat.exists_eq_add_of_le' (show 2 ≤ fuel from le_trans (by decide) hfuel)
  have hclose : (b.advance 1).rest = ch ']' :: s := rest_advance (l := [ch '[']) hb
  rw [parseValue_at_bracket (isAt_of_rest hb), parseArray, if_neg (by omega),
    if_neg (not_not_intro (byte_of_rest hb)), skip_none hclose (by decide)]
  dsimp only
  rw [if_pos (isAt_of_rest hclose), advance_advance]
  rfl

theorem parseArray_items {fuel : Nat} {b f : ParseBuffer} {items : List Item}
    (hdepth : b.depth < nestingLimit) (hopen : b.byte = ch '[')
    (hfirst : (behind b).isAt (ch ']') = false) (hcan : (behind b).canAccess 0 = true)
    (hitems : parseElements fuel (loopStart b) = .ok (items, f)) (hclose : f.isAt (ch ']') = true) :
    parseArray (fuel + 1) b = .ok
      ({ newItem with type := .array, child := items }, { f.advance 1 with depth := b.depth }) := by
  rw [parseArray, if_neg (Nat.not_le.mpr hdepth), if_neg (not_not_intro hopen)]
  dsimp only
  rw [← behind, hfirst, if_neg Bool.false_ne_true, if_neg (not_not_intro hcan), ← loopStart, hitems]
  exact if_pos hclose

/-- Where the loops of `parse_array` and `parse_object` read their first item. -/
theorem behind_loopStart {b : ParseBuffer} {first c : Byte} {ws t : List Byte}
    (h : b.rest = first :: (ws ++ c :: t)) (hws : ∀ w ∈ ws, w ≤ 32) (hc : 32 < c) :
    behind b = b.advance (1 + ws.length) ∧
      behind (loopStart b) = { b.advance (1 + ws.length) with depth := b.depth + 1 } := by
  have hrest : (b.advance 1).rest = ws ++ c :: t := rest_advance (l := [first]) h
  have hbehind : behind b = b.advance (1 + ws.length) := by
    rw [behind, skip_of_rest hrest hws hc, advance_advance]
  have hinner :
      ParseBuffer.rest { b.advance (1 + ws.length) with depth := b.depth + 1 } = c :: t := by
    have hlen : 1 + ws.length = (first :: ws).length := by rw [List.length_cons, Nat.add_comm]
    rw [hlen]
    exact rest_advance (l := first :: ws) h
  refine ⟨hbehind, ?_⟩
  rw [behind, loopStart, hbehind]
  have hback : ParseBuffer.advance { b.advance (1 + ws.length) with
      offset := (b.advance (1 + ws.length)).offset - 1, depth := b.depth + 1 } 1 =
      { b.advance (1 + ws.length) with depth := b.depth + 1 } := by
    simp only [ParseBuffer.advance, ParseBuffer.mk.injEq, true_and, and_true]
    omega
  rw [hback]
  exact skip_none hinner hc

theorem reads_array {levels : Nat} {text : List Byte} {items : List Item} (hlevels : 0 < levels)
    (h : ReadsElements (levels - 1) text items) :
    Reads levels (ch '[' :: (text ++ [ch ']']))
      { newItem with type := .array, child := items } := by
  refine ⟨⟨_, _, rfl, by decide⟩, fun fuel b s hfuel hdepth hb _ => ?_⟩
  have hlen : (ch '[' :: (text ++ [ch ']'])).length = text.length + 1 + 1 := by simp
  rw [hlen] at hfuel ⊢
  obtain ⟨fuel, rfl⟩ := Nat.exists_eq_add_of_le' (show 2 ≤ fuel by omega)
  obtain ⟨c, t, ht, hc, hclose, -⟩ := h.head
  have hopen : b.rest = ch '[' :: (text ++ ch ']' :: s) := hb.trans (by simp)
  have hcons : b.rest = ch '[' :: ([] ++ c :: (t ++ ch ']' :: s)) := hopen.trans (by rw [ht]; rfl)
  obtain ⟨hbehind, hloop⟩ := behind_loopStart hcons (List.forall_mem_nil _) hc
  have hfirst : (behind b).rest = c :: (t ++ ch ']' :: s) := by
    rw [hbehind]
    exact rest_advance (l := [ch '[']) hcons
  have hinner : (behind (loopStart b)).rest = text ++ ch ']' :: s := by
    rw [hloop]
    exact rest_advance (l := [ch '[']) hopen
  have hparse := h.parse fuel (loopStart b) (by omega) (by rw [hloop]; dsimp only; omega) hinner
  rw [parseValue_at_bracket (isAt_of_rest hopen), parseArray_items (by omega) (byte_of_rest hopen)
    (not_isAt_of_rest hfirst hclose.symm) (canAccess_of_rest hfirst) hparse
    (isAt_of_rest (rest_advance hinner)), hloop]
  have hoffset : b.offset + (1 + 0) + text.length + 1 = b.offset + (text.length + 1 + 1) := by omega
  simp only [ParseBuffer.advance, List.length_nil, hoffset]

theorem follow_cons {c : Byte} {s : List Byte} (hc : isNumberChar c = false) : Follow (c :: s) := by
  rintro d ⟨⟩
  exact hc

/-- What stands behind a byte and whitespace. -/
theorem behind_next {b : ParseBuffer} {first c : Byte} {ws t l : List Byte}
    (h : b.rest = first :: (ws ++ l)) (hws : ∀ w ∈ ws, w ≤ 32) (hc : 32 < c) (hl : l = c :: t) :
    behind b = b.advance (1 + ws.length) ∧ (behind b).rest = l := by
  subst hl
  have hbehind := (behind_loopStart h hws hc).1
  refine ⟨hbehind, ?_⟩
  have hlen : 1 + ws.length = (first :: ws).length := by rw [List.length_cons, Nat.add_comm]
  rw [hbehind, hlen]
  exact rest_advance (l := first :: ws) h

theorem parseElements_last {fuel : Nat} {b e : ParseBuffer} {item : Item} {c : Byte} {s : List Byte}
    (hvalue : parseValue fuel (behind b) = .ok (item, e)) (he : e.rest = c :: s) (hc : 32 < c)
    (hcomma : ch ',' ≠ c) : parseElements (fuel + 1) b = .ok ([item], e) := by
  rw [parseElements, ← behind, hvalue]
  change (if (bufferSkipWhitespace e).isAt (ch ',') then _ else _) = _
  rw [skip_none he hc, not_isAt_of_rest he hcomma]
  rfl

theorem parseElements_more {fuel : Nat} {b e f : ParseBuffer} {item : Item} {items : List Item}
    {s : List Byte} (hvalue : parseValue fuel (behind b) = .ok (item, e))
    (he : e.rest = ch ',' :: s) (hnext : parseElements fuel e = .ok (items, f)) :
    parseElements (fuel + 1) b = .ok (item :: items, f) := by
  rw [parseElements, ← behind, hvalue]
  change (if (bufferSkipWhitespace e).isAt (ch ',') then _ else _) = _
  rw [skip_none he (by decide), isAt_of_rest he, if_pos rfl, hnext]
  rfl

theorem reads_last {levels : Nat} {text : List Byte} {item : Item} (h : Reads levels text item) :
    ReadsElements levels text [item] := by
  refine ⟨h.head, fun fuel b s hfuel hdepth hrest => ?_⟩
  obtain ⟨fuel, rfl, hfuel'⟩ := exists_fuel hfuel
  have hvalue := h.parse fuel _ hfuel' hdepth hrest (follow_cons (by decide))
  exact parseElements_last hvalue (rest_advance hrest) (by decide) (by decide)

theorem reads_more {levels : Nat} {text rest ws : List Byte} {item : Item} {items : List Item}
    (h : Reads levels text item) (hws : ∀ w ∈ ws, w ≤ 32)
    (hrest : ReadsElements levels rest items) :
    ReadsElements levels (text ++ ch ',' :: (ws ++ rest)) (item :: items) := by
  obtain ⟨c, t, ht, hc⟩ := h.head
  refine ⟨⟨c, _, by rw [ht]; rfl, hc⟩, fun fuel b s hfuel hdepth hb => ?_⟩
  obtain ⟨c', t', ht', hc'⟩ := hrest.head
  obtain ⟨fuel, rfl, hfuel'⟩ := exists_fuel hfuel
  simp only [List.length_append, List.length_cons] at hfuel' ⊢
  have hsplit : (behind b).rest = text ++ ch ',' :: (ws ++ (rest ++ ch ']' :: s)) :=
    hb.trans (by simp)
  have hvalue := h.parse fuel _ (by omega) hdepth hsplit (follow_cons (by decide))
  generalize hk : (behind b).advance text.length = k at hvalue
  have hcomma : k.rest = ch ',' :: (ws ++ (rest ++ ch ']' :: s)) := hk ▸ rest_advance hsplit
  obtain ⟨hbehind, hinner⟩ := behind_next hcomma hws hc'.1 (by rw [ht']; rfl)
  have hnext := hrest.parse fuel k (by omega) (by rw [hbehind, ← hk]; exact hdepth) hinner
  rw [parseElements_more hvalue hcomma hnext, hbehind, ← hk, advance_advance, advance_advance]
  congr 3
  omega

/-! ## Objects -/

/-- The text of the members of an object, from the first name on. -/
structure ReadsMembers (levels : Nat) (text : List Byte) (items : List Item) : Prop where
  head : ∃ t, text = ch '"' :: t
  parse : ∀ (fuel : Nat) (b : ParseBuffer) {ws s : List Byte}, 2 * text.length + 1 ≤ fuel →
    (behind b).depth + levels ≤ nestingLimit → (∀ w ∈ ws, w ≤ 32) →
    (behind b).rest = text ++ (ws ++ ch '}' :: s) →
    parseMembers fuel b = .ok (items, (behind b).advance (text.length + ws.length))

/-- A name and a value. -/
def memberText (name : Option (List Byte)) (gap value : List Byte) : List Byte :=
  printStringPtr name ++ ch ':' :: (gap ++ value)

def named (name : Option (List Byte)) (item : Item) : Item :=
  { item with string := some (cString (name.getD [])) }

/-- Up to the value of a member. -/
theorem parseMembers_name {fuel : Nat} {b : ParseBuffer} {name : Option (List Byte)}
    {gap l t : List Byte} {c : Byte} {item : Item} {e : ParseBuffer}
    (hb : (behind b).rest = printStringPtr name ++ ch ':' :: (gap ++ l)) (hl : l = c :: t)
    (hgap : ∀ w ∈ gap, w ≤ 32) (hc : 32 < c)
    (hvalue : parseValue fuel
      ((behind b).advance ((printStringPtr name).length + (1 + gap.length))) = .ok (item, e)) :
    parseMembers (fuel + 1) b =
      (if (bufferSkipWhitespace e).isAt (ch ',') then do
        let (items, e) ← parseMembers fuel (bufferSkipWhitespace e)
        .ok (named name item :: items, e)
      else .ok ([named name item], bufferSkipWhitespace e)) := by
  have hcolon := rest_advance hb
  have hskip := skip_none hcolon (by decide)
  have hbehind : behind ((behind b).advance (printStringPtr name).length) =
      (behind b).advance ((printStringPtr name).length + (1 + gap.length)) := by
    rw [(behind_next hcolon hgap hc hl).1, advance_advance]
  rw [parseMembers, ← behind, parseString_printStringPtr hb]
  change (if ¬ (bufferSkipWhitespace ((behind b).advance (printStringPtr name).length)).isAt
    (ch ':') then _ else _) = _
  rw [hskip, if_neg (not_not_intro (isAt_of_rest hcolon)), ← behind, hbehind, hvalue]
  rfl

theorem length_memberText (name : Option (List Byte)) (gap value : List Byte) :
    (memberText name gap value).length =
      (printStringPtr name).length + (1 + gap.length) + value.length := by
  simp only [memberText, List.length_append, List.length_cons]
  omega

theorem memberText_cons (name : Option (List Byte)) (gap value l : List Byte) :
    ∃ t, memberText name gap value ++ l = ch '"' :: t := by
  obtain ⟨t, ht⟩ := printStringPtr_cons name
  rw [memberText, ht]
  exact ⟨_, rfl⟩

theorem rest_value {b : ParseBuffer} {name : Option (List Byte)} {gap l : List Byte}
    (h : b.rest = printStringPtr name ++ ch ':' :: (gap ++ l)) :
    (b.advance ((printStringPtr name).length + (1 + gap.length))).rest = l := by
  have hlen : (printStringPtr name).length + (1 + gap.length) =
      (printStringPtr name ++ ch ':' :: gap).length := by
    rw [List.length_append, List.length_cons, Nat.add_comm 1]
  rw [hlen]
  exact rest_advance (h.trans (by simp))

theorem space_not_number : ∀ w : Byte, w ≤ 32 → isNumberChar w = false := by decide

theorem follow_space {ws s : List Byte} (hws : ∀ w ∈ ws, w ≤ 32) (hs : Follow s) :
    Follow (ws ++ s) := by
  cases ws with
  | nil => exact hs
  | cons w ws => exact follow_cons (space_not_number w (hws w List.mem_cons_self))

theorem reads_lastMember {levels : Nat} {gap text : List Byte} {item : Item}
    (h : Reads levels text item) (name : Option (List Byte)) (hgap : ∀ w ∈ gap, w ≤ 32) :
    ReadsMembers levels (memberText name gap text) [named name item] := by
  have hhead := memberText_cons name gap text []
  rw [List.append_nil] at hhead
  refine ⟨hhead, fun fuel b ws s hfuel hdepth hws hb => ?_⟩
  obtain ⟨fuel, rfl, hfuel'⟩ := exists_fuel hfuel
  obtain ⟨c, t, ht, hc, -⟩ := h.head
  have hlen := length_memberText name gap text
  have hname : (behind b).rest =
      printStringPtr name ++ ch ':' :: (gap ++ (text ++ (ws ++ ch '}' :: s))) :=
    hb.trans (by simp [memberText])
  have hrest := rest_value hname
  have hvalue := h.parse fuel
    ((behind b).advance ((printStringPtr name).length + (1 + gap.length))) (by omega) hdepth
    hrest (follow_space hws (follow_cons (by decide)))
  have hskip := skip_of_rest (rest_advance hrest) hws (by decide)
  rw [parseMembers_name hname (by rw [ht]; rfl) hgap hc hvalue, hskip,
    not_isAt_of_rest (rest_advance (rest_advance hrest)) (by decide), hlen, advance_advance,
    advance_advance, if_neg Bool.false_ne_true,
    Nat.add_assoc ((printStringPtr name).length + (1 + gap.length))]

theorem reads_moreMembers {levels : Nat} {gap text ws rest : List Byte} {item : Item}
    {items : List Item} (h : Reads levels text item) (name : Option (List Byte))
    (hgap : ∀ w ∈ gap, w ≤ 32) (hws : ∀ w ∈ ws, w ≤ 32) (hrest : ReadsMembers levels rest items) :
    ReadsMembers levels (memberText name gap text ++ ch ',' :: (ws ++ rest))
      (named name item :: items) := by
  refine ⟨memberText_cons name gap text _, fun fuel b ws' s hfuel hdepth hws' hb => ?_⟩
  obtain ⟨fuel, rfl, hfuel'⟩ := exists_fuel hfuel
  obtain ⟨c, t, ht, hc, -⟩ := h.head
  obtain ⟨t', ht'⟩ := hrest.head
  have hlen := length_memberText name gap text
  simp only [List.length_append, List.length_cons] at hfuel' ⊢
  have hname : (behind b).rest = printStringPtr name ++
      ch ':' :: (gap ++ (text ++ ch ',' :: (ws ++ (rest ++ (ws' ++ ch '}' :: s))))) :=
    hb.trans (by simp [memberText])
  have hrest' := rest_value hname
  have hvalue := h.parse fuel
    ((behind b).advance ((printStringPtr name).length + (1 + gap.length))) (by omega) hdepth
    hrest' (follow_cons (by decide))
  have hcomma := rest_advance hrest'
  rw [advance_advance, ← hlen] at hvalue hcomma
  generalize hk : (behind b).advance (memberText name gap text).length = k at hvalue hcomma
  obtain ⟨hbehind, hinner⟩ := behind_next hcomma hws (c := ch '"') (by decide)
    (by rw [ht']; rfl)
  have hnext := hrest.parse fuel k (by omega) (by rw [hbehind, ← hk]; exact hdepth) hws'
    hinner
  rw [parseMembers_name hname (by rw [ht]; rfl) hgap hc hvalue, skip_none hcomma (by decide),
    isAt_of_rest hcomma, if_pos rfl, hnext, hbehind, ← hk, advance_advance, advance_advance]
  simp only [bind, Except.bind, Except.ok.injEq, Prod.mk.injEq, true_and]
  congr 1
  omega

theorem parseObject_items {fuel : Nat} {b f : ParseBuffer} {items : List Item}
    (hdepth : b.depth < nestingLimit) (hopen : b.isAt (ch '{') = true)
    (hfirst : (behind b).isAt (ch '}') = false) (hcan : (behind b).canAccess 0 = true)
    (hitems : parseMembers fuel (loopStart b) = .ok (items, f)) (hclose : f.isAt (ch '}') = true) :
    parseObject (fuel + 1) b = .ok ({ newItem with type := .object, child := items },
      { f.advance 1 with depth := b.depth }) := by
  rw [parseObject, if_neg (Nat.not_le.mpr hdepth), if_neg (not_not_intro hopen)]
  dsimp only
  rw [← behind, hfirst, if_neg Bool.false_ne_true, if_neg (not_not_intro hcan), ← loopStart, hitems]
  exact if_pos hclose

theorem reads_object_nil {levels : Nat} (hlevels : 0 < levels) {ws : List Byte}
    (hws : ∀ w ∈ ws, w ≤ 32) :
    Reads levels (ch '{' :: (ws ++ [ch '}'])) { newItem with type := .object } := by
  refine ⟨⟨_, _, rfl, by decide⟩, fun fuel b s hfuel hdepth hb _ => ?_⟩
  have hlen : (ch '{' :: (ws ++ [ch '}'])).length = 1 + ws.length + 1 := by simp [Nat.add_comm]
  rw [hlen] at hfuel ⊢
  obtain ⟨fuel, rfl⟩ := Nat.exists_eq_add_of_le' (show 2 ≤ fuel by omega)
  have hopen : b.rest = ch '{' :: (ws ++ ch '}' :: s) := hb.trans (by simp)
  obtain ⟨hbehind, hclose⟩ := behind_next hopen hws (c := ch '}') (by decide) rfl
  rw [parseValue_at_brace (isAt_of_rest hopen), parseObject, if_neg (by omega),
    if_neg (not_not_intro (isAt_of_rest hopen))]
  dsimp only
  rw [← behind, if_pos (isAt_of_rest hclose), hbehind, advance_advance]

theorem reads_object {levels : Nat} {text ws ws' : List Byte} {items : List Item}
    (hlevels : 0 < levels) (hws : ∀ w ∈ ws, w ≤ 32) (hws' : ∀ w ∈ ws', w ≤ 32)
    (h : ReadsMembers (levels - 1) text items) :
    Reads levels (ch '{' :: (ws ++ (text ++ (ws' ++ [ch '}']))))
      { newItem with type := .object, child := items } := by
  refine ⟨⟨_, _, rfl, by decide⟩, fun fuel b s hfuel hdepth hb _ => ?_⟩
  have hlen : (ch '{' :: (ws ++ (text ++ (ws' ++ [ch '}'])))).length =
      1 + ws.length + (text.length + ws'.length) + 1 := by
    simp only [List.length_cons, List.length_append, List.length_nil]
    omega
  rw [hlen] at hfuel ⊢
  obtain ⟨fuel, rfl⟩ := Nat.exists_eq_add_of_le' (show 2 ≤ fuel by omega)
  obtain ⟨t, ht⟩ := h.head
  have hopen : b.rest = ch '{' :: (ws ++ (text ++ (ws' ++ ch '}' :: s))) := hb.trans (by simp)
  have hcons : b.rest = ch '{' :: (ws ++ ch '"' :: (t ++ (ws' ++ ch '}' :: s))) :=
    hopen.trans (by rw [ht]; rfl)
  obtain ⟨hbehind, hloop⟩ := behind_loopStart hcons hws (by decide)
  have hinner := (behind_next hopen hws (c := ch '"') (by decide) (by rw [ht]; rfl)).2
  have hfirst : (behind b).rest = ch '"' :: (t ++ (ws' ++ ch '}' :: s)) :=
    hinner.trans (by rw [ht]; rfl)
  have hinner' : (behind (loopStart b)).rest = text ++ (ws' ++ ch '}' :: s) := by
    rw [hloop, ← hinner, hbehind]
    rfl
  have hparse := h.parse fuel (loopStart b) (by omega) (by rw [hloop]; dsimp only; omega) hws'
    hinner'
  have hclose := rest_advance (rest_advance hinner')
  rw [advance_advance] at hclose
  rw [parseValue_at_brace (isAt_of_rest hopen), parseObject_items (by omega) (isAt_of_rest hopen)
    (not_isAt_of_rest hfirst (by decide)) (canAccess_of_rest hfirst) hparse (isAt_of_rest hclose),
    hloop]
  have hoffset : b.offset + (1 + ws.length) + (text.length + ws'.length) + 1 =
      b.offset + (1 + ws.length + (text.length + ws'.length) + 1) := by omega
  simp only [ParseBuffer.advance, hoffset]

/-! ## Trees -/

/-- The whitespace that is printed in front of a member, and behind it. -/
def indent (format : Bool) (depth : Nat) : List Byte := if format then tabs depth else []

def lineEnd (format : Bool) : List Byte := if format then [ch '\n'] else []

theorem indent_space (format : Bool) (depth : Nat) : ∀ w ∈ indent format depth, w ≤ 32 := by
  cases format with
  | false => exact List.forall_mem_nil _
  | true =>
    intro w hw
    rw [List.eq_of_mem_replicate hw]
    decide

theorem lineEnd_space (format : Bool) : ∀ w ∈ lineEnd format, w ≤ 32 := by
  cases format <;> decide

theorem lineEnd_indent_space (format : Bool) (depth : Nat) :
    ∀ w ∈ lineEnd format ++ indent format depth, w ≤ 32 :=
  List.forall_mem_append.mpr ⟨lineEnd_space format, indent_space format depth⟩

/-- The members of an object, with the whitespace around them. -/
def MembersText (format : Bool) (depth levels : Nat) (items : List Item) (text : List Byte) :
    Prop :=
  (items = [] ∧ text = []) ∨
    items.isEmpty = false ∧ ∃ body, text = indent format depth ++ (body ++ lineEnd format) ∧
      ReadsMembers levels body (readBackMembers items)

theorem printElements_cons {format : Bool} {depth : Nat} {item : Item} {next : List Item}
    {value rest : List Byte} (hvalue : printValue format depth item = some value)
    (hrest : printElements format depth next = some rest) :
    printElements format depth (item :: next) = some
      (value ++ (if next.isEmpty then [] else str (if format then ", " else ",")) ++ rest) := by
  rw [printElements, hvalue, hrest]
  rfl

theorem printMembers_step {format : Bool} {depth : Nat} {item : Item} {next : List Item}
    {value rest : List Byte} (hvalue : printValue format depth item = some value)
    (hrest : printMembers format depth next = some rest) :
    printMembers format depth (item :: next) =
      some (indent format depth ++ printStringPtr item.string ++
        str (if format then ":\t" else ":") ++ value ++
        (if next.isEmpty then [] else [ch ',']) ++ lineEnd format ++ rest) := by
  rw [printMembers, hvalue, hrest]
  rfl

mutual

/-- **The text of a value is read back.** -/
theorem reads_printValue (format : Bool) (depth : Nat) {levels : Nat} (item : Item)
    (h : Readable levels item) :
    ∃ text, printValue format depth item = some text ∧ Reads levels text (readBack item) := by
  obtain ⟨type, valuestring, valueint, valuedouble, string, child⟩ := item
  cases type with
  | invalid => exact absurd h id
  | raw => exact absurd h id
  | null => exact ⟨_, rfl, reads_null levels⟩
  | false => exact ⟨_, rfl, reads_false levels⟩
  | true => exact ⟨_, rfl, reads_true levels⟩
  | number => exact ⟨_, printNumber_eq valuedouble, reads_number levels h⟩
  | string => exact ⟨_, rfl, reads_string levels valuestring⟩
  | array =>
    obtain ⟨hlevels, hall⟩ := h
    obtain ⟨text, htext, hreads⟩ := reads_printElements format (depth + 1) child hall
    refine ⟨ch '[' :: (text ++ [ch ']']), by simp [printValue, htext], ?_⟩
    rcases hreads with ⟨rfl, rfl⟩ | ⟨-, hreads⟩
    · exact reads_array_nil hlevels
    · exact reads_array hlevels hreads
  | object =>
    obtain ⟨hlevels, hall⟩ := h
    obtain ⟨text, htext, hreads⟩ := reads_printMembers format (depth + 1) child hall
    have hprint : printValue format depth
        ⟨.object, valuestring, valueint, valuedouble, string, child⟩ = some
          (ch '{' :: (lineEnd format ++ (text ++ (indent format depth ++ [ch '}'])))) := by
      cases format <;> simp [printValue, htext, lineEnd, indent, str]
    refine ⟨_, hprint, ?_⟩
    rcases hreads with ⟨rfl, rfl⟩ | ⟨-, body, rfl, hreads⟩
    · have hnil := reads_object_nil hlevels (lineEnd_indent_space format depth)
      rwa [List.append_assoc] at hnil
    · have hobject := reads_object hlevels (lineEnd_indent_space format (depth + 1))
        (lineEnd_indent_space format depth) hreads
      simpa [readBack] using hobject

theorem reads_printElements (format : Bool) (depth : Nat) {levels : Nat} (items : List Item)
    (h : ReadableAll levels items) :
    ∃ text, printElements format depth items = some text ∧
      ((items = [] ∧ text = []) ∨
        items.isEmpty = false ∧ ReadsElements levels text (readBackElements items)) := by
  cases items with
  | nil => exact ⟨[], rfl, .inl ⟨rfl, rfl⟩⟩
  | cons item next =>
    obtain ⟨hitem, hnext⟩ := h
    obtain ⟨value, hvalue, hreads⟩ := reads_printValue format depth item hitem
    obtain ⟨rest, hrest, hreads'⟩ := reads_printElements format depth next hnext
    have hprint := printElements_cons hvalue hrest
    rcases hreads' with ⟨rfl, rfl⟩ | ⟨hne, hreads'⟩
    · refine ⟨value, ?_, .inr ⟨rfl, reads_last hreads⟩⟩
      simpa using hprint
    · have hgap : ∀ w ∈ (if format then [ch ' '] else []), w ≤ 32 := by
        cases format <;> decide
      refine ⟨_, ?_, .inr ⟨rfl, reads_more hreads hgap hreads'⟩⟩
      rw [hprint, hne]
      cases format <;> simp [str]

theorem reads_printMembers (format : Bool) (depth : Nat) {levels : Nat} (items : List Item)
    (h : ReadableAll levels items) :
    ∃ text, printMembers format depth items = some text ∧
      MembersText format depth levels items text := by
  cases items with
  | nil => exact ⟨[], rfl, .inl ⟨rfl, rfl⟩⟩
  | cons item next =>
    obtain ⟨hitem, hnext⟩ := h
    obtain ⟨value, hvalue, hreads⟩ := reads_printValue format depth item hitem
    obtain ⟨rest, hrest, hreads'⟩ := reads_printMembers format depth next hnext
    have hgap : ∀ w ∈ (if format then [ch '\t'] else []), w ≤ 32 := by
      cases format <;> decide
    have hprint := printMembers_step hvalue hrest
    rcases hreads' with ⟨rfl, rfl⟩ | ⟨hne, body, rfl, hreads'⟩
    · refine ⟨_, ?_, .inr ⟨rfl, _, rfl, reads_lastMember hreads item.string hgap⟩⟩
      rw [hprint]
      cases format <;> simp [indent, lineEnd, memberText, str]
    · refine ⟨_, ?_, .inr ⟨rfl, _, rfl, reads_moreMembers hreads item.string hgap
        (lineEnd_indent_space format depth) hreads'⟩⟩
      rw [hprint, hne]
      cases format <;> simp [indent, lineEnd, memberText, str]

end

/-- The text of a value is a text that `cJSON_Parse` accepts. -/
theorem Reads.parses {text : List Byte} {item : Item} (h : Reads nestingLimit text item)
    {s : List Byte} (hs : Follow s) : parseWithLength (text ++ s) = some item := by
  obtain ⟨c, t, ht, hc, -, hbom⟩ := h.head
  have hrest : ParseBuffer.rest ⟨text ++ s, 0, 0⟩ = text ++ s := rfl
  have hcons : ParseBuffer.rest ⟨text ++ s, 0, 0⟩ = c :: (t ++ s) := by
    rw [hrest, ht]
    rfl
  have hskip : bufferSkipWhitespace (skipUtf8Bom ⟨text ++ s, 0, 0⟩) = ⟨text ++ s, 0, 0⟩ := by
    have hmark : ParseBuffer.startsWith ⟨text ++ s, 0, 0⟩ [0xEF, 0xBB, 0xBF] = false :=
      startsWith_eq_false (isAt_of_rest hcons) hbom.symm
    rw [skipUtf8Bom, hmark, Bool.and_false, if_neg Bool.false_ne_true]
    exact skip_none hcons hc
  have hlen : text.length ≤ (text ++ s).length := by simp
  have hparse := h.parse (3 * (text ++ s).length + 1) ⟨text ++ s, 0, 0⟩ (by omega) le_rfl
    hrest hs
  rw [parseWithLength, parseWithLengthOpts, if_neg (by simp [ht]), hskip, hparse]
  rfl

/-- **What is printed is read back**: the text of a tree, with or without format and in front of
whatever text, is parsed to the tree. -/
theorem print_parse (format : Bool) {item : Item} (h : Readable nestingLimit item) {s : List Byte}
    (hs : Follow s) :
    ∃ text, printValue format 0 item = some text ∧
      parseWithLength (text ++ s) = some (readBack item) := by
  obtain ⟨text, htext, hreads⟩ := reads_printValue format 0 item h
  exact ⟨text, htext, hreads.parses hs⟩

/-- An object with an array of two strings and a number in it. -/
def sampleTree : Item :=
  addItemToObject createObject (str "a\n") { newItem with
    type := .array
    child := [{ newItem with type := .string, valuestring := some (str "\"") },
      { newItem with type := .string, valuestring := none },
      createNumber (.finite 0 representable_zero)] }

theorem readable_sampleTree : Readable nestingLimit sampleTree :=
  have hnumber : IsInteger (.finite 0 representable_zero) := ⟨rfl, Nat.pow_pos (Nat.succ_pos 9)⟩
  ⟨Nat.succ_pos _, ⟨Nat.succ_pos _, trivial, trivial, hnumber, trivial⟩, trivial⟩

theorem print_parse_sampleTree :
    ∃ text, printValue true 0 sampleTree = some text ∧
      parseWithLength (text ++ [ch '\n']) = some (readBack sampleTree) :=
  print_parse true readable_sampleTree (follow_cons (by decide))

/-! ## Objects that are built -/

theorem readableAll_append {levels : Nat} {xs ys : List Item} (hx : ReadableAll levels xs)
    (hy : ReadableAll levels ys) : ReadableAll levels (xs ++ ys) := by
  induction xs with
  | nil => exact hy
  | cons x xs ih => exact ⟨hx.1, ih hx.2⟩

theorem readBackMembers_append (xs ys : List Item) :
    readBackMembers (xs ++ ys) = readBackMembers xs ++ readBackMembers ys := by
  induction xs with
  | nil => rfl
  | cons x xs ih => rw [List.cons_append, readBackMembers, ih, readBackMembers, List.cons_append]

theorem readable_addItemToObject {levels : Nat} {object item : Item}
    (hobject : object.type = .object) (h : Readable (levels + 1) object)
    (hitem : Readable levels item) (name : List Byte) :
    Readable (levels + 1) (addItemToObject object name item) := by
  obtain ⟨type, valuestring, valueint, valuedouble, string, child⟩ := object
  cases hobject
  cases item
  exact ⟨h.1, readableAll_append h.2 ⟨hitem, trivial⟩⟩

/-- An object is read back with the members that were added to it. -/
theorem readBack_addItemToObject {object : Item} (hobject : object.type = .object)
    (name : List Byte) (item : Item) :
    readBack (addItemToObject object name item) =
      addItemToObject (readBack object) (cString name) (readBack item) := by
  obtain ⟨type, valuestring, valueint, valuedouble, string, child⟩ := object
  cases hobject
  cases item
  simp only [addItemToObject, readBack, readBackMembers_append]
  rfl

theorem isInteger_ofRat {n : Int} (h : |n| < 10 ^ 15) : IsInteger (ofRat n) := by
  rw [ofRat_intCast (by omega)]
  refine ⟨Rat.den_intCast n, ?_⟩
  rw [Int.abs_eq_natAbs] at h
  rw [Rat.num_intCast]
  omega

theorem readable_numberObject {levels : Nat} {numbers : List (List Byte × Double)}
    (h : ∀ m ∈ numbers, IsInteger m.2) : Readable (levels + 1) (numberObject numbers) := by
  rw [numberObject_eq]
  refine ⟨Nat.succ_pos levels, ?_⟩
  induction numbers with
  | nil => trivial
  | cons m rest ih =>
    exact ⟨h m List.mem_cons_self, ih fun x hx => h x (List.mem_cons_of_mem m hx)⟩

/-- An object of numbers is read back as it is. -/
theorem readBack_numberObject {numbers : List (List Byte × Double)}
    (h : ∀ m ∈ numbers, cString m.1 = m.1) :
    readBack (numberObject numbers) = numberObject numbers := by
  have hmembers : readBackMembers (numbers.map fun m =>
      { createNumber m.2 with string := some m.1 }) =
      numbers.map fun m => { createNumber m.2 with string := some m.1 } := by
    induction numbers with
    | nil => rfl
    | cons m rest ih =>
      have hname : cString m.1 = m.1 := h m List.mem_cons_self
      rw [List.map_cons, readBackMembers, ih fun x hx => h x (List.mem_cons_of_mem m hx)]
      simp only [Option.getD_some, hname]
      rfl
  rw [numberObject_eq]
  simp only [createObject, newItem, readBack, hmembers]

end MqttDevice.CJson
