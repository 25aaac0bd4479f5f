import MqttDevice.CJson.Parse

/-!
# The bytes that the parser reads (`cJSON.c`)

Next to each function of the parser, the offsets at which it reads at most; the
tests of `can_read` and `can_access_at_index` are those of the source. `parse_string`
reads its first byte without a test. `parse_value` calls it at a quote, but
`parse_object` calls it for a name wherever it is.

* `over_documentReads`: a text is read up to its end only, unless it ends behind a
  comma after a member, where the next name is looked for.
-/

namespace MqttDevice.CJson

open MqttDevice.Ascii

/-! ## Offsets -/

/-- `n` offsets from the one of the buffer on. -/
def offsets (b : ParseBuffer) (n : Nat) : List Nat := (List.range n).map (b.offset + ·)

/-- `can_read` and `strncmp`. -/
def wordReads (b : ParseBuffer) (n : Nat) : List Nat :=
  if b.offset + n ≤ b.content.length then offsets b n else []

/-- `can_access_at_index(buffer, 0)` and a comparison of the byte. -/
def atReads (b : ParseBuffer) : List Nat := if b.canAccess 0 then [b.offset] else []

/-- `buffer_skip_whitespace` -/
def skipReads (b : ParseBuffer) : List Nat :=
  offsets b (min ((b.rest.takeWhile (· ≤ 32)).length + 1) b.rest.length)

/-- `skip_utf8_bom` -/
def bomReads (b : ParseBuffer) : List Nat := if b.canAccess 4 then offsets b 3 else []

/-- The first loop of `parse_string`, from position `pos` on. -/
def quoteReads : Nat → List Byte → List Nat
  | _, [] => []
  | pos, c :: s =>
    pos ::
      if c = ch '"' then []
      else if c = ch '\\' then
        match s with
        | [] => []
        | _ :: s => quoteReads (pos + 2) s
      else quoteReads (pos + 1) s

/-- `utf16_literal_to_utf8` at position `pos`, behind `\u`. -/
def utf16Reads (left pos : Nat) (s : List Byte) : List Nat :=
  if left < 6 then []
  else
    (List.range 4).map (pos + 2 + ·) ++
      match s with
      | _ :: _ :: c₀ :: c₁ :: c₂ :: c₃ :: _ =>
        let firstCode := parseHex4 c₀ c₁ c₂ c₃
        if 0xD800 ≤ firstCode ∧ firstCode ≤ 0xDBFF then
          if left - 6 < 6 then [] else (List.range 6).map (pos + 6 + ·)
        else []
      | _ => []

/-- The escapes of two bytes. -/
def isShortEscape (e : Byte) : Bool :=
  e = ch 'b' || e = ch 'f' || e = ch 'n' || e = ch 'r' || e = ch 't' || e = ch '"' ||
    e = ch '\\' || e = ch '/'

/-- The second loop of `parse_string`, with `left` bytes up to the closing quote. -/
def unescapeReads : Nat → Nat → Nat → List Byte → List Nat
  | _, 0, _, _ => []
  | 0, _, _, _ => []
  | fuel + 1, left, pos, s =>
    match s with
    | [] => []
    | [_] => []
    | c :: e :: _ =>
      pos ::
        if c ≠ ch '\\' then unescapeReads fuel (left - 1) (pos + 1) s.tail
        else
          (pos + 1) ::
            if isShortEscape e then unescapeReads fuel (left - 2) (pos + 2) (s.drop 2)
            else if e = ch 'u' then
              utf16Reads left pos s ++
                match utf16LiteralToUtf8 left s with
                | some (_, n) => unescapeReads fuel (left - n) (pos + n) (s.drop n)
                | none => []
            else []

/-- `parse_string`: the first byte is read without a test. -/
def stringReads (b : ParseBuffer) : List Nat :=
  b.offset ::
    if b.byte ≠ ch '"' then []
    else
      let s := b.rest.drop 1
      quoteReads (b.offset + 1) s ++
        match closingQuote s with
        | some n => unescapeReads n n (b.offset + 1) s
        | none => []

/-- `parse_number` -/
def numberReads (b : ParseBuffer) : List Nat :=
  offsets b (min (((b.rest.take 63).takeWhile isNumberChar).length + 1) (b.rest.take 63).length)

mutual

/-- `parse_value` -/
def valueReads : Nat → ParseBuffer → List Nat
  | 0, _ => []
  | fuel + 1, b =>
    wordReads b 4 ++ wordReads b 5 ++ atReads b ++
      if b.startsWith (str "null") || b.startsWith (str "false") || b.startsWith (str "true") then []
      else if b.isAt (ch '"') then stringReads b
      else if b.isAt (ch '-') || b.canAccess 0 && isDigit b.byte then numberReads b
      else if b.isAt (ch '[') then arrayReads fuel b
      else if b.isAt (ch '{') then objectReads fuel b
      else []

/-- `parse_array`, called at its bracket -/
def arrayReads : Nat → ParseBuffer → List Nat
  | 0, _ => []
  | fuel + 1, b =>
    if nestingLimit ≤ b.depth then []
    else
      b.offset ::
        if b.byte ≠ ch '[' then []
        else
          skipReads (b.advance 1) ++ atReads (behind b) ++
            if (behind b).isAt (ch ']') then []
            else if ¬ (behind b).canAccess 0 then []
            else elementsReads fuel (loopStart b)

/-- The loop of `parse_array`. -/
def elementsReads : Nat → ParseBuffer → List Nat
  | 0, _ => []
  | fuel + 1, b =>
    skipReads (b.advance 1) ++ valueReads fuel (behind b) ++
      match parseValue fuel (behind b) with
      | .ok (_, e) =>
        skipReads e ++ atReads (bufferSkipWhitespace e) ++
          if (bufferSkipWhitespace e).isAt (ch ',') then elementsReads fuel (bufferSkipWhitespace e)
          else []
      | .error _ => []

/-- `parse_object` -/
def objectReads : Nat → ParseBuffer → List Nat
  | 0, _ => []
  | fuel + 1, b =>
    if nestingLimit ≤ b.depth then []
    else
      atReads b ++
        if ¬ b.isAt (ch '{') then []
        else
          skipReads (b.advance 1) ++ atReads (behind b) ++
            if (behind b).isAt (ch '}') then []
            else if ¬ (behind b).canAccess 0 then []
            else membersReads fuel (loopStart b)

/-- The loop of `parse_object`. -/
def membersReads : Nat → ParseBuffer → List Nat
  | 0, _ => []
  | fuel + 1, b =>
    skipReads (b.advance 1) ++ stringReads (behind b) ++
      match parseString (behind b) with
      | some (_, k) =>
        let colon := bufferSkipWhitespace k
        skipReads k ++ atReads colon ++
          if ¬ colon.isAt (ch ':') then []
          else
            skipReads (colon.advance 1) ++ valueReads fuel (behind colon) ++
              match parseValue fuel (behind colon) with
              | .ok (_, e) =>
                skipReads e ++ atReads (bufferSkipWhitespace e) ++
                  if (bufferSkipWhitespace e).isAt (ch ',') then
                    membersReads fuel (bufferSkipWhitespace e)
                  else []
              | .error _ => []
      | none => []

end

/-- `cJSON_ParseWithLength` -/
def documentReads (value : List Byte) : List Nat :=
  if value = [] then []
  else
    let b : ParseBuffer := ⟨value, 0, 0⟩
    bomReads b ++ skipReads (skipUtf8Bom b) ++
      valueReads (3 * value.length + 1) (bufferSkipWhitespace (skipUtf8Bom b))

/-! ## Texts that end before a name -/

mutual

/-- The value at the offset has an object in it of which nothing comes behind the comma
after a member. -/
def valueOpen : Nat → ParseBuffer → Bool
  | 0, _ => false
  | fuel + 1, b =>
    if b.startsWith (str "null") || b.startsWith (str "false") || b.startsWith (str "true") then false
    else if b.isAt (ch '"') then false
    else if b.isAt (ch '-') || b.canAccess 0 && isDigit b.byte then false
    else if b.isAt (ch '[') then arrayOpen fuel b
    else if b.isAt (ch '{') then objectOpen fuel b
    else false

def arrayOpen : Nat → ParseBuffer → Bool
  | 0, _ => false
  | fuel + 1, b =>
    if nestingLimit ≤ b.depth then false
    else if b.byte ≠ ch '[' then false
    else if (behind b).isAt (ch ']') then false
    else if ¬ (behind b).canAccess 0 then false
    else elementsOpen fuel (loopStart b)

def elementsOpen : Nat → ParseBuffer → Bool
  | 0, _ => false
  | fuel + 1, b =>
    valueOpen fuel (behind b) ||
      match parseValue fuel (behind b) with
      | .ok (_, e) =>
        (bufferSkipWhitespace e).isAt (ch ',') && elementsOpen fuel (bufferSkipWhitespace e)
      | .error _ => false

def objectOpen : Nat → ParseBuffer → Bool
  | 0, _ => false
  | fuel + 1, b =>
    if nestingLimit ≤ b.depth then false
    else if ¬ b.isAt (ch '{') then false
    else if (behind b).isAt (ch '}') then false
    else if ¬ (behind b).canAccess 0 then false
    else membersOpen fuel (loopStart b)

/-- The members behind the brace or comma at the offset. -/
def membersOpen : Nat → ParseBuffer → Bool
  | 0, _ => false
  | fuel + 1, b =>
    !(behind b).canAccess 0 ||
      match parseString (behind b) with
      | some (_, k) =>
        let colon := bufferSkipWhitespace k
        colon.isAt (ch ':') &&
          (valueOpen fuel (behind colon) ||
            match parseValue fuel (behind colon) with
            | .ok (_, e) =>
              (bufferSkipWhitespace e).isAt (ch ',') && membersOpen fuel (bufferSkipWhitespace e)
            | .error _ => false)
      | none => false

end

/-- The text ends behind the comma after a member, and cJSON accepts it as far as that. -/
def endsBeforeName (value : List Byte) : Bool :=
  value ≠ [] &&
    valueOpen (3 * value.length + 1) (bufferSkipWhitespace (skipUtf8Bom ⟨value, 0, 0⟩))

/-- A zero byte before the end makes no difference to this. -/
example : endsBeforeName (str "\x7b\"a\x00\":1,") = true := by decide +kernel

/-! ## Reads behind the end -/

/-- One of the offsets is not below `n`. -/
def Over (n : Nat) (reads : List Nat) : Prop := ∃ i ∈ reads, n ≤ i

@[simp] theorem over_nil (n : Nat) : ¬ Over n [] := fun ⟨_, h, _⟩ => absurd h List.not_mem_nil

@[simp] theorem over_cons (n i : Nat) (is : List Nat) : Over n (i :: is) ↔ n ≤ i ∨ Over n is := by
  simp [Over]

@[simp] theorem over_append (n : Nat) (is js : List Nat) :
    Over n (is ++ js) ↔ Over n is ∨ Over n js := by
  simp [Over, or_and_right, exists_or]

theorem not_over {n : Nat} {is : List Nat} (h : ∀ i ∈ is, i < n) : ¬ Over n is :=
  fun ⟨i, hi, hle⟩ => Nat.not_lt.mpr hle (h i hi)

theorem length_rest (b : ParseBuffer) : b.rest.length = b.content.length - b.offset :=
  List.length_drop

/-- Offsets as far as there are bytes. -/
theorem not_over_offsets {b : ParseBuffer} {n : Nat} (h : n ≤ b.rest.length) :
    ¬ Over b.content.length (offsets b n) := by
  refine not_over fun i hi => ?_
  obtain ⟨k, hk, rfl⟩ := List.mem_map.mp hi
  have hk' : k < n := List.mem_range.mp hk
  rw [length_rest] at h
  omega

theorem not_over_wordReads (b : ParseBuffer) (n : Nat) :
    ¬ Over b.content.length (wordReads b n) := by
  unfold wordReads
  split
  · rename_i hle
    refine not_over_offsets ?_
    rw [length_rest]
    omega
  · exact over_nil _

theorem not_over_atReads (b : ParseBuffer) : ¬ Over b.content.length (atReads b) := by
  unfold atReads
  split
  · rename_i h
    simpa [ParseBuffer.canAccess] using h
  · exact over_nil _

theorem not_over_skipReads (b : ParseBuffer) : ¬ Over b.content.length (skipReads b) :=
  not_over_offsets (Nat.min_le_right ..)

theorem not_over_bomReads (b : ParseBuffer) : ¬ Over b.content.length (bomReads b) := by
  unfold bomReads
  split
  · rename_i h
    refine not_over_offsets ?_
    simp only [ParseBuffer.canAccess, decide_eq_true_eq] at h
    rw [length_rest]
    omega
  · exact over_nil _

theorem not_over_numberReads (b : ParseBuffer) : ¬ Over b.content.length (numberReads b) := by
  refine not_over_offsets ((Nat.min_le_right ..).trans ?_)
  rw [List.length_take]
  exact Nat.min_le_right ..

/-! ### Strings -/

/-- The first loop stays in the text. -/
theorem quoteReads_lt (s : List Byte) {pos i : Nat} (h : i ∈ quoteReads pos s) :
    i < pos + s.length := by
  match s with
  | [] => cases h
  | c :: s =>
    rw [List.length_cons]
    unfold quoteReads at h
    rcases List.mem_cons.mp h with rfl | h
    · omega
    · split at h
      · cases h
      · split at h
        · match s with
          | [] => cases h
          | _ :: s =>
            have := quoteReads_lt s h
            rw [List.length_cons]
            omega
        · have := quoteReads_lt s h
          omega

theorem closingQuote_lt (s : List Byte) {n : Nat} (h : closingQuote s = some n) : n < s.length := by
  match s with
  | [] => cases h
  | c :: s =>
    rw [List.length_cons]
    unfold closingQuote at h
    split at h
    · cases h
      omega
    · split at h
      · match s with
        | [] => cases h
        | _ :: s =>
          obtain ⟨m, hm, rfl⟩ := Option.map_eq_some_iff.mp h
          have := closingQuote_lt s hm
          rw [List.length_cons]
          omega
      · obtain ⟨m, hm, rfl⟩ := Option.map_eq_some_iff.mp h
        have := closingQuote_lt s hm
        omega

theorem utf16Reads_lt {left pos i : Nat} {s : List Byte} (h : i ∈ utf16Reads left pos s) :
    i < pos + left := by
  unfold utf16Reads at h
  split at h
  · cases h
  · rename_i hleft
    rcases List.mem_append.mp h with h | h
    · obtain ⟨k, hk, rfl⟩ := List.mem_map.mp h
      have := List.mem_range.mp hk
      omega
    · split at h
      · dsimp only at h
        split at h
        · split at h
          · cases h
          · obtain ⟨k, hk, rfl⟩ := List.mem_map.mp h
            have := List.mem_range.mp hk
            omega
        · cases h
      · cases h

/-- The second loop reads up to the closing quote, which the first one has found. -/
theorem unescapeReads_le {fuel left pos i : Nat} {s : List Byte}
    (h : i ∈ unescapeReads fuel left pos s) : i ≤ pos + left := by
  induction fuel generalizing left pos s with
  | zero => cases left <;> cases h
  | succ fuel ih =>
    match left, s with
    | 0, _ => cases h
    | _ + 1, [] => cases h
    | _ + 1, [_] => cases h
    | left + 1, c :: e :: s =>
      simp only [unescapeReads, List.mem_cons] at h
      rcases h with rfl | h
      · omega
      split at h
      · have := ih h
        omega
      rcases List.mem_cons.mp h with rfl | h
      · omega
      split at h
      · cases left with
        | zero => cases fuel <;> cases h
        | succ left =>
          have := ih h
          omega
      split at h
      · rcases List.mem_append.mp h with h | h
        · exact (utf16Reads_lt h).le
        · split at h
          · rename_i n hn
            by_cases hle : n ≤ left + 1
            · have := ih h
              omega
            · rw [show left + 1 - n = 0 by omega] at h
              cases fuel <;> cases h
          · cases h
      · cases h

/-- **The name of a member is looked for at the end** of the text, and only there is a byte
read that is not in it. -/
theorem over_stringReads (b : ParseBuffer) :
    Over b.content.length (stringReads b) ↔ b.canAccess 0 = false := by
  constructor
  · intro hover
    by_contra hacc
    have hlt : b.offset < b.content.length := by
      simpa [ParseBuffer.canAccess] using hacc
    have hrest : (b.rest.drop 1).length = b.content.length - (b.offset + 1) := by
      rw [List.length_drop, length_rest]
      omega
    unfold stringReads at hover
    rcases (over_cons ..).mp hover with h | h
    · omega
    · split at h
      · exact over_nil _ h
      · dsimp only at h
        refine absurd h (not_over fun i hi => ?_)
        rcases List.mem_append.mp hi with hi | hi
        · have := quoteReads_lt _ hi
          omega
        · split at hi
          · rename_i n hn
            have := unescapeReads_le hi
            have := closingQuote_lt _ hn
            omega
          · cases hi
  · intro hacc
    refine ⟨b.offset, List.mem_cons_self, ?_⟩
    simpa [ParseBuffer.canAccess] using hacc

/-! ### Values -/

/-- Each of the five functions reads behind the end exactly for an open text. -/
structure OverIff (fuel : Nat) : Prop where
  value : ∀ b, Over b.content.length (valueReads fuel b) ↔ valueOpen fuel b = true
  array : ∀ b, b.canAccess 0 = true →
    (Over b.content.length (arrayReads fuel b) ↔ arrayOpen fuel b = true)
  elements : ∀ b, Over b.content.length (elementsReads fuel b) ↔ elementsOpen fuel b = true
  object : ∀ b, Over b.content.length (objectReads fuel b) ↔ objectOpen fuel b = true
  members : ∀ b, Over b.content.length (membersReads fuel b) ↔ membersOpen fuel b = true

theorem skip_content (b : ParseBuffer) : (bufferSkipWhitespace b).content = b.content :=
  (after_skip b).content

theorem behind_content (b : ParseBuffer) : (behind b).content = b.content := skip_content _

theorem not_over_atSkip (b : ParseBuffer) :
    ¬ Over b.content.length (atReads (bufferSkipWhitespace b)) :=
  skip_content b ▸ not_over_atReads _

theorem not_over_skipAdvance (b : ParseBuffer) :
    ¬ Over b.content.length (skipReads (b.advance 1)) := not_over_skipReads (b.advance 1)

theorem not_over_atBehind (b : ParseBuffer) :
    ¬ Over b.content.length (atReads (behind b)) := not_over_atSkip (b.advance 1)

theorem OverIff.valueBehind {fuel : Nat} (h : OverIff fuel) (b : ParseBuffer) :
    Over b.content.length (valueReads fuel (behind b)) ↔ valueOpen fuel (behind b) = true :=
  behind_content b ▸ h.value (behind b)

theorem OverIff.elementsSkip {fuel : Nat} (h : OverIff fuel) (b : ParseBuffer) :
    Over b.content.length (elementsReads fuel (bufferSkipWhitespace b)) ↔
      elementsOpen fuel (bufferSkipWhitespace b) = true :=
  skip_content b ▸ h.elements (bufferSkipWhitespace b)

theorem OverIff.membersSkip {fuel : Nat} (h : OverIff fuel) (b : ParseBuffer) :
    Over b.content.length (membersReads fuel (bufferSkipWhitespace b)) ↔
      membersOpen fuel (bufferSkipWhitespace b) = true :=
  skip_content b ▸ h.members (bufferSkipWhitespace b)

/-- What comes behind a value: a comma and more of the same, or nothing. -/
theorem over_next {n : Nat} {e : ParseBuffer} {more : List Nat} {isOpen : Bool}
    (hlen : n = e.content.length) (h : Over n more ↔ isOpen = true) :
    Over n (skipReads e ++ atReads (bufferSkipWhitespace e) ++
        if (bufferSkipWhitespace e).isAt (ch ',') then more else []) ↔
      ((bufferSkipWhitespace e).isAt (ch ',') && isOpen) = true := by
  subst hlen
  simp only [over_append, not_over_skipReads, not_over_atSkip, false_or, Bool.and_eq_true]
  split
  · rename_i hcomma
    simp only [hcomma, true_and, h]
  · rename_i hcomma
    simp [hcomma]

section Step

variable {fuel : Nat} (h : OverIff fuel)
include h

theorem OverIff.value_succ (b : ParseBuffer) :
    Over b.content.length (valueReads (fuel + 1) b) ↔ valueOpen (fuel + 1) b = true := by
  unfold valueReads valueOpen
  simp only [over_append, not_over_wordReads, not_over_atReads, false_or]
  split
  · simp
  split
  · rename_i hquote
    simp [over_stringReads, canAccess_of_isAt hquote]
  split
  · simp [not_over_numberReads]
  split
  · rename_i hbracket
    exact h.array b (canAccess_of_isAt hbracket)
  split
  · exact h.object b
  · simp

theorem OverIff.array_succ {b : ParseBuffer} (hacc : b.canAccess 0 = true) :
    Over b.content.length (arrayReads (fuel + 1) b) ↔ arrayOpen (fuel + 1) b = true := by
  have hlt : ¬ b.content.length ≤ b.offset := by
    simpa [ParseBuffer.canAccess] using hacc
  unfold arrayReads arrayOpen
  split
  · simp
  simp only [over_cons, hlt, false_or]
  split
  · simp
  simp only [over_append, not_over_skipAdvance, not_over_atBehind, false_or]
  split
  · simp
  split
  · simp
  · exact behind_content b ▸ h.elements (loopStart b)

theorem OverIff.elements_succ (b : ParseBuffer) :
    Over b.content.length (elementsReads (fuel + 1) b) ↔ elementsOpen (fuel + 1) b = true := by
  unfold elementsReads elementsOpen
  simp only [over_append, not_over_skipAdvance, false_or, h.valueBehind, Bool.or_eq_true]
  refine or_congr_right ?_
  split
  · rename_i e he
    have hlen : b.content.length = e.content.length := by
      rw [(parseValue_consumes he).content, behind_content]
    exact over_next hlen (hlen ▸ h.elementsSkip e)
  · simp

theorem OverIff.object_succ (b : ParseBuffer) :
    Over b.content.length (objectReads (fuel + 1) b) ↔ objectOpen (fuel + 1) b = true := by
  unfold objectReads objectOpen
  split
  · simp
  simp only [over_append, not_over_atReads, false_or]
  split
  · simp
  simp only [over_append, not_over_skipAdvance, not_over_atBehind, false_or]
  split
  · simp
  split
  · simp
  · exact behind_content b ▸ h.members (loopStart b)

theorem OverIff.members_succ (b : ParseBuffer) :
    Over b.content.length (membersReads (fuel + 1) b) ↔ membersOpen (fuel + 1) b = true := by
  unfold membersReads membersOpen
  have hname : Over b.content.length (stringReads (behind b)) ↔
      (!(behind b).canAccess 0) = true := by
    rw [← behind_content b, over_stringReads, Bool.not_eq_true']
  simp only [over_append, not_over_skipAdvance, false_or, hname, Bool.or_eq_true]
  refine or_congr_right ?_
  split
  · rename_i k hk
    have hlenk : b.content.length = k.content.length := by
      rw [(after_parseString hk).content, behind_content]
    simp only [over_append, hlenk, not_over_skipReads, not_over_atSkip, false_or,
      Bool.and_eq_true]
    split
    · rename_i hcolon
      simp [hcolon]
    · rename_i hcolon
      have hlenc : k.content.length = (bufferSkipWhitespace k).content.length := by
        rw [skip_content]
      simp only [not_not.mp hcolon, true_and, over_append, hlenc, not_over_skipAdvance,
        false_or, h.valueBehind, Bool.or_eq_true]
      refine or_congr_right ?_
      split
      · rename_i e he
        have hlen : (bufferSkipWhitespace k).content.length = e.content.length := by
          rw [(parseValue_consumes he).content, behind_content]
        exact over_next hlen (hlen ▸ h.membersSkip e)
      · simp
  · simp

end Step

theorem overIff (fuel : Nat) : OverIff fuel := by
  induction fuel with
  | zero =>
    constructor <;> intros <;> simp [valueReads, valueOpen, arrayReads, arrayOpen, elementsReads,
      elementsOpen, objectReads, objectOpen, membersReads, membersOpen]
  | succ fuel ih =>
    exact ⟨ih.value_succ, fun _ => ih.array_succ, ih.elements_succ, ih.object_succ, ih.members_succ⟩

theorem skipUtf8Bom_content (b : ParseBuffer) : (skipUtf8Bom b).content = b.content := by
  unfold skipUtf8Bom
  split <;> rfl

/-- Nothing is read behind the end before the value. -/
theorem over_textReads (fuel : Nat) (b : ParseBuffer) :
    Over b.content.length (bomReads b ++ skipReads (skipUtf8Bom b) ++
        valueReads fuel (bufferSkipWhitespace (skipUtf8Bom b))) ↔
      valueOpen fuel (bufferSkipWhitespace (skipUtf8Bom b)) = true := by
  have hbom := skipUtf8Bom_content b
  have hskip : ¬ Over b.content.length (skipReads (skipUtf8Bom b)) := hbom ▸ not_over_skipReads _
  have hvalue := (overIff fuel).value (bufferSkipWhitespace (skipUtf8Bom b))
  rw [skip_content, hbom] at hvalue
  simp only [over_append, not_over_bomReads, hskip, false_or, hvalue]

/-- **Which texts are read over their end**: those that end where `parse_object` looks for
the name of the next member. -/
theorem over_documentReads (value : List Byte) :
    Over value.length (documentReads value) ↔ endsBeforeName value = true := by
  unfold documentReads endsBeforeName
  split
  · rename_i hnil
    simp [hnil]
  · rename_i hne
    simp only [ne_eq, hne, not_false_eq_true, decide_true, Bool.true_and]
    exact over_textReads (3 * value.length + 1) ⟨value, 0, 0⟩

end MqttDevice.CJson
