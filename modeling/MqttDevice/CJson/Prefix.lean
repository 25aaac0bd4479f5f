import MqttDevice.CJson.Reads
import MqttDevice.CJson.RoundTrip

/-!
# A closed object decides (`cJSON.c`)

`cJSON_ParseWithLength` does not ask what stands behind the value that it has read. Once
the brace of an object is there, what follows it in the buffer makes no difference.

* `parseString_followedBy`, `parseNumber_followedBy`: a string needs its closing quote, a
  number a byte that cannot belong to it;
* `extends_fuel`: the five functions of a value, on a text and on the text with more behind it;
* `parseWithLength_append`: a text that is accepted as an object, with anything behind it;
* `getObjectItem_of_not_object`: in a text that is accepted as anything else no lookup
  finds a member.
-/

namespace MqttDevice.CJson

open MqttDevice.Ascii MqttDevice.Binary64

namespace ParseBuffer

/-- The same place in a text with more behind it. -/
def followedBy (b : ParseBuffer) (r : List Byte) : ParseBuffer :=
  { b with content := b.content ++ r }

/-- The byte at the offset can be read and is not skipped. -/
def Visible (b : ParseBuffer) : Prop := ∃ c t, b.rest = c :: t ∧ 32 < c

/-- A byte that cannot belong to a number is at the offset. -/
def Stops (b : ParseBuffer) : Prop := ∃ c t, b.rest = c :: t ∧ isNumberChar c = false

variable {b : ParseBuffer} {c : Byte} {t : List Byte}

theorem rest_eq_cons (h : b.canAccess 0 = true) :
    b.rest = b.byte :: b.content.drop (b.offset + 1) := by
  have hlt : b.offset < b.content.length := by simpa [canAccess] using h
  rw [rest, List.drop_eq_getElem_cons hlt, byte, List.getD_eq_getElem?_getD,
    List.getElem?_eq_getElem hlt]
  rfl

theorem rest_of_isAt (h : b.isAt c = true) : ∃ t, b.rest = c :: t := by
  obtain ⟨hcan, rfl⟩ := isAt_iff.mp h
  exact ⟨_, rest_eq_cons (decide_eq_true hcan)⟩

/-- Behind the end of the text there is no byte but 0. -/
theorem isAt_of_byte (h : b.byte = c) (hc : c ≠ 0) : b.isAt c = true := by
  rw [isAt_iff]
  refine ⟨?_, h⟩
  by_contra hge
  rw [byte, List.getD_eq_getElem?_getD, List.getElem?_eq_none (Nat.not_lt.mp hge)] at h
  exact hc h.symm

theorem visible_of_isAt (h : b.isAt c = true) (hc : 32 < c) : b.Visible := by
  obtain ⟨t, ht⟩ := rest_of_isAt h
  exact ⟨c, t, ht, hc⟩

theorem rest_followedBy (h : b.rest = c :: t) (r : List Byte) :
    (b.followedBy r).rest = c :: (t ++ r) := by
  have hlt := offset_lt h
  rw [rest, followedBy, List.drop_append_of_le_length (Nat.le_of_lt hlt), ← List.cons_append, ← h]
  rfl

theorem isAt_followedBy (h : b.rest = c :: t) (r : List Byte) (d : Byte) :
    (b.followedBy r).isAt d = b.isAt d := by
  by_cases hd : d = c
  · rw [hd, isAt_of_rest h, isAt_of_rest (rest_followedBy h r)]
  · rw [not_isAt_of_rest h hd, not_isAt_of_rest (rest_followedBy h r) hd]

theorem isAt_followedBy_of_isAt (h : b.isAt c = true) (r : List Byte) :
    (b.followedBy r).isAt c = true := by
  obtain ⟨t, ht⟩ := rest_of_isAt h
  rw [isAt_followedBy ht, h]

end ParseBuffer

open ParseBuffer

/-! ## Whitespace -/

theorem After.rest {n : Nat} {b e : ParseBuffer} (h : After n b e) :
    e.rest = b.rest.drop (e.offset - b.offset) := by
  have hle := h.offset
  rw [ParseBuffer.rest, ParseBuffer.rest, h.content, List.drop_drop,
    Nat.add_sub_cancel' (by omega)]

/-- Either there is a byte that is not skipped, or the offset is left on one of the bytes
that are. -/
theorem skip_cases (b : ParseBuffer) :
    (∃ ws c t, b.rest = ws ++ c :: t ∧ (∀ w ∈ ws, w ≤ 32) ∧ 32 < c ∧
      bufferSkipWhitespace b = b.advance ws.length) ∨
    ∀ w ∈ (bufferSkipWhitespace b).rest, w ≤ 32 := by
  have hsplit := (List.takeWhile_append_dropWhile (p := fun c : Byte => decide (c ≤ 32))
    (l := b.rest)).symm
  have hspace : ∀ w ∈ b.rest.takeWhile (fun c : Byte => decide (c ≤ 32)), w ≤ 32 :=
    fun w hw => by simpa using List.mem_takeWhile_imp hw
  cases hrest : b.rest.dropWhile (fun c : Byte => decide (c ≤ 32)) with
  | nil =>
    rw [hrest, List.append_nil] at hsplit
    refine .inr fun w hw => hspace w ?_
    rw [(after_skip b).rest] at hw
    rw [← hsplit]
    exact List.mem_of_mem_drop hw
  | cons c t =>
    have hc : 32 < c := by
      have hhead := List.head?_dropWhile_not (fun c : Byte => decide (c ≤ 32)) b.rest
      rw [hrest] at hhead
      simpa using hhead
    rw [hrest] at hsplit
    exact .inl ⟨_, c, t, hsplit, hspace, hc, skip_of_rest hsplit hspace hc⟩

theorem skip_of_visible {b : ParseBuffer} (h : (bufferSkipWhitespace b).Visible) :
    ∃ ws c t, b.rest = ws ++ c :: t ∧ (∀ w ∈ ws, w ≤ 32) ∧ 32 < c ∧
      bufferSkipWhitespace b = b.advance ws.length := by
  rcases skip_cases b with hskip | hspace
  · exact hskip
  · obtain ⟨c, t, hrest, hc⟩ := h
    have hle := hspace c (by rw [hrest]; exact List.mem_cons_self)
    exact absurd hc (BitVec.not_lt.mpr hle)

theorem skip_followedBy {b : ParseBuffer} (h : (bufferSkipWhitespace b).Visible) (r : List Byte) :
    bufferSkipWhitespace (b.followedBy r) = (bufferSkipWhitespace b).followedBy r := by
  obtain ⟨ws, c, t, hrest, hws, hc, hskip⟩ := skip_of_visible h
  have hrest' : (b.followedBy r).rest = ws ++ c :: (t ++ r) := by
    cases ws with
    | nil => exact rest_followedBy hrest r
    | cons w ws => simpa using rest_followedBy (t := ws ++ c :: t) hrest r
  rw [hskip, skip_of_rest hrest' hws hc]
  rfl

theorem behind_followedBy {b : ParseBuffer} (h : (behind b).Visible) (r : List Byte) :
    behind (b.followedBy r) = (behind b).followedBy r := skip_followedBy h r

/-- Whitespace is no part of a number. -/
theorem stops_of_skip {b : ParseBuffer} {c : Byte} (h : (bufferSkipWhitespace b).isAt c = true)
    (hc : 32 < c) (hnumber : isNumberChar c = false) : b.Stops := by
  obtain ⟨ws, d, t, hrest, hws, -, hskip⟩ := skip_of_visible (visible_of_isAt h hc)
  cases ws with
  | nil =>
    obtain ⟨t', ht'⟩ := rest_of_isAt h
    have hbyte : b.rest = c :: t' := by rw [← ht', hskip]; rfl
    exact ⟨c, t', hbyte, hnumber⟩
  | cons w ws => exact ⟨w, _, hrest, space_not_number w (hws w List.mem_cons_self)⟩

/-- What is skipped twice and visible then is visible at once. -/
theorem visible_of_loopStart {b : ParseBuffer} (h : (behind (loopStart b)).Visible) :
    (behind b).Visible := by
  have hpos := (after_behind b).offset
  have hback : (loopStart b).advance 1 = { behind b with depth := b.depth + 1 } := by
    simp only [loopStart, ParseBuffer.advance, ParseBuffer.mk.injEq, true_and, and_true]
    omega
  obtain ⟨ws, c, t, hrest, -, hc, -⟩ := skip_of_visible h
  have hmem : c ∈ (behind b).rest := by
    have hrest' : (behind b).rest = ws ++ c :: t := by rw [← hrest, hback]; rfl
    rw [hrest']
    exact List.mem_append_right _ List.mem_cons_self
  rcases skip_cases (b.advance 1) with ⟨ws', c', t', hrest', -, hc', hskip⟩ | hspace
  · exact ⟨c', t', by rw [behind, hskip]; exact rest_advance hrest', hc'⟩
  · exact absurd hc (BitVec.not_lt.mpr (hspace c hmem))

theorem loopStart_followedBy {b : ParseBuffer} (h : (behind b).Visible) (r : List Byte) :
    loopStart (b.followedBy r) = (loopStart b).followedBy r := by
  rw [loopStart, behind_followedBy h]
  rfl

/-! ## Strings -/

theorem closingQuote_append (s r : List Byte) {n : Nat} (h : closingQuote s = some n) :
    closingQuote (s ++ r) = some n := by
  induction s using closingQuote.induct generalizing n with
  | case1 => cases h
  | case2 s =>
    rw [closingQuote.eq_def] at h ⊢
    exact h
  | case3 => cases h
  | case4 e s _ ih =>
    rw [closingQuote_escape] at h
    obtain ⟨m, hm, rfl⟩ := Option.map_eq_some_iff.mp h
    rw [List.cons_append, List.cons_append, closingQuote_escape, ih hm, Option.map_some]
  | case5 c s hquote hback ih =>
    rw [closingQuote_skip hquote hback] at h
    obtain ⟨m, hm, rfl⟩ := Option.map_eq_some_iff.mp h
    rw [List.cons_append, closingQuote_skip hquote hback, ih hm, Option.map_some]

/-- A literal before the closing quote is followed at least by the quote. -/
theorem utf16LiteralToUtf8_append {left : Nat} {s : List Byte} (h : left < s.length)
    (r : List Byte) : utf16LiteralToUtf8 left (s ++ r) = utf16LiteralToUtf8 left s := by
  unfold utf16LiteralToUtf8
  split
  · rfl
  · rename_i hleft
    obtain ⟨k, rfl⟩ := Nat.exists_eq_add_of_le' (Nat.not_lt.mp hleft)
    match s, h with
    | c :: e :: c₀ :: c₁ :: c₂ :: c₃ :: second, h =>
      simp only [List.cons_append]
      split
      · rfl
      · split
        · split
          · rfl
          · rename_i hsecond
            obtain ⟨k, rfl⟩ := Nat.exists_eq_add_of_le' (show 6 ≤ k by omega)
            match second, h with
            | s₀ :: s₁ :: d₀ :: d₁ :: d₂ :: d₃ :: t, _ => rfl
        · rfl

/-- The second loop of `parse_string` does not read behind the closing quote. -/
theorem unescape_append {fuel left : Nat} {s : List Byte} (h : left < s.length) (r : List Byte) :
    unescape fuel left (s ++ r) = unescape fuel left s := by
  induction fuel generalizing left s with
  | zero => cases left <;> rfl
  | succ fuel ih =>
    cases left with
    | zero => rfl
    | succ left =>
      match s, h with
      | c :: e :: t, h =>
        have hrec : ∀ n, 1 ≤ n → unescape fuel (left + 1 - n) ((c :: e :: t ++ r).drop n) =
            unescape fuel (left + 1 - n) ((c :: e :: t).drop n) := by
          intro n hn
          by_cases hle : left + 1 ≤ n
          · rw [Nat.sub_eq_zero_of_le hle]
            cases fuel <;> rfl
          · rw [List.drop_append_of_le_length (by omega)]
            exact ih (by rw [List.length_drop]; omega)
        have hone := hrec 1 (Nat.le_refl 1)
        have htwo := hrec 2 (by decide)
        have hutf := utf16LiteralToUtf8_append h r
        simp only [List.cons_append] at hrec hone htwo hutf ⊢
        simp only [unescape, hutf, ← List.drop_one] at hone htwo ⊢
        cases hu : utf16LiteralToUtf8 (left + 1) (c :: e :: t) with
        | none => simp only [hone, htwo]
        | some o => simp only [hone, htwo, hrec o.2 (utf16LiteralToUtf8_pos hu)]

theorem isAt_of_parseString {b e : ParseBuffer} {output : List Byte}
    (h : parseString b = some (output, e)) : b.isAt (ch '"') = true := by
  unfold parseString at h
  split at h
  · cases h
  · rename_i hquote
    exact isAt_of_byte (not_not.mp hquote) (by decide)

theorem parseString_followedBy {b e : ParseBuffer} {output : List Byte}
    (h : parseString b = some (output, e)) (r : List Byte) :
    parseString (b.followedBy r) = some (output, e.followedBy r) := by
  obtain ⟨s, hs⟩ := rest_of_isAt (isAt_of_parseString h)
  have hrest := rest_followedBy hs r
  unfold parseString at h
  rw [if_neg (not_not_intro (byte_of_rest hs)), hs] at h
  simp only [List.drop_one, List.tail_cons, Option.bind_eq_bind, Option.bind_eq_some_iff] at h
  obtain ⟨n, hn, output', hunescape, he⟩ := h
  cases he
  rw [parseString, if_neg (not_not_intro (byte_of_rest hrest)), hrest]
  simp only [List.drop_one, List.tail_cons, Option.bind_eq_bind, closingQuote_append s r hn,
    Option.bind_some, unescape_append (closingQuote_lt s hn) r, hunescape]
  rfl

/-! ## Numbers -/

/-- The bytes that are copied for a number, in a text with more behind it: all of them are
taken, and then there is one that stops, or the copy is full. -/
theorem numberChars_append {s : List Byte} {n : Nat} {c : Byte} {t : List Byte}
    (hn : n ≤ ((s.take 63).takeWhile isNumberChar).length) (hstop : s.drop n = c :: t)
    (hc : isNumberChar c = false) (r : List Byte) :
    ((s ++ r).take 63).takeWhile isNumberChar = (s.take 63).takeWhile isNumberChar := by
  rcases Nat.lt_or_ge s.length 63 with hshort | hlong
  · rw [List.take_of_length_le (Nat.le_of_lt hshort)] at hn ⊢
    have hsplit : s = s.take n ++ c :: t := by rw [← hstop, List.take_append_drop]
    have hchars : s.takeWhile isNumberChar <+: s := List.takeWhile_prefix isNumberChar
    have hall : ∀ d ∈ s.take n, isNumberChar d = true := by
      intro d hd
      have hlead : s.take n <+: s.takeWhile isNumberChar :=
        List.prefix_of_prefix_length_le (List.take_prefix n s) hchars
          ((List.length_take_le n s).trans hn)
      exact List.mem_takeWhile_imp (hlead.subset hd)
    have hlt : (s.take n).length < 63 := by
      rw [List.length_take]
      omega
    obtain ⟨k, hk⟩ : ∃ k, 63 - (s.take n).length = k + 1 := ⟨62 - (s.take n).length, by omega⟩
    have hleft : s.takeWhile isNumberChar = s.take n := by
      conv_lhs => rw [hsplit]
      rw [List.takeWhile_append_of_pos hall, List.takeWhile_cons_of_neg (by simp [hc]),
        List.append_nil]
    have hright : (s ++ r).take 63 = s.take n ++ c :: (t ++ r).take k := by
      conv_lhs => rw [hsplit]
      rw [List.append_assoc, List.take_append, List.take_of_length_le (Nat.le_of_lt hlt), hk,
        List.cons_append, List.take_succ_cons]
    rw [hright, hleft, List.takeWhile_append_of_pos hall,
      List.takeWhile_cons_of_neg (by simp [hc]), List.append_nil]
  · rw [List.take_append_of_le_length hlong]

theorem parseNumber_followedBy {b e : ParseBuffer} {x : Item} (h : parseNumber b = some (x, e))
    (hstops : e.Stops) (hcan : b.canAccess 0 = true) (r : List Byte) :
    parseNumber (b.followedBy r) = some (x, e.followedBy r) := by
  have hrest : (b.followedBy r).rest = b.rest ++ r := by
    rw [rest_followedBy (rest_eq_cons hcan) r, rest_eq_cons hcan, List.cons_append]
  unfold parseNumber strtod at h
  simp only [Option.map_map, Option.map_eq_some_iff] at h
  obtain ⟨number, hnumber, he⟩ := h
  cases he
  obtain ⟨c, t, hstop, hc⟩ := hstops
  have hdrop : b.rest.drop number.length = c :: t := by
    rw [← hstop]
    exact List.drop_drop
  unfold parseNumber strtod
  rw [hrest, numberChars_append (scanNumber_length_le hnumber) hdrop hc r, hnumber]
  rfl

/-! ## Values -/

theorem isAt_of_startsWith {b : ParseBuffer} {c : Byte} {word : List Byte}
    (h : b.startsWith (c :: word) = true) : b.isAt c = true := by
  obtain ⟨t, ht⟩ := List.isPrefixOf_iff_prefix.mp h
  exact isAt_of_rest (t := word ++ t) (by rw [← ht]; rfl)

theorem startsWith_followedBy {b : ParseBuffer} {word : List Byte}
    (h : b.startsWith word = true) (hne : word ≠ []) (r : List Byte) :
    (b.followedBy r).startsWith word = true := by
  obtain ⟨c, word, rfl⟩ := List.exists_cons_of_ne_nil hne
  obtain ⟨t, ht⟩ := List.isPrefixOf_iff_prefix.mp h
  have hrest := rest_followedBy (t := word ++ t) (by rw [← ht]; rfl) r
  exact startsWith_of_rest (t := t ++ r) (hrest.trans (by simp))

theorem visible_of_value {fuel : Nat} {b e : ParseBuffer} {x : Item}
    (h : parseValue fuel b = .ok (x, e)) : b.Visible := by
  cases fuel with
  | zero => cases h
  | succ fuel =>
    cases parseValue_ok h with
    | null first => exact visible_of_isAt (isAt_of_startsWith first) (by decide)
    | false first => exact visible_of_isAt (isAt_of_startsWith first) (by decide)
    | true first => exact visible_of_isAt (isAt_of_startsWith first) (by decide)
    | string _ first => exact visible_of_isAt first (by decide)
    | number _ first =>
      rcases (Bool.or_eq_true _ _).mp first with h | h
      · exact visible_of_isAt h (by decide)
      · obtain ⟨hcan, hdigit⟩ := (Bool.and_eq_true _ _).mp h
        exact ⟨_, _, rest_eq_cons hcan, (digit_visible _ hdigit).1⟩
    | array _ first => exact visible_of_isAt first (by decide)
    | object _ first => exact visible_of_isAt first (by decide)

theorem parseElements_eq {fuel : Nat} {b f : ParseBuffer} {item : Item}
    (h : parseValue fuel (behind b) = .ok (item, f)) :
    parseElements (fuel + 1) b =
      if (bufferSkipWhitespace f).isAt (ch ',') then do
        let (items, e) ← parseElements fuel (bufferSkipWhitespace f)
        .ok (item :: items, e)
      else .ok ([item], bufferSkipWhitespace f) := by
  rw [parseElements, ← behind, h]
  rfl

theorem parseMembers_eq {fuel : Nat} {b k f : ParseBuffer} {name : List Byte} {item : Item}
    (hname : parseString (behind b) = some (name, k))
    (hcolon : (bufferSkipWhitespace k).isAt (ch ':') = true)
    (h : parseValue fuel (behind (bufferSkipWhitespace k)) = .ok (item, f)) :
    parseMembers (fuel + 1) b =
      if (bufferSkipWhitespace f).isAt (ch ',') then do
        let (items, e) ← parseMembers fuel (bufferSkipWhitespace f)
        .ok ({ item with string := some name } :: items, e)
      else .ok ([{ item with string := some name }], bufferSkipWhitespace f) := by
  rw [parseMembers, ← behind, hname]
  change (if ¬ (bufferSkipWhitespace k).isAt (ch ':') then _ else _) = _
  rw [if_neg (not_not_intro hcolon), ← behind, h]
  rfl

/-- What each of the five functions accepts it accepts with `r` behind the text and with
more fuel: an array or an object as it is, a value when something stands behind it that
cannot belong to it. -/
structure Extends (r : List Byte) (fuel : Nat) : Prop where
  value : ∀ {fuel' b x e}, fuel ≤ fuel' → parseValue fuel b = .ok (x, e) → e.Stops →
    parseValue fuel' (b.followedBy r) = .ok (x, e.followedBy r)
  array : ∀ {fuel' b x e}, fuel ≤ fuel' → parseArray fuel b = .ok (x, e) →
    parseArray fuel' (b.followedBy r) = .ok (x, e.followedBy r)
  elements : ∀ {fuel' b items e}, fuel ≤ fuel' → parseElements fuel b = .ok (items, e) →
    e.isAt (ch ']') = true → parseElements fuel' (b.followedBy r) = .ok (items, e.followedBy r)
  object : ∀ {fuel' b x e}, fuel ≤ fuel' → parseObject fuel b = .ok (x, e) →
    parseObject fuel' (b.followedBy r) = .ok (x, e.followedBy r)
  members : ∀ {fuel' b items e}, fuel ≤ fuel' → parseMembers fuel b = .ok (items, e) →
    e.isAt (ch '}') = true → parseMembers fuel' (b.followedBy r) = .ok (items, e.followedBy r)

section Extends

variable {r : List Byte} {fuel fuel' : Nat} {b e : ParseBuffer} {x : Item} {items : List Item}

theorem value_followedBy (hx : Extends r fuel) (hfuel : fuel ≤ fuel')
    (h : parseValue (fuel + 1) b = .ok (x, e)) (hstops : e.Stops) :
    parseValue (fuel' + 1) (b.followedBy r) = .ok (x, e.followedBy r) := by
  cases parseValue_ok h with
  | null first =>
    rw [parseValue, if_pos (startsWith_followedBy first (by decide) r)]
    rfl
  | false first =>
    have hat := isAt_followedBy_of_isAt (isAt_of_startsWith first) r
    have hnull : (b.followedBy r).startsWith (str "null") = false :=
      startsWith_eq_false hat (by decide)
    rw [parseValue, hnull, if_neg Bool.false_ne_true,
      if_pos (startsWith_followedBy first (by decide) r)]
    rfl
  | true first =>
    have hat := isAt_followedBy_of_isAt (isAt_of_startsWith first) r
    have hnull : (b.followedBy r).startsWith (str "null") = false :=
      startsWith_eq_false hat (by decide)
    have hfalse : (b.followedBy r).startsWith (str "false") = false :=
      startsWith_eq_false hat (by decide)
    rw [parseValue, hnull, hfalse, if_neg Bool.false_ne_true, if_neg Bool.false_ne_true,
      if_pos (startsWith_followedBy first (by decide) r)]
    rfl
  | string hs first =>
    rw [parseValue_at_quote (isAt_followedBy_of_isAt first r), parseString_followedBy hs r]
    rfl
  | number hn first =>
    have hcan : b.canAccess 0 = true := by
      rcases (Bool.or_eq_true _ _).mp first with h | h
      · exact canAccess_of_isAt h
      · exact ((Bool.and_eq_true _ _).mp h).1
    have hrest := rest_followedBy (rest_eq_cons hcan) r
    have hfirst : ((b.followedBy r).isAt (ch '-') ||
        (b.followedBy r).canAccess 0 && isDigit (b.followedBy r).byte) = true := by
      rw [isAt_followedBy (rest_eq_cons hcan), canAccess_of_rest hrest, byte_of_rest hrest]
      rwa [hcan] at first
    rw [parseValue_at_number hfirst, parseNumber_followedBy hn hstops hcan r]
    rfl
  | array ha first =>
    rw [parseValue_at_bracket (isAt_followedBy_of_isAt first r)]
    exact hx.array hfuel ha
  | object ho first =>
    rw [parseValue_at_brace (isAt_followedBy_of_isAt first r)]
    exact hx.object hfuel ho

/-- The first value or name is visible to both loops. -/
theorem visible_of_elements (h : parseElements fuel b = .ok (items, e)) : (behind b).Visible := by
  cases fuel with
  | zero => cases h
  | succ fuel =>
    obtain ⟨item, f, hf, -⟩ := parseElements_ok h
    exact visible_of_value hf

theorem visible_of_members (h : parseMembers fuel b = .ok (items, e)) : (behind b).Visible := by
  cases fuel with
  | zero => cases h
  | succ fuel =>
    obtain ⟨name, k, item, f, hk, -⟩ := parseMembers_ok h
    exact visible_of_isAt (isAt_of_parseString hk) (by decide)

theorem array_followedBy (hx : Extends r fuel) (hfuel : fuel ≤ fuel')
    (h : parseArray (fuel + 1) b = .ok (x, e)) :
    parseArray (fuel' + 1) (b.followedBy r) = .ok (x, e.followedBy r) := by
  obtain ⟨⟨hdepth, hopen⟩, hrest⟩ := parseArray_ok h
  have hbyte : (b.followedBy r).byte = ch '[' :=
    (isAt_iff.mp (isAt_followedBy_of_isAt (isAt_of_byte hopen (by decide)) r)).2
  rcases hrest with ⟨hclose, rfl, rfl⟩ | ⟨⟨hclose, hcan⟩, items, f, hf, hend, rfl, rfl⟩
  · have hvisible := visible_of_isAt hclose (by decide)
    have hdepth' : (b.followedBy r).depth < nestingLimit := hdepth
    rw [parseArray, if_neg (Nat.not_le.mpr hdepth'), if_neg (not_not_intro hbyte)]
    dsimp only
    rw [← behind, behind_followedBy hvisible, if_pos (isAt_followedBy_of_isAt hclose r)]
    rfl
  · have hvisible := visible_of_loopStart (visible_of_elements hf)
    have hbehind := behind_followedBy hvisible r
    have hfirst := rest_eq_cons hcan
    have hloop := hx.elements hfuel hf hend
    rw [← loopStart_followedBy hvisible] at hloop
    exact parseArray_items (b := b.followedBy r) hdepth hbyte
      (by rw [hbehind, isAt_followedBy hfirst, hclose])
      (by rw [hbehind]; exact canAccess_of_rest (rest_followedBy hfirst r)) hloop
      (isAt_followedBy_of_isAt hend r)

theorem object_followedBy (hx : Extends r fuel) (hfuel : fuel ≤ fuel')
    (h : parseObject (fuel + 1) b = .ok (x, e)) :
    parseObject (fuel' + 1) (b.followedBy r) = .ok (x, e.followedBy r) := by
  obtain ⟨⟨hdepth, hopen⟩, hrest⟩ := parseObject_ok h
  have hat := isAt_followedBy_of_isAt hopen r
  rcases hrest with ⟨hclose, rfl, rfl⟩ | ⟨⟨hclose, hcan⟩, items, f, hf, hend, rfl, rfl⟩
  · have hvisible := visible_of_isAt hclose (by decide)
    have hdepth' : (b.followedBy r).depth < nestingLimit := hdepth
    rw [parseObject, if_neg (Nat.not_le.mpr hdepth'), if_neg (not_not_intro hat)]
    dsimp only
    rw [← behind, behind_followedBy hvisible, if_pos (isAt_followedBy_of_isAt hclose r)]
    rfl
  · have hvisible := visible_of_loopStart (visible_of_members hf)
    have hbehind := behind_followedBy hvisible r
    have hfirst := rest_eq_cons hcan
    have hloop := hx.members hfuel hf hend
    rw [← loopStart_followedBy hvisible] at hloop
    exact parseObject_items (b := b.followedBy r) hdepth hat
      (by rw [hbehind, isAt_followedBy hfirst, hclose])
      (by rw [hbehind]; exact canAccess_of_rest (rest_followedBy hfirst r)) hloop
      (isAt_followedBy_of_isAt hend r)

theorem elements_followedBy (hx : Extends r fuel) (hfuel : fuel ≤ fuel')
    (h : parseElements (fuel + 1) b = .ok (items, e)) (hend : e.isAt (ch ']') = true) :
    parseElements (fuel' + 1) (b.followedBy r) = .ok (items, e.followedBy r) := by
  obtain ⟨item, f, hf, hrest⟩ := parseElements_ok h
  have hbehind := behind_followedBy (visible_of_value hf) r
  rcases hrest with ⟨hcomma, rfl, rfl⟩ | ⟨hcomma, rest, hg, rfl⟩
  · have hvalue := hx.value hfuel hf (stops_of_skip hend (by decide) (by decide))
    obtain ⟨t, ht⟩ := rest_of_isAt hend
    rw [← hbehind] at hvalue
    rw [parseElements_eq hvalue, skip_followedBy (visible_of_isAt hend (by decide)),
      isAt_followedBy ht, hcomma, if_neg Bool.false_ne_true]
  · have hvalue := hx.value hfuel hf (stops_of_skip hcomma (by decide) (by decide))
    rw [← hbehind] at hvalue
    rw [parseElements_eq hvalue, skip_followedBy (visible_of_isAt hcomma (by decide)),
      if_pos (isAt_followedBy_of_isAt hcomma r), hx.elements hfuel hg hend]
    rfl

theorem members_followedBy (hx : Extends r fuel) (hfuel : fuel ≤ fuel')
    (h : parseMembers (fuel + 1) b = .ok (items, e)) (hend : e.isAt (ch '}') = true) :
    parseMembers (fuel' + 1) (b.followedBy r) = .ok (items, e.followedBy r) := by
  obtain ⟨name, k, item, f, hk, hcolon, hf, hrest⟩ := parseMembers_ok h
  have hname := parseString_followedBy hk r
  rw [← behind_followedBy (visible_of_isAt (isAt_of_parseString hk) (by decide))] at hname
  have hskip := skip_followedBy (visible_of_isAt hcolon (by decide)) r
  have hcolon' := isAt_followedBy_of_isAt hcolon r
  rw [← hskip] at hcolon'
  have hbehind := behind_followedBy (visible_of_value hf) r
  rw [← hskip] at hbehind
  rcases hrest with ⟨hcomma, rfl, rfl⟩ | ⟨hcomma, rest, hg, rfl⟩
  · have hvalue := hx.value hfuel hf (stops_of_skip hend (by decide) (by decide))
    obtain ⟨t, ht⟩ := rest_of_isAt hend
    rw [← hbehind] at hvalue
    rw [parseMembers_eq hname hcolon' hvalue, skip_followedBy (visible_of_isAt hend (by decide)),
      isAt_followedBy ht, hcomma, if_neg Bool.false_ne_true]
  · have hvalue := hx.value hfuel hf (stops_of_skip hcomma (by decide) (by decide))
    rw [← hbehind] at hvalue
    rw [parseMembers_eq hname hcolon' hvalue, skip_followedBy (visible_of_isAt hcomma (by decide)),
      if_pos (isAt_followedBy_of_isAt hcomma r), hx.members hfuel hg hend]
    rfl

end Extends

/-- By induction on the smaller fuel. -/
theorem extends_fuel (r : List Byte) (fuel : Nat) : Extends r fuel := by
  induction fuel with
  | zero => constructor <;> intro fuel' b x e _ h <;> cases h
  | succ fuel ih =>
    have hsucc {fuel' : Nat} (h : fuel + 1 ≤ fuel') : ∃ k, fuel' = k + 1 ∧ fuel ≤ k :=
      exists_fuel h
    constructor
    · intro fuel' b x e hfuel h
      obtain ⟨k, rfl, hk⟩ := hsucc hfuel
      exact value_followedBy ih hk h
    · intro fuel' b x e hfuel h
      obtain ⟨k, rfl, hk⟩ := hsucc hfuel
      exact array_followedBy ih hk h
    · intro fuel' b x e hfuel h
      obtain ⟨k, rfl, hk⟩ := hsucc hfuel
      exact elements_followedBy ih hk h
    · intro fuel' b x e hfuel h
      obtain ⟨k, rfl, hk⟩ := hsucc hfuel
      exact object_followedBy ih hk h
    · intro fuel' b x e hfuel h
      obtain ⟨k, rfl, hk⟩ := hsucc hfuel
      exact members_followedBy ih hk h

theorem isAt_of_parseObject {fuel : Nat} {b e : ParseBuffer} {x : Item}
    (h : parseObject fuel b = .ok (x, e)) : b.isAt (ch '{') = true := by
  cases fuel with
  | zero => cases h
  | succ fuel => exact (parseObject_ok h).1.2

/-- The mark is skipped in both texts or, where an object follows at once, in neither. -/
theorem skipUtf8Bom_followedBy {b : ParseBuffer}
    (h : (bufferSkipWhitespace (skipUtf8Bom b)).isAt (ch '{') = true) (r : List Byte) :
    skipUtf8Bom (b.followedBy r) = (skipUtf8Bom b).followedBy r := by
  by_cases hmark : (b.canAccess 4 && b.startsWith [0xEF, 0xBB, 0xBF]) = true
  · obtain ⟨hcan, hstart⟩ := (Bool.and_eq_true _ _).mp hmark
    have hcan' : (b.followedBy r).canAccess 4 = true := by
      simp only [ParseBuffer.canAccess, followedBy, List.length_append, decide_eq_true_eq]
        at hcan ⊢
      omega
    have hskip : skipUtf8Bom b = b.advance 3 := if_pos hmark
    rw [hskip, skipUtf8Bom, hcan', startsWith_followedBy hstart (by decide)]
    rfl
  · have hskip : skipUtf8Bom b = b := if_neg hmark
    rw [hskip] at h ⊢
    have hstart : (b.followedBy r).startsWith [0xEF, 0xBB, 0xBF] = false := by
      obtain ⟨ws, c, t, hrest, hws, -, hadvance⟩ := skip_of_visible (visible_of_isAt h (by decide))
      cases ws with
      | nil =>
        rw [hadvance] at h
        exact startsWith_eq_false (isAt_followedBy_of_isAt (b := b) h r) (by decide)
      | cons w ws =>
        refine startsWith_eq_false (isAt_of_rest (rest_followedBy hrest r)) ?_
        rintro rfl
        exact absurd (hws _ List.mem_cons_self) (by decide)
    rw [skipUtf8Bom, hstart, Bool.and_false, if_neg Bool.false_ne_true]

/-- **A closed object decides**: a text that is accepted as an object is accepted as the
same object with anything behind it. -/
theorem parseWithLength_append {value : List Byte} {root : Item}
    (h : parseWithLength value = some root) (hroot : root.type = .object) (r : List Byte) :
    parseWithLength (value ++ r) = some root := by
  have hne : value ≠ [] := by
    rintro rfl
    cases h
  have hne' : value ++ r ≠ [] := by simp [hne]
  unfold parseWithLength parseWithLengthOpts at h ⊢
  rw [if_neg hne] at h
  rw [if_neg hne']
  cases hv : parseValue (3 * value.length + 1)
      (bufferSkipWhitespace (skipUtf8Bom ⟨value, 0, 0⟩)) with
  | error e => rw [hv] at h; cases h
  | ok o =>
    obtain ⟨x, e⟩ := o
    rw [hv] at h
    cases h
    have hobject := parseValue_object hv hroot
    have hat := isAt_of_parseObject hobject
    have hstart : bufferSkipWhitespace (skipUtf8Bom ⟨value ++ r, 0, 0⟩) =
        (bufferSkipWhitespace (skipUtf8Bom ⟨value, 0, 0⟩)).followedBy r := by
      rw [← skip_followedBy (visible_of_isAt hat (by decide)), ← skipUtf8Bom_followedBy hat]
      rfl
    rw [hstart, parseValue_at_brace (isAt_followedBy_of_isAt hat r),
      (extends_fuel r _).object (by simp) hobject]
    rfl

/-! ## What is no object -/

/-- Only an object names its items. -/
theorem parseValue_string {fuel : Nat} {b e : ParseBuffer} {x : Item}
    (h : parseValue fuel b = .ok (x, e)) : x.string = none := by
  cases fuel with
  | zero => cases h
  | succ fuel =>
    cases parseValue_ok h with
    | null => rfl
    | false => rfl
    | true => rfl
    | string => rfl
    | number hn =>
      simp only [parseNumber, Option.map_eq_some_iff] at hn
      obtain ⟨o, -, ho⟩ := hn
      cases ho
      rfl
    | array ha =>
      cases fuel with
      | zero => cases ha
      | succ fuel =>
        rcases (parseArray_ok ha).2 with ⟨-, rfl, -⟩ | ⟨-, items, f, -, -, rfl, -⟩
        · rfl
        · rfl
    | object ho =>
      cases fuel with
      | zero => cases ho
      | succ fuel =>
        rcases (parseObject_ok ho).2 with ⟨-, rfl, -⟩ | ⟨-, items, f, -, -, rfl, -⟩
        · rfl
        · rfl

theorem parseElements_string {fuel : Nat} {b e : ParseBuffer} {items : List Item}
    (h : parseElements fuel b = .ok (items, e)) : ∀ c ∈ items, c.string = none := by
  induction fuel generalizing b items with
  | zero => cases h
  | succ fuel ih =>
    obtain ⟨item, f, hf, ⟨-, rfl, -⟩ | ⟨-, rest, hg, rfl⟩⟩ := parseElements_ok h
    · exact List.forall_mem_singleton.mpr (parseValue_string hf)
    · exact List.forall_mem_cons.mpr ⟨parseValue_string hf, ih hg⟩

theorem parseValue_child {fuel : Nat} {b e : ParseBuffer} {x : Item}
    (h : parseValue fuel b = .ok (x, e)) (hx : x.type ≠ .object) :
    ∀ c ∈ x.child, c.string = none := by
  cases fuel with
  | zero => cases h
  | succ fuel =>
    cases parseValue_ok h with
    | null => exact List.forall_mem_nil _
    | false => exact List.forall_mem_nil _
    | true => exact List.forall_mem_nil _
    | string => exact List.forall_mem_nil _
    | number hn =>
      simp only [parseNumber, Option.map_eq_some_iff] at hn
      obtain ⟨o, -, ho⟩ := hn
      cases ho
      exact List.forall_mem_nil _
    | array ha =>
      cases fuel with
      | zero => cases ha
      | succ fuel =>
        rcases (parseArray_ok ha).2 with ⟨-, rfl, -⟩ | ⟨-, items, f, hf, -, rfl, -⟩
        · exact List.forall_mem_nil _
        · exact parseElements_string hf
    | object ho => exact absurd (parseObject_type ho) hx

/-- **No lookup finds anything** in a text that is accepted as something else than an object. -/
theorem getObjectItem_of_not_object {value : List Byte} {root : Item}
    (h : parseWithLength value = some root) (hroot : root.type ≠ .object) (name : List Byte) :
    getObjectItem root name = none := by
  unfold parseWithLength parseWithLengthOpts at h
  split at h
  · cases h
  cases hv : parseValue (3 * value.length + 1)
      (bufferSkipWhitespace (skipUtf8Bom ⟨value, 0, 0⟩)) with
  | error e => rw [hv] at h; cases h
  | ok o =>
    rw [hv] at h
    cases h
    refine List.find?_eq_none.mpr fun c hc => ?_
    rw [parseValue_child hv hroot c hc]
    simp [caseInsensitiveStrcmp]

end MqttDevice.CJson
