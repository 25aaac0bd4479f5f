import MqttDevice.CJson.Print
import MqttDevice.Lib.Blocks

/-!
# Printing with memory that may run out (`cJSON.c`)

Each print function asks `ensure` for room and writes behind it, again and again; this is
what a `Piece` is. `valuePieces` are the pieces of a value in the order of the source, and
`runPieces` prints them into a buffer that `ensure` lets grow.

* `puts_valuePieces`: the pieces make the text of `printValue`;
* `cJsonPrint_spec`: the text is there if and only if each of the `printRequests` is
  granted, and the block of a text is the only one that is held afterwards.
-/

namespace MqttDevice.CJson

open MqttDevice.Ascii MqttDevice.Binary64 MqttDevice.Blocks MqttDevice.Blocks.Heap

/-! ## The program -/

/-- Room asked for with `ensure`, and the bytes that are written there; or a value that
cannot be printed. -/
inductive Piece
  | put (needed : Nat) (bytes : List Byte)
  | fail

/-- `print_number` -/
def numberPieces (d : Double) : List Piece :=
  match printNumber d with
  | some text => [.put (text.length + 1) text]
  | none => [.fail]

/-- `print_string_ptr` -/
def stringPieces (s : Option (List Byte)) : List Piece :=
  [.put ((printStringPtr s).length + 1) (printStringPtr s)]

mutual

/-- `print_value`, at a depth of objects around it. -/
def valuePieces (format : Bool) (depth : Nat) : Item → List Piece
  | ⟨type, valuestring, _, valuedouble, _, child⟩ =>
    match type with
    | .null => [.put 5 (str "null")]
    | .false => [.put 6 (str "false")]
    | .true => [.put 5 (str "true")]
    | .number => numberPieces valuedouble
    | .raw =>
      match valuestring with
      | some s => [.put ((cString s).length + 1) (cString s)]
      | none => [.fail]
    | .string => stringPieces valuestring
    | .array => .put 1 [ch '['] :: elementPieces format (depth + 1) child ++ [.put 2 [ch ']']]
    | .object =>
      .put (if format then 3 else 2) (str (if format then "\x7b\n" else "\x7b")) ::
        memberPieces format (depth + 1) child ++
        [.put (if format then depth + 2 else 2) ((if format then tabs depth else []) ++ [ch '}'])]
    | .invalid => [.fail]

/-- The loop of `print_array`. -/
def elementPieces (format : Bool) (depth : Nat) : List Item → List Piece
  | [] => []
  | item :: next =>
    valuePieces format depth item ++
      (if next.isEmpty then []
        else [.put (if format then 3 else 2) (str (if format then ", " else ","))]) ++
      elementPieces format depth next

/-- The loop of `print_object`. -/
def memberPieces (format : Bool) (depth : Nat) : List Item → List Piece
  | [] => []
  | item :: next =>
    (if format then [.put depth (tabs depth)] else []) ++ stringPieces item.string ++
      [.put (if format then 2 else 1) (str (if format then ":\t" else ":"))] ++
      valuePieces format depth item ++
      [.put ((if format then 1 else 0) + (if next.isEmpty then 0 else 1) + 1)
        ((if next.isEmpty then [] else [ch ',']) ++ (if format then [ch '\n'] else []))] ++
      memberPieces format depth next

end

/-- `printbuffer`, with the bytes up to `offset`. -/
structure PrintBuffer where
  buffer : Option Nat
  length : Nat
  text : List Byte

def intMaxNat : Nat := 2147483647

section Program

variable {α : Type*} (ok : Nat → Bool)

/-- `ensure`: whether there is room for `needed` bytes and a zero behind the text. -/
def ensure (needed : Nat) (p : PrintBuffer) (h : Heap α) : Bool × PrintBuffer × Heap α :=
  match p.buffer with
  | none => (false, p, h)
  | some b =>
    if 0 < p.length ∧ p.length ≤ p.text.length then (false, p, h)
    else if intMaxNat < needed then (false, p, h)
    else
      let needed := needed + p.text.length + 1
      if needed ≤ p.length then (true, p, h)
      else if intMaxNat < needed then (false, p, h)
      else
        let newsize := if intMaxNat / 2 < needed then intMaxNat else needed * 2
        match h.realloc ok b with
        | (some b, h) => (true, { p with buffer := some b, length := newsize }, h)
        | (none, h) => (false, { p with buffer := none, length := 0 }, h.free b)

/-- The pieces one after the other, up to one that does not find room. -/
def runPieces : List Piece → PrintBuffer → Heap α → Bool × PrintBuffer × Heap α
  | [], p, h => (true, p, h)
  | .fail :: _, p, h => (false, p, h)
  | .put needed bytes :: pieces, p, h =>
    match ensure ok needed p h with
    | (true, p, h) => runPieces pieces { p with text := p.text ++ bytes } h
    | (false, p, h) => (false, p, h)

/-- `cJSON_Print`: the block of the text, and the text. -/
def cJsonPrintMem (item : Option Item) (h : Heap α) : Option (Nat × List Byte) × Heap α :=
  match h.malloc ok with
  | (none, h) => (none, h)
  | (some b, h) =>
    let p : PrintBuffer := ⟨some b, 256, []⟩
    let (done, p, h) :=
      match item with
      | some item => runPieces ok (valuePieces true 0 item) p h
      | none => (false, p, h)
    match done, p.buffer with
    | true, some b =>
      match h.realloc ok b with
      | (some printed, h) => (some (printed, p.text), h)
      | (none, h) => (none, h.free b)
    | _, buffer => (none, h.freeOption buffer)

end Program

/-! ## The text of the pieces -/

def Piece.bytes : Piece → List Byte
  | .put _ bytes => bytes
  | .fail => []

/-- The room is enough, and no more than one byte too much. -/
def Piece.Fits : Piece → Prop
  | .put needed bytes => bytes.length ≤ needed ∧ needed ≤ bytes.length + 1
  | .fail => False

/-- The pieces print the text. -/
def Puts (pieces : List Piece) (text : List Byte) : Prop :=
  (∀ p ∈ pieces, p.Fits) ∧ pieces.flatMap Piece.bytes = text

theorem Puts.nil : Puts [] [] := ⟨by simp, rfl⟩

theorem Puts.append {pieces pieces' : List Piece} {text text' : List Byte}
    (h : Puts pieces text) (h' : Puts pieces' text') :
    Puts (pieces ++ pieces') (text ++ text') := by
  refine ⟨fun p hp => ?_, ?_⟩
  · rcases List.mem_append.mp hp with hp | hp
    · exact h.1 p hp
    · exact h'.1 p hp
  · rw [List.flatMap_append, h.2, h'.2]

theorem Puts.put {needed : Nat} {bytes : List Byte} (hle : bytes.length ≤ needed)
    (hge : needed ≤ bytes.length + 1) : Puts [.put needed bytes] bytes := by
  refine ⟨fun p hp => ?_, List.append_nil _⟩
  rw [List.mem_singleton.mp hp]
  exact ⟨hle, hge⟩

theorem puts_stringPieces (s : Option (List Byte)) : Puts (stringPieces s) (printStringPtr s) :=
  .put (Nat.le_succ _) (Nat.le_refl _)

theorem puts_numberPieces (d : Double) : Puts (numberPieces d) (numberText d) := by
  rw [numberPieces, printNumber_eq]
  exact .put (Nat.le_succ _) (Nat.le_refl _)

theorem puts_open (format : Bool) :
    Puts [.put (if format then 3 else 2) (str (if format then "\x7b\n" else "\x7b"))]
      (str (if format then "\x7b\n" else "\x7b")) := by
  cases format
  · exact .put (by decide) (by decide)
  · exact .put (by decide) (by decide)

theorem puts_close (format : Bool) (depth : Nat) :
    Puts [.put (if format then depth + 2 else 2) ((if format then tabs depth else []) ++ [ch '}'])]
      ((if format then tabs depth else []) ++ [ch '}']) := by
  cases format
  · exact .put (by simp) (by simp)
  · exact .put (by simp [tabs]) (by simp [tabs])

theorem puts_separator (format last : Bool) :
    Puts (if last then [] else [.put (if format then 3 else 2) (str (if format then ", " else ","))])
      (if last then [] else str (if format then ", " else ",")) := by
  cases last
  · cases format
    · exact .put (by decide) (by decide)
    · exact .put (by decide) (by decide)
  · exact .nil

theorem puts_indent (format : Bool) (depth : Nat) :
    Puts (if format then [.put depth (tabs depth)] else []) (if format then tabs depth else []) := by
  cases format
  · exact .nil
  · exact .put (by simp [tabs]) (by simp [tabs])

theorem puts_colon (format : Bool) :
    Puts [.put (if format then 2 else 1) (str (if format then ":\t" else ":"))]
      (str (if format then ":\t" else ":")) := by
  cases format
  · exact .put (by decide) (by decide)
  · exact .put (by decide) (by decide)

theorem puts_lineEnd (format last : Bool) :
    Puts [.put ((if format then 1 else 0) + (if last then 0 else 1) + 1)
        ((if last then [] else [ch ',']) ++ (if format then [ch '\n'] else []))]
      ((if last then [] else [ch ',']) ++ (if format then [ch '\n'] else [])) := by
  cases format <;> cases last <;> exact .put (by decide) (by decide)

mutual

/-- **The pieces make the text** that the printer makes when memory is there. -/
theorem puts_valuePieces (format : Bool) (depth : Nat) (item : Item) {text : List Byte}
    (h : printValue format depth item = some text) : Puts (valuePieces format depth item) text := by
  obtain ⟨type, valuestring, valueint, valuedouble, string, child⟩ := item
  cases type with
  | invalid => cases h
  | false =>
    cases h
    exact .put (by decide) (by decide)
  | true =>
    cases h
    exact .put (by decide) (by decide)
  | null =>
    cases h
    exact .put (by decide) (by decide)
  | number =>
    rw [printValue, printNumber_eq] at h
    cases h
    exact puts_numberPieces valuedouble
  | string =>
    cases h
    exact puts_stringPieces valuestring
  | raw =>
    cases valuestring with
    | none => cases h
    | some s =>
      cases h
      exact .put (Nat.le_succ _) (Nat.le_refl _)
  | array =>
    simp only [printValue, Option.bind_eq_bind, Option.bind_eq_some_iff] at h
    obtain ⟨elements, helements, htext⟩ := h
    cases htext
    have hopen : Puts [.put 1 [ch '[']] [ch '['] := .put (by decide) (by decide)
    have hclose : Puts [.put 2 [ch ']']] [ch ']'] := .put (by decide) (by decide)
    exact (hopen.append (puts_elementPieces format (depth + 1) child helements)).append hclose
  | object =>
    simp only [printValue, Option.bind_eq_bind, Option.bind_eq_some_iff] at h
    obtain ⟨members, hmembers, htext⟩ := h
    cases htext
    have hbody := puts_memberPieces format (depth + 1) child hmembers
    have hall := ((puts_open format).append hbody).append (puts_close format depth)
    rw [← List.append_assoc] at hall
    exact hall

theorem puts_elementPieces (format : Bool) (depth : Nat) (items : List Item) {text : List Byte}
    (h : printElements format depth items = some text) :
    Puts (elementPieces format depth items) text := by
  cases items with
  | nil =>
    cases h
    exact .nil
  | cons item next =>
    simp only [printElements, Option.bind_eq_bind, Option.bind_eq_some_iff] at h
    obtain ⟨value, hvalue, rest, hrest, htext⟩ := h
    cases htext
    have hvalue' := puts_valuePieces format depth item hvalue
    have hrest' := puts_elementPieces format depth next hrest
    exact (hvalue'.append (puts_separator format next.isEmpty)).append hrest'

theorem puts_memberPieces (format : Bool) (depth : Nat) (items : List Item) {text : List Byte}
    (h : printMembers format depth items = some text) :
    Puts (memberPieces format depth items) text := by
  cases items with
  | nil =>
    cases h
    exact .nil
  | cons item next =>
    simp only [printMembers, Option.bind_eq_bind, Option.bind_eq_some_iff] at h
    obtain ⟨value, hvalue, rest, hrest, htext⟩ := h
    cases htext
    have hvalue' := puts_valuePieces format depth item hvalue
    have hrest' := puts_memberPieces format depth next hrest
    have hname := (puts_indent format depth).append (puts_stringPieces item.string)
    have hall := (((hname.append (puts_colon format)).append hvalue').append
      (puts_lineEnd format next.isEmpty)).append hrest'
    simp only [List.append_assoc] at hall ⊢
    rw [memberPieces]
    simp only [List.append_assoc]
    exact hall

end

/-! ## Room for the pieces -/

/-- How often `ensure` asks for a longer buffer on the way through the pieces. -/
def growths : List Piece → Nat → Nat → Nat
  | .put needed bytes :: pieces, length, offset =>
    if needed + offset + 1 ≤ length then growths pieces length (offset + bytes.length)
    else 1 + growths pieces ((needed + offset + 1) * 2) (offset + bytes.length)
  | _, _, _ => 0

section Run

variable {α : Type*} {ok : Nat → Bool}

/-- The next `n` requests are granted. -/
def Granted (ok : Nat → Bool) (h : Heap α) (n : Nat) : Prop :=
  ∀ i < n, ok (h.requests + i) = true

/-- A request in front of `n` others. -/
theorem granted_first {h h' : Heap α} (hreq : h'.requests = h.requests + 1) (n : Nat) :
    Granted ok h (1 + n) ↔ ok h.requests = true ∧ Granted ok h' n := by
  constructor
  · intro hall
    refine ⟨hall 0 (by omega), fun i hi => ?_⟩
    rw [hreq, Nat.add_assoc]
    exact hall (1 + i) (by omega)
  · rintro ⟨h0, hrest⟩ i hi
    cases i with
    | zero => exact h0
    | succ i =>
      have hi' := hrest i (by omega)
      rwa [hreq, Nat.add_assoc, Nat.add_comm 1 i] at hi'

/-- The first of them is refused. -/
theorem not_granted {h : Heap α} (hno : ok h.requests = false) {n : Nat} (hn : 0 < n) :
    ¬ Granted ok h n := by
  intro hall
  have hfirst := hall 0 hn
  rw [Nat.add_zero, hno] at hfirst
  cases hfirst

/-- How pieces end that start with the block `b` and make `n` requests. -/
structure Ends (ok : Nat → Bool) (h : Heap α) (b n : Nat) (text : List Byte)
    (r : Bool × PrintBuffer × Heap α) : Prop where
  cell : r.2.2.cell = h.cell
  held : ∀ bs, h.Held (b :: bs) → r.2.2.Held (r.2.1.buffer.toList ++ bs)
  done : Granted ok h n → r.1 = true ∧ r.2.1.buffer.isSome = true ∧ r.2.1.text = text ∧
    r.2.2.requests = h.requests + n
  failed : ¬ Granted ok h n → r.1 = false

theorem Ends.grow {h : Heap α} {b n : Nat} {text : List Byte} {r : Bool × PrintBuffer × Heap α}
    (hok : ok h.requests = true) (hends : Ends ok (h.moved b) h.blocks n text r) :
    Ends ok h b (1 + n) text r where
  cell := hends.cell
  held bs hH := hends.held bs hH.moved
  done hg := by
    obtain ⟨hdone, hbuf, htext, hreq⟩ := hends.done ((granted_first rfl n).mp hg).2
    exact ⟨hdone, hbuf, htext, hreq.trans (Nat.add_assoc ..)⟩
  failed hg := hends.failed fun hn => hg ((granted_first rfl n).mpr ⟨hok, hn⟩)

/-- There is room already. -/
theorem ensure_fits {needed b : Nat} {p : PrintBuffer} {h : Heap α} (hb : p.buffer = some b)
    (hroom : p.text.length < p.length) (hneeded : needed ≤ intMaxNat)
    (hle : needed + p.text.length + 1 ≤ p.length) : ensure ok needed p h = (true, p, h) := by
  simp only [ensure, hb]
  rw [if_neg (by omega), if_neg (by omega), if_pos hle]

/-- The buffer has to grow. -/
theorem ensure_grows {needed b : Nat} {p : PrintBuffer} {h : Heap α} (hb : p.buffer = some b)
    (hroom : p.text.length < p.length) (hneeded : needed + p.text.length + 1 ≤ intMaxNat / 2)
    (hlt : ¬ needed + p.text.length + 1 ≤ p.length) :
    ensure ok needed p h = match h.realloc ok b with
      | (some b, h) => (true, ⟨some b, (needed + p.text.length + 1) * 2, p.text⟩, h)
      | (none, h) => (false, ⟨none, 0, p.text⟩, h.free b) := by
  have hmax : intMaxNat = 2147483647 := rfl
  simp only [ensure, hb]
  rw [if_neg (by omega), if_neg (by omega), if_neg hlt, if_neg (by omega), if_neg (by omega)]

/-- **The pieces find room** if and only if each growth is granted. -/
theorem runPieces_ends (pieces : List Piece) (hfits : ∀ p ∈ pieces, p.Fits) {b : Nat}
    {p : PrintBuffer} (hb : p.buffer = some b) (hroom : p.text.length < p.length)
    (hsmall : p.text.length + (pieces.flatMap Piece.bytes).length + 2 ≤ intMaxNat / 2)
    (h : Heap α) :
    Ends ok h b (growths pieces p.length p.text.length) (p.text ++ pieces.flatMap Piece.bytes)
      (runPieces ok pieces p h) := by
  have hmax : intMaxNat = 2147483647 := rfl
  induction pieces generalizing b p h with
  | nil =>
    have htrue : Granted ok h 0 := fun i hi => absurd hi (Nat.not_lt_zero i)
    refine ⟨rfl, fun bs hH => ?_, fun _ => ⟨rfl, ?_, ?_, rfl⟩, fun hno => absurd htrue hno⟩
    · rw [runPieces, hb]
      exact hH
    · rw [runPieces, hb]
      rfl
    · rw [List.flatMap_nil, List.append_nil]
      rfl
  | cons piece pieces ih =>
    obtain ⟨hpiece, hrest⟩ := List.forall_mem_cons.mp hfits
    cases piece with
    | fail => exact hpiece.elim
    | put needed bytes =>
      obtain ⟨hle, hge⟩ := hpiece
      have hlen : (p.text ++ bytes).length = p.text.length + bytes.length := List.length_append
      rw [List.flatMap_cons, List.length_append] at hsmall
      rw [List.flatMap_cons, ← List.append_assoc, growths]
      simp only [Piece.bytes] at hsmall ⊢
      split
      · rename_i hfit
        have hnext := ih hrest (b := b) (p := { p with text := p.text ++ bytes }) hb
          (by simp only [hlen]; omega) (by simp only [hlen]; omega) h
        simp only [hlen] at hnext
        rw [runPieces, ensure_fits hb hroom (by omega) hfit]
        exact hnext
      · rename_i hgrow
        have hensure := @ensure_grows _ ok _ _ _ h hb hroom
          (by omega) hgrow
        rw [runPieces, hensure]
        cases hok : ok h.requests with
        | true =>
          have hnext := ih hrest (b := h.blocks)
            (p := ⟨some h.blocks, (needed + p.text.length + 1) * 2, p.text ++ bytes⟩) rfl
            (by simp only [hlen]; omega) (by simp only [hlen]; omega) (h.moved b)
          simp only [hlen] at hnext
          rw [realloc_of_ok b hok]
          exact hnext.grow hok
        | false =>
          rw [realloc_of_not b hok]
          refine ⟨rfl, fun bs hH => ?_, fun hg => ?_, fun _ => rfl⟩
          · exact ((hH.congr rfl rfl : Heap.Held _ (b :: bs))).free
          · exact absurd hg (not_granted hok (by omega))

/-! ## `cJSON_Print` -/

/-- The requests of `cJSON_Print`: a buffer, its growths, and a block of the right size. -/
def printRequests (item : Item) : Nat := 1 + (growths (valuePieces true 0 item) 256 0 + 1)

/-- Nothing is printed of a null pointer. -/
theorem cJsonPrintMem_none (h : Heap α) :
    (cJsonPrintMem ok none h).1 = none ∧
      ∀ bs, h.Held bs → (cJsonPrintMem ok none h).2.Held bs := by
  rw [cJsonPrintMem]
  cases hok : ok h.requests with
  | false =>
    rw [malloc_of_not hok]
    exact ⟨rfl, fun bs hH => hH.congr rfl rfl⟩
  | true =>
    rw [malloc_of_ok hok]
    exact ⟨rfl, fun bs hH => (hH.grant (h.requests + 1)).free⟩

/-- A request behind `n` others. -/
theorem granted_last {h h' : Heap α} {n : Nat} (hreq : h'.requests = h.requests + n) :
    Granted ok h (n + 1) ↔ Granted ok h n ∧ ok h'.requests = true := by
  rw [hreq]
  constructor
  · intro hall
    exact ⟨fun i hi => hall i (by omega), hall n (by omega)⟩
  · rintro ⟨hn, hlast⟩ i hi
    rcases Nat.lt_succ_iff_lt_or_eq.mp hi with hi | rfl
    · exact hn i hi
    · exact hlast

/-- **The text is there** if and only if every request is granted; its block is all that
is held more than before. -/
theorem cJsonPrintMem_spec {item : Item} {text : List Byte} (hprint : cJsonPrint item = some text)
    (hsmall : text.length + 2 ≤ intMaxNat / 2) (h : Heap α) :
    let r := cJsonPrintMem ok (some item) h
    r.2.cell = h.cell ∧ (∀ bs, h.Held bs → r.2.Held ((r.1.map Prod.fst).toList ++ bs)) ∧
      (Granted ok h (printRequests item) → ∃ b, r.1 = some (b, text)) ∧
      (¬ Granted ok h (printRequests item) → r.1 = none) := by
  obtain ⟨hfits, htext⟩ := puts_valuePieces true 0 item hprint
  intro r
  cases hok : ok h.requests with
  | false =>
    have hr : r = (none, { h with requests := h.requests + 1 }) := by
      show cJsonPrintMem ok (some item) h = _
      rw [cJsonPrintMem, malloc_of_not hok]
    rw [hr]
    refine ⟨rfl, fun bs hH => hH.congr rfl rfl, fun hg => ?_, fun _ => rfl⟩
    exact absurd hg (not_granted hok (by rw [printRequests]; omega))
  | true =>
    let h₁ : Heap α := { h with requests := h.requests + 1, blocks := h.blocks + 1 }
    have hends := @runPieces_ends _ ok (valuePieces true 0 item) hfits
      (b := h.blocks) (p := ⟨some h.blocks, 256, []⟩) rfl (Nat.zero_lt_succ 255)
      (by rw [htext, List.length_nil, Nat.zero_add]; exact hsmall) h₁
    rw [htext] at hends
    have hfirst : Granted ok h (printRequests item) ↔
        Granted ok h₁ (growths (valuePieces true 0 item) 256 0 + 1) := by
      rw [printRequests, granted_first (rfl : h₁.requests = h.requests + 1), and_iff_right hok]
    have hr : r = cJsonPrintMem ok (some item) h := rfl
    rw [cJsonPrintMem, malloc_of_ok hok] at hr
    simp only at hr
    rcases hrun : runPieces ok (valuePieces true 0 item) ⟨some h.blocks, 256, []⟩ h₁ with
      ⟨done, p, h₂⟩
    rw [hrun] at hends hr
    obtain ⟨hcell, hheld, hdone, hfailed⟩ := hends
    have hheld₂ : ∀ bs, h.Held bs → h₂.Held (p.buffer.toList ++ bs) := fun bs hH =>
      hheld bs (hH.grant (h.requests + 1))
    by_cases hg : Granted ok h₁ (growths (valuePieces true 0 item) 256 0)
    · obtain ⟨rfl, hbuf, hptext, hreq⟩ := hdone hg
      obtain ⟨b, hb⟩ := Option.isSome_iff_exists.mp hbuf
      simp only at hb hptext
      simp only [hb] at hr hheld₂
      have hlast := hfirst.trans (granted_last hreq)
      cases hok₂ : ok h₂.requests with
      | true =>
        rw [realloc_of_ok b hok₂] at hr
        rw [hr]
        refine ⟨hcell, fun bs hH => (hheld₂ bs hH).moved, fun _ => ⟨h₂.blocks, ?_⟩, fun hno => ?_⟩
        · rw [hptext, List.nil_append]
        · exact absurd (hlast.mpr ⟨hg, hok₂⟩) hno
      | false =>
        rw [realloc_of_not b hok₂] at hr
        rw [hr]
        refine ⟨hcell, fun bs hH => ?_, fun hall => ?_, fun _ => rfl⟩
        · exact (((hheld₂ bs hH).congr rfl rfl : Heap.Held _ (b :: bs))).free
        · have hgranted := (hlast.mp hall).2
          rw [hok₂] at hgranted
          cases hgranted
    · have hfalse : done = false := hfailed hg
      subst hfalse
      simp only at hr
      rw [hr]
      refine ⟨?_, fun bs hH => (hheld₂ bs hH).freeOption, fun hall => ?_, fun _ => rfl⟩
      · rw [← hcell]
        cases p.buffer <;> rfl
      · exact absurd (fun i hi => hfirst.mp hall i (by omega)) hg

end Run

end MqttDevice.CJson
