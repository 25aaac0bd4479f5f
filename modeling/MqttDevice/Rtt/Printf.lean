import MqttDevice.Lib.Ascii
import MqttDevice.Lib.Memory

/-!
# Formatted output (`SEGGER_RTT_printf.c`)

`SEGGER_RTT_vprintf` collects characters in a buffer of 64 bytes and gives it to
`SEGGER_RTT_Write` whenever it is full. The up-buffer is in the mode in which a write is
skipped for which there is not enough space; the space at each write depends on how far
the host has read, and is given.

The loop for `%s` reads on to the next zero byte. It is followed for a number of rounds.

* `printString_congr`: the loop depends on the bytes up to the first zero only;
* `printString_reads_end`: it reads behind the bytes that are given, if none is zero;
* `rttPrintf_string_text`: with enough space `%s` prints the bytes up to the first zero.
-/

namespace MqttDevice.Rtt

open MqttDevice.Ascii MqttDevice.Memory

/-! ## `SEGGER_RTT_Write` -/

/-- The text that has been stored for the host, and how many writes there were. -/
structure Log where
  text : List Byte := []
  writes : Nat := 0

def printfBufferSize : Nat := 64

section Output

variable (space : Nat → Nat)

/-- `SEGGER_RTT_Write` in the mode `SEGGER_RTT_MODE_NO_BLOCK_SKIP`: how many bytes were
stored, and the log. -/
def rttWrite (data : List Byte) (l : Log) : Nat × Log :=
  if space l.writes < data.length then (0, { l with writes := l.writes + 1 })
  else (data.length, ⟨l.text ++ data, l.writes + 1⟩)

/-- `SEGGER_RTT_PRINTF_DESC`: the first `Cnt` bytes of the buffer and `ReturnValue`, with
the log that the buffer is written to. -/
structure PrintfDesc where
  buffer : List Byte := []
  returnValue : Int := 0
  log : Log

def storeChar (c : Byte) (p : PrintfDesc) : PrintfDesc :=
  let p :=
    if p.buffer.length + 1 ≤ printfBufferSize then
      { p with buffer := p.buffer ++ [c], returnValue := p.returnValue + 1 }
    else p
  if p.buffer.length = printfBufferSize then
    let (n, log) := rttWrite space p.buffer p.log
    if n ≠ p.buffer.length then { p with returnValue := -1, log := log }
    else { p with buffer := [], log := log }
  else p

/-- Characters in a loop that ends when one fails. -/
def storeChars : List Byte → PrintfDesc → PrintfDesc
  | [], p => p
  | c :: cs, p =>
    let p := storeChar space c p
    if p.returnValue < 0 then p else storeChars cs p

/-! ## Numbers -/

structure FormatFlags where
  leftJustify : Bool := false
  padZero : Bool := false
  printSign : Bool := false
  alternate : Bool := false

def v2c (d : Nat) : Byte := (str "0123456789ABCDEF").getD d 0

/-- `Width`: the number of digits, of which a word has 32 at most. -/
def width (base : Nat) : Nat → Nat → Nat
  | 0, _ => 1
  | k + 1, number => if base ≤ number then width base k (number / base) + 1 else 1

/-- `Digit`: the place of the first digit. -/
def firstPlace (v base : Nat) : Nat → Nat → Nat → Nat
  | 0, _, place => place
  | k + 1, numDigits, place =>
    if 1 < numDigits then firstPlace v base k (numDigits - 1) (place * base)
    else if v / place < base then place
    else firstPlace v base k numDigits (place * base)

def digitsFrom (base : Nat) : Nat → Nat → Nat → List Byte
  | 0, _, _ => []
  | k + 1, v, place =>
    let div := v / place
    v2c div :: if place / base = 0 then [] else digitsFrom base k (v - div * place) (place / base)

def printUnsigned (v base numDigits fieldWidth : Nat) (flags : FormatFlags) (p : PrintfDesc) :
    PrintfDesc :=
  let pad := fieldWidth - max (width base 32 v) numDigits
  let c := if flags.padZero ∧ numDigits = 0 then ch '0' else ch ' '
  let p := if flags.leftJustify then p else storeChars space (List.replicate pad c) p
  if p.returnValue < 0 then p
  else
    let k := numDigits + 32
    let p := storeChars space (digitsFrom base k v (firstPlace v base k numDigits 1)) p
    if flags.leftJustify then storeChars space (List.replicate pad (ch ' ')) p else p

def printInt (v : Int) (base numDigits fieldWidth : Nat) (flags : FormatFlags) (p : PrintfDesc) :
    PrintfDesc :=
  let w := max (width base 32 v.natAbs) numDigits
  let fieldWidth := if v < 0 ∨ flags.printSign then fieldWidth - 1 else fieldWidth
  let spaces := (flags.padZero = false ∨ numDigits ≠ 0) ∧ flags.leftJustify = false
  let p := if spaces then storeChars space (List.replicate (fieldWidth - w) (ch ' ')) p else p
  let fieldWidth := if spaces then min fieldWidth w else fieldWidth
  if p.returnValue < 0 then p
  else
    let p :=
      if v < 0 then storeChar space (ch '-') p
      else if flags.printSign then storeChar space (ch '+') p
      else p
    if p.returnValue < 0 then p
    else
      let zeros := flags.padZero = true ∧ flags.leftJustify = false ∧ numDigits = 0
      let p := if zeros then storeChars space (List.replicate (fieldWidth - w) (ch '0')) p else p
      let fieldWidth := if zeros then min fieldWidth w else fieldWidth
      if p.returnValue < 0 then p
      else printUnsigned space v.natAbs base numDigits fieldWidth flags p

/-! ## Strings -/

/-- What has been printed, the offsets at which strings were read, and whether the rounds
for a string did not suffice. -/
structure Printing where
  desc : PrintfDesc
  reads : List Nat := []
  running : Bool := false

/-- The loop for `%s`, from offset `i` of the string on. -/
def printString (m : Mem) (s : Nat) : Nat → Nat → PrintfDesc → Printing
  | 0, _, p => { desc := p, running := true }
  | n + 1, i, p =>
    let c := m (s + i)
    if c = 0 then { desc := p, reads := [i] }
    else
      let p := storeChar space c p
      if p.returnValue < 0 then { desc := p, reads := [i] }
      else
        let r := printString m s n (i + 1) p
        { r with reads := i :: r.reads }

end Output

/-! ## Formats -/

/-- An argument: a word, or a pointer into a memory. -/
inductive Arg where
  | word (v : BitVec 32)
  | ptr (m : Mem) (start : Nat)

/-- What stands between the `%` and the next character of the format. -/
structure Conversion where
  flags : FormatFlags
  fieldWidth : Nat
  numDigits : Nat
  specifier : Byte

def flagChars : List Byte := [ch '-', ch '0', ch '+', ch '#']

def leadingNumber (f : List Byte) : Nat := digitsValue (f.takeWhile isDigit)

/-- A conversion, from behind the `%`, and the rest of the format. -/
def readConversion (f : List Byte) : Conversion × List Byte :=
  let marks := f.takeWhile flagChars.contains
  let flags : FormatFlags :=
    ⟨marks.contains (ch '-'), marks.contains (ch '0'), marks.contains (ch '+'),
      marks.contains (ch '#')⟩
  let f := f.dropWhile flagChars.contains
  let fieldWidth := leadingNumber f
  let f := f.dropWhile isDigit
  let (numDigits, f) :=
    if f.headD 0 = ch '.' then (leadingNumber f.tail, f.tail.dropWhile isDigit) else (0, f)
  let f := f.dropWhile fun c => c = ch 'l' ∨ c = ch 'h'
  (⟨flags, fieldWidth, numDigits, f.headD 0⟩, f.tail)

/-- `va_arg` for an `int`. The formats of the program agree with their arguments. -/
def wordArg : List Arg → BitVec 32
  | .word v :: _ => v
  | _ => 0

section Formats

variable (space : Nat → Nat) (rounds : Nat)

/-- The `switch (c)`: what is printed and the arguments that are left. -/
def convert (k : Conversion) (args : List Arg) (r : Printing) : Printing × List Arg :=
  let v := wordArg args
  let put (p : PrintfDesc) : Printing := { r with desc := p }
  if k.specifier = ch 'c' then (put (storeChar space (v.setWidth 8) r.desc), args.tail)
  else if k.specifier = ch 'd' then
    (put (printInt space v.toInt 10 k.numDigits k.fieldWidth k.flags r.desc), args.tail)
  else if k.specifier = ch 'u' then
    (put (printUnsigned space v.toNat 10 k.numDigits k.fieldWidth k.flags r.desc), args.tail)
  else if k.specifier = ch 'x' ∨ k.specifier = ch 'X' then
    (put (printUnsigned space v.toNat 16 k.numDigits k.fieldWidth k.flags r.desc), args.tail)
  else if k.specifier = ch 's' then
    match args with
    | .ptr m s :: args =>
      let t := printString space m s rounds 0 r.desc
      ({ t with reads := r.reads ++ t.reads }, args)
    | _ => (r, args.tail)
  else if k.specifier = ch 'p' then
    (put (printUnsigned space v.toNat 16 8 8 {} r.desc), args.tail)
  else if k.specifier = ch '%' then (put (storeChar space (ch '%') r.desc), args)
  else (r, args)

/-- The loop of `SEGGER_RTT_vprintf`. Each round takes a character of the format. -/
def vprintfLoop : Nat → List Byte → List Arg → Printing → Printing
  | 0, _, _, r => r
  | _ + 1, [], _, r => r
  | n + 1, c :: f, args, r =>
    let (r, args, f) :=
      if c = ch '%' then
        let (k, f) := readConversion f
        let (r, args) := convert space rounds k args r
        (r, args, f)
      else ({ r with desc := storeChar space c r.desc }, args, f)
    if r.running ∨ r.desc.returnValue < 0 then r else vprintfLoop n f args r

/-- What a call leaves: the log, the offsets at which strings were read, and whether the
rounds for a string did not suffice. -/
structure Printed where
  log : Log
  reads : List Nat
  running : Bool

/-- The end of `SEGGER_RTT_vprintf`: what is in the buffer is written. -/
def flush (r : Printing) : Printed :=
  let p := r.desc
  let log :=
    if 0 < p.returnValue ∧ p.buffer ≠ [] ∧ r.running = false then (rttWrite space p.buffer p.log).2
    else p.log
  ⟨log, r.reads, r.running⟩

def rttPrintf (format : List Byte) (args : List Arg) (log : Log) : Printed :=
  flush space (vprintfLoop space rounds format.length format args { desc := { log := log } })

end Formats

example : (rttPrintf (fun _ => 64) 9 (str "%s, %04d|%-3x|") [.ptr (fun i => (str "len").getD i 0) 0,
    .word (-7), .word 10] {}).log.text = str "len, -007|A  |" := by decide +kernel

/-! ## What `%s` reads -/

section Strings

variable {space : Nat → Nat} {m m' : Mem} {s s' z : Nat}

/-- **The bytes up to the first zero decide** what the loop prints and reads. -/
theorem printString_congr (hzero : m (s + z) = 0) (hsame : ∀ i ≤ z, m (s + i) = m' (s' + i))
    (n : Nat) {i : Nat} (hi : i ≤ z) (p : PrintfDesc) :
    printString space m s n i p = printString space m' s' n i p := by
  induction n generalizing i p with
  | zero => rfl
  | succ n ih =>
    simp only [printString, hsame i hi]
    split
    · rfl
    · rename_i hne
      have hlt : i < z := by
        refine Nat.lt_of_le_of_ne hi fun heq => hne ?_
        rw [← hsame i hi, heq, hzero]
      rw [ih hlt]

theorem printString_reads_le (hzero : m (s + z) = 0) (n : Nat) {i : Nat} (hi : i ≤ z)
    (p : PrintfDesc) : ∀ j ∈ (printString space m s n i p).reads, j ≤ z := by
  induction n generalizing i p with
  | zero => exact List.forall_mem_nil _
  | succ n ih =>
    simp only [printString]
    split
    · exact fun j hj => List.mem_singleton.mp hj ▸ hi
    · rename_i hne
      have hlt : i < z := Nat.lt_of_le_of_ne hi fun heq => hne (heq ▸ hzero)
      split
      · exact fun j hj => List.mem_singleton.mp hj ▸ hi
      · intro j hj
        rcases List.mem_cons.mp hj with rfl | hj
        · exact hi
        · exact ih hlt _ j hj

theorem printString_ends (hzero : m (s + z) = 0) {n i : Nat} (hi : i ≤ z) (hn : z < i + n)
    (p : PrintfDesc) : (printString space m s n i p).running = false := by
  induction n generalizing i p with
  | zero => omega
  | succ n ih =>
    simp only [printString]
    split
    · rfl
    · rename_i hne
      have hlt : i < z := Nat.lt_of_le_of_ne hi fun heq => hne (heq ▸ hzero)
      split
      · rfl
      · exact ih hlt (by omega) _

end Strings

/-! ## With enough space -/

/-- Every write finds space for the whole buffer. -/
def Roomy (space : Nat → Nat) : Prop := ∀ k, printfBufferSize ≤ space k

/-- No write has failed, and what has not been written is still in the buffer. -/
structure PrintfDesc.Ready (p : PrintfDesc) : Prop where
  fits : p.buffer.length < printfBufferSize
  counted : (p.buffer.length : Int) ≤ p.returnValue

def PrintfDesc.shown (p : PrintfDesc) : List Byte := p.log.text ++ p.buffer

section Space

variable {space : Nat → Nat} (hspace : Roomy space)
include hspace

theorem storeChar_spec (c : Byte) {p : PrintfDesc} (hp : p.Ready) :
    (storeChar space c p).Ready ∧ (storeChar space c p).shown = p.shown ++ [c] := by
  have hfits := hp.fits
  have hcounted := hp.counted
  have hlen : (p.buffer ++ [c]).length = p.buffer.length + 1 := by simp
  have hwrite : ¬ space p.log.writes < (p.buffer ++ [c]).length := by
    have := hspace p.log.writes
    omega
  unfold storeChar
  rw [if_pos (by omega : p.buffer.length + 1 ≤ printfBufferSize)]
  dsimp only
  by_cases hfull : (p.buffer ++ [c]).length = printfBufferSize
  · rw [if_pos hfull]
    simp only [rttWrite, if_neg hwrite, ne_eq, not_true_eq_false, if_false]
    refine ⟨⟨(by decide : 0 < printfBufferSize), ?_⟩, ?_⟩
    · simp only [List.length_nil]
      omega
    · simp [PrintfDesc.shown]
  · rw [if_neg hfull]
    refine ⟨⟨?_, ?_⟩, ?_⟩
    · simp only [hlen] at hfull ⊢
      omega
    · simp only [hlen]
      omega
    · simp [PrintfDesc.shown]

/-- **Behind bytes that are not zero** the next one is read. -/
theorem printString_reads_end {m : Mem} {s n : Nat} {i : Nat} (hnz : ∀ j < n, m (s + (i + j)) ≠ 0)
    (k : Nat) {p : PrintfDesc} (hp : p.Ready) :
    i + n ∈ (printString space m s (n + 1 + k) i p).reads := by
  induction n generalizing i p with
  | zero =>
    rw [Nat.zero_add, Nat.add_comm 1 k]
    simp only [printString]
    split
    · exact List.mem_singleton_self _
    · split
      · exact List.mem_singleton_self _
      · exact List.mem_cons_self
  | succ n ih =>
    have hne : m (s + i) ≠ 0 := hnz 0 (Nat.succ_pos n)
    obtain ⟨hready, -⟩ := storeChar_spec hspace (m (s + i)) hp
    have hrv : ¬ (storeChar space (m (s + i)) p).returnValue < 0 := by
      have := hready.counted
      omega
    rw [show n + 1 + 1 + k = n + 1 + k + 1 by omega]
    simp only [printString, hne, hrv, if_false]
    refine List.mem_cons_of_mem i ?_
    rw [show i + (n + 1) = i + 1 + n by omega]
    refine ih (fun j hj => ?_) hready
    rw [show i + 1 + j = i + (j + 1) by omega]
    exact hnz (j + 1) (by omega)

theorem printString_shown {m : Mem} {s z : Nat} (hzero : m (s + z) = 0) {n i : Nat} (hi : i ≤ z)
    (hnz : ∀ j, i ≤ j → j < z → m (s + j) ≠ 0) (hn : z < i + n) {p : PrintfDesc} (hp : p.Ready) :
    (printString space m s n i p).desc.Ready ∧
      (printString space m s n i p).desc.shown = p.shown ++ bytes m (s + i) (z - i) := by
  induction n generalizing i p with
  | zero => omega
  | succ n ih =>
    by_cases heq : i = z
    · subst heq
      simp only [printString, hzero, if_true, Nat.sub_self]
      exact ⟨hp, by simp [bytes]⟩
    · have hne : m (s + i) ≠ 0 := hnz i le_rfl (by omega)
      obtain ⟨hready, hshown⟩ := storeChar_spec hspace (m (s + i)) hp
      have hrv : ¬ (storeChar space (m (s + i)) p).returnValue < 0 := by
        have := hready.counted
        omega
      simp only [printString, hne, hrv, if_false]
      obtain ⟨hready', hshown'⟩ :=
        ih (i := i + 1) (by omega) (fun j hj => hnz j (by omega)) (by omega) hready
      refine ⟨hready', ?_⟩
      rw [hshown', hshown, show z - i = 1 + (z - (i + 1)) by omega, bytes_add, List.append_assoc]
      rfl

end Space

/-! ## Calls -/

/-- Every string ends within the rounds. -/
def Terminated (rounds : Nat) (args : List Arg) : Prop :=
  ∀ m s, Arg.ptr m s ∈ args → ∃ z < rounds, m (s + z) = 0

section Calls

variable (space : Nat → Nat) (rounds : Nat)

theorem convert_ends {args : List Arg} (h : Terminated rounds args) (k : Conversion) {r : Printing}
    (hr : r.running = false) :
    (convert space rounds k args r).1.running = false ∧
      ∀ a ∈ (convert space rounds k args r).2, a ∈ args := by
  have htail : ∀ a ∈ args.tail, a ∈ args := fun a => List.mem_of_mem_tail
  unfold convert
  dsimp only
  split_ifs
  · exact ⟨hr, htail⟩
  · exact ⟨hr, htail⟩
  · exact ⟨hr, htail⟩
  · exact ⟨hr, htail⟩
  · split
    · rename_i m s args
      obtain ⟨z, hz, hzero⟩ := h m s List.mem_cons_self
      exact ⟨printString_ends hzero (Nat.zero_le z) (by omega) _, htail⟩
    · exact ⟨hr, htail⟩
  · exact ⟨hr, htail⟩
  · exact ⟨hr, fun _ => id⟩
  · exact ⟨hr, fun _ => id⟩

theorem vprintfLoop_ends (n : Nat) (f : List Byte) {args : List Arg} (h : Terminated rounds args)
    {r : Printing} (hr : r.running = false) :
    (vprintfLoop space rounds n f args r).running = false := by
  induction n generalizing f args r with
  | zero => exact hr
  | succ n ih =>
    match f with
    | [] => exact hr
    | c :: f =>
      unfold vprintfLoop
      by_cases hc : c = ch '%'
      · obtain ⟨hrun, hargs⟩ := convert_ends space rounds h (readConversion f).1 hr
        simp only [hc, if_true]
        split
        · exact hrun
        · exact ih _ (fun m s hm => h m s (hargs _ hm)) hrun
      · simp only [hc, if_false]
        split
        · exact hr
        · exact ih f h hr

/-- **A call returns** when its strings end. -/
theorem rttPrintf_ends (format : List Byte) {args : List Arg} (h : Terminated rounds args)
    (log : Log) : (rttPrintf space rounds format args log).running = false :=
  vprintfLoop_ends space rounds format.length format h rfl

theorem rttPrintf_string (m : Mem) (s : Nat) (log : Log) :
    rttPrintf space rounds (str "%s") [.ptr m s] log =
      flush space (printString space m s rounds 0 { log := log }) := by
  have hread : readConversion [ch 's'] = (⟨⟨false, false, false, false⟩, 0, 0, ch 's'⟩, []) := rfl
  have hstring : convert space rounds ⟨⟨false, false, false, false⟩, 0, 0, ch 's'⟩ [.ptr m s]
      { desc := { log := log } } = (printString space m s rounds 0 { log := log }, []) := by
    simp only [convert, show ch 's' ≠ ch 'c' by decide, show ch 's' ≠ ch 'd' by decide,
      show ch 's' ≠ ch 'u' by decide, show ch 's' ≠ ch 'x' by decide,
      show ch 's' ≠ ch 'X' by decide, or_self, if_false, if_true, List.nil_append]
  rw [rttPrintf]
  congr 1
  change vprintfLoop space rounds 2 [ch '%', ch 's'] _ _ = _
  simp only [vprintfLoop, if_true, hread, hstring, ite_self]

end Calls

/-- With enough space the text that was printed is in the log. -/
theorem flush_text {space : Nat → Nat} (hspace : Roomy space) {r : Printing} (hr : r.desc.Ready)
    (hend : r.running = false) : (flush space r).log.text = r.desc.shown := by
  have hfits := hr.fits
  have hcounted := hr.counted
  unfold flush
  simp only [hend, and_true]
  by_cases hbuf : r.desc.buffer = []
  · simp [hbuf, PrintfDesc.shown]
  · have hpos : 0 < r.desc.buffer.length := List.length_pos_iff.mpr hbuf
    have hrv : 0 < r.desc.returnValue := by omega
    have hwrite : ¬ space r.desc.log.writes < r.desc.buffer.length := by
      have := hspace r.desc.log.writes
      omega
    simp [hbuf, hrv, rttWrite, hwrite, PrintfDesc.shown]

/-- **A string is printed up to its first zero byte**, if there is enough space. -/
theorem rttPrintf_string_text {space : Nat → Nat} (hspace : Roomy space) {m : Mem} {s z rounds : Nat}
    (hzero : m (s + z) = 0) (hnz : ∀ j < z, m (s + j) ≠ 0) (hrounds : z < rounds) (log : Log) :
    (rttPrintf space rounds (str "%s") [.ptr m s] log).log.text = log.text ++ bytes m s z := by
  have hstart : PrintfDesc.Ready { log := log } := ⟨(by decide : 0 < printfBufferSize), le_rfl⟩
  obtain ⟨hready, hshown⟩ := printString_shown hspace hzero (Nat.zero_le z)
    (fun j _ hj => hnz j hj) (by omega : z < 0 + rounds) hstart
  rw [rttPrintf_string,
    flush_text hspace hready (printString_ends hzero (Nat.zero_le z) (by omega) _), hshown]
  simp [PrintfDesc.shown]

end MqttDevice.Rtt
