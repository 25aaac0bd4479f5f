import MqttDevice.Lib.Ascii
import MqttDevice.Lib.Runs

/-!
# Lines from the serial port (`USART1_IRQHandler` in `usart.c`)

The handler collects bytes in `USART_RX_BUF` until 0x0D 0x0A; the upper two bits
of `USART_RX_STA` say how far it is, the others count the bytes. The consumer
sets `USART_RX_STA` to 0 when it has taken a line.

* `complete_line_iff`: the lines reported complete are the lines received if and
  only if no line reported complete had more than 63 bytes or a 0x0D in it;
* `lines_received`: a line that fits and has no 0x0D is received whole and held
  until the reset, and the consumer reads the lines that were sent;
* `rx_state_bounded`: along every stream with resets the stores to `USART_RX_BUF`
  and the bits of `USART_RX_STA` stay in their bounds.
-/

namespace MqttDevice.Usart1

open MqttDevice.Ascii MqttDevice.Runs

def usartRecLen : Nat := 64

def cr : Byte := 0x0d
def lf : Byte := 0x0a

/-- `USART_RX_STA`, and the memory from `USART_RX_BUF` on. -/
structure Usart where
  sta : BitVec 16
  buf : Nat → Byte

/-- `USART1_IRQHandler` with a byte in the data register. -/
def usart1IrqHandler (res : Byte) (u : Usart) : Usart :=
  if u.sta &&& 0x8000 = 0 then
    if u.sta &&& 0x4000 ≠ 0 then
      if res ≠ lf then { u with sta := 0 } else { u with sta := u.sta ||| 0x8000 }
    else if res = cr then { u with sta := u.sta ||| 0x4000 }
    else
      let u := { sta := u.sta + 1, buf := Function.update u.buf (u.sta &&& 0x3fff).toNat res }
      if u.sta > BitVec.ofNat 16 (usartRecLen - 1) then { u with sta := 0 } else u
  else u

/-! ## Runs -/

inductive Event where
  | byte (res : Byte)
  /-- the consumer sets `USART_RX_STA` to 0 -/
  | reset

/-- The receiver, with the bytes received since the line began. -/
structure Receiver where
  usart : Usart
  line : List Byte

def next (s : Receiver) : Event → Receiver
  | .byte res => ⟨usart1IrqHandler res s.usart, s.line ++ [res]⟩
  | .reset => ⟨{ s.usart with sta := 0 }, []⟩

def step (s : Receiver) (e : Event) : Option Receiver := some (next s e)

/-- At the start of the stream. -/
def start (buf : Nat → Byte) : Receiver := ⟨⟨0, buf⟩, []⟩

def Usart.complete (u : Usart) : Bool := u.sta &&& 0x8000 != 0

/-- The bytes that the consumer finds. -/
def Usart.bytes (u : Usart) : List Byte := (List.range (u.sta &&& 0x3fff).toNat).map u.buf

/-- A line that becomes complete is the line received, without its 0x0D 0x0A. -/
def Faithful (s : Receiver) (_ : Event) (t : Receiver) : Prop :=
  s.usart.complete = false → t.usart.complete = true → t.usart.bytes ++ [cr, lf] = t.line

/-- A line that fits in the buffer and has its only 0x0D at the end. -/
def Intact (line : List Byte) : Prop :=
  ∃ data, line = data ++ [cr, lf] ∧ data.length < usartRecLen ∧ cr ∉ data

/-- The handler waits for the 0x0A. -/
def Usart.afterCr (u : Usart) : Bool := u.sta &&& 0xc000 == 0x4000

/-- When the 0x0A arrives that the handler waits for, the line received is intact. -/
def CompletesIntact (s : Receiver) : Event → Prop
  | .byte res => s.usart.afterCr = true → res = lf → Intact (s.line ++ [res])
  | .reset => True

/-! ## What the handler holds -/

/-- The bits of `USART_RX_STA` for `n` bytes. -/
theorem sta_receiving : ∀ n < 64, BitVec.ofNat 16 n &&& 0x8000 = 0 ∧
    BitVec.ofNat 16 n &&& 0x4000 = 0 ∧ BitVec.ofNat 16 n &&& 0xc000 = 0 ∧
      (BitVec.ofNat 16 n &&& 0x3fff).toNat = n := by
  decide +kernel

theorem sta_succ : ∀ n < 64, BitVec.ofNat 16 n + 1 = BitVec.ofNat 16 (n + 1) ∧
    (BitVec.ofNat 16 n + 1 > BitVec.ofNat 16 (usartRecLen - 1) ↔ n = 63) := by
  decide +kernel

theorem sta_afterCr : ∀ n < 64, (BitVec.ofNat 16 n ||| 0x4000) &&& 0x8000 = 0 ∧
    (BitVec.ofNat 16 n ||| 0x4000) &&& 0x4000 ≠ 0 ∧
      (BitVec.ofNat 16 n ||| 0x4000) &&& 0xc000 = 0x4000 := by
  decide +kernel

theorem sta_complete : ∀ n < 64, (BitVec.ofNat 16 n ||| 0x4000 ||| 0x8000) &&& 0x8000 ≠ 0 ∧
    ((BitVec.ofNat 16 n ||| 0x4000 ||| 0x8000) &&& 0x3fff).toNat = n := by
  decide +kernel

/-- The buffer holds `data`, the end of what was received; of what was `lost`
before it, if anything, there were too many bytes or a 0x0D. -/
structure Holds (u : Usart) (lost data : List Byte) : Prop where
  fits : data.length < usartRecLen
  noCr : cr ∉ data
  buf : (List.range data.length).map u.buf = data
  lost : lost = [] ∨ usartRecLen ≤ lost.length ∨ cr ∈ lost

/-- The states of the receiver. -/
inductive Inv (s : Receiver) : Prop where
  | receiving (lost data) (h : Holds s.usart lost data)
      (hsta : s.usart.sta = BitVec.ofNat 16 data.length) (hline : s.line = lost ++ data)
  | afterCr (lost data) (h : Holds s.usart lost data)
      (hsta : s.usart.sta = BitVec.ofNat 16 data.length ||| 0x4000)
      (hline : s.line = lost ++ data ++ [cr])
  | complete (h : s.usart.sta &&& 0x8000 ≠ 0)

theorem holds_empty (u : Usart) {lost : List Byte}
    (h : lost = [] ∨ usartRecLen ≤ lost.length ∨ cr ∈ lost) : Holds u lost [] :=
  ⟨by decide, by simp, rfl, h⟩

/-- The next byte goes behind the data. -/
theorem Holds.push {u : Usart} {lost data : List Byte} (h : Holds u lost data) {res : Byte}
    (hres : res ≠ cr) (hfits : data.length + 1 < usartRecLen) (sta : BitVec 16) :
    Holds ⟨sta, Function.update u.buf data.length res⟩ lost (data ++ [res]) := by
  refine ⟨by simpa using hfits, ?_, ?_, h.lost⟩
  · intro hmem
    rcases List.mem_append.mp hmem with hmem | hmem
    · exact h.noCr hmem
    · exact hres (List.mem_singleton.mp hmem).symm
  · rw [List.length_append, List.length_singleton, List.range_succ, List.map_append]
    congr 1
    · conv_rhs => rw [← h.buf]
      refine List.map_congr_left fun i hi => Function.update_of_ne ?_ ..
      exact Nat.ne_of_lt (List.mem_range.mp hi)
    · simp

theorem handler_complete {u : Usart} (h : u.sta &&& 0x8000 ≠ 0) (res : Byte) :
    usart1IrqHandler res u = u := if_neg h

theorem handler_afterCr {u : Usart} {n : Nat} (hn : n < 64)
    (h : u.sta = BitVec.ofNat 16 n ||| 0x4000) (res : Byte) :
    usart1IrqHandler res u =
      if res ≠ lf then { u with sta := 0 } else { u with sta := u.sta ||| 0x8000 } := by
  obtain ⟨h8, h4, -⟩ := sta_afterCr n hn
  rw [usart1IrqHandler, h, if_pos h8, if_pos h4]

theorem handler_receiving {u : Usart} {n : Nat} (hn : n < 64) (h : u.sta = BitVec.ofNat 16 n)
    (res : Byte) :
    usart1IrqHandler res u =
      if res = cr then { u with sta := BitVec.ofNat 16 n ||| 0x4000 }
      else ⟨if n = 63 then 0 else BitVec.ofNat 16 (n + 1), Function.update u.buf n res⟩ := by
  obtain ⟨h8, h4, -, h3⟩ := sta_receiving n hn
  obtain ⟨hsucc, hgt⟩ := sta_succ n hn
  rw [usart1IrqHandler, h, if_pos h8, if_neg (not_not_intro h4), h3]
  refine if_congr Iff.rfl rfl ?_
  by_cases hend : n = 63
  · simp only [if_pos (hgt.mpr hend), if_pos hend]
  · rw [if_neg (mt hgt.mp hend), if_neg hend, hsucc]

theorem inv_byte {s : Receiver} (h : Inv s) (res : Byte) : Inv (next s (.byte res)) := by
  cases h with
  | complete h =>
    refine .complete ?_
    rw [next, handler_complete h]
    exact h
  | afterCr lost data h hsta hline =>
    rw [next, handler_afterCr h.fits hsta]
    split
    · -- the line begins anew, with a 0x0D behind it
      refine .receiving (s.line ++ [res]) [] (holds_empty _ (.inr (.inr ?_))) rfl (by simp)
      simp [hline]
    · refine .complete ?_
      rw [hsta]
      exact (sta_complete data.length h.fits).1
  | receiving lost data h hsta hline =>
    rw [next, handler_receiving h.fits hsta]
    split
    · rename_i hres
      exact .afterCr lost data ⟨h.fits, h.noCr, h.buf, h.lost⟩ rfl (by rw [hline, hres])
    · rename_i hres
      by_cases hend : data.length = 63
      · -- the buffer is full, and the line begins anew
        refine .receiving (s.line ++ [res]) [] (holds_empty _ (.inr (.inl ?_))) ?_ (by simp)
        · rw [hline, List.length_append, List.length_append, hend]
          exact Nat.le_add_left ..
        · simp [hend]
      · have hfits : data.length + 1 < usartRecLen := by
          have := h.fits
          simp only [usartRecLen] at this ⊢
          omega
        refine .receiving lost (data ++ [res]) (h.push hres hfits _) ?_ (by simp [hline])
        simp [hend]

theorem inv_next {s : Receiver} (h : Inv s) (e : Event) : Inv (next s e) := by
  cases e with
  | byte res => exact inv_byte h res
  | reset => exact .receiving [] [] (holds_empty _ (.inl rfl)) rfl rfl

/-- Nothing becomes complete that is complete already. -/
theorem faithful_complete {s : Receiver} (h : s.usart.sta &&& 0x8000 ≠ 0) (res : Byte) :
    Faithful s (.byte res) (next s (.byte res)) ↔ CompletesIntact s (.byte res) := by
  have hc : s.usart.complete = true := bne_iff_ne.mpr h
  have hcr : s.usart.afterCr ≠ true := by
    intro hcr
    have h4 : s.usart.sta &&& 0xc000 = 0x4000 := beq_iff_eq.mp hcr
    refine h ?_
    calc s.usart.sta &&& 0x8000 = (s.usart.sta &&& 0xc000) &&& 0x8000 := by
          rw [BitVec.and_assoc]
          rfl
      _ = 0 := by rw [h4]; rfl
  exact iff_of_true (fun hno => by simp [hc] at hno) (fun hyes => absurd hyes hcr)

/-- Without a 0x0D bit 15 stays clear. -/
theorem faithful_receiving {s : Receiver} {n : Nat} (hn : n < 64)
    (hsta : s.usart.sta = BitVec.ofNat 16 n) (res : Byte) :
    Faithful s (.byte res) (next s (.byte res)) ↔ CompletesIntact s (.byte res) := by
  refine iff_of_true (fun _ hyes => ?_) (fun hyes => ?_)
  · have hzero : (next s (.byte res)).usart.sta &&& 0x8000 = 0 := by
      rw [next, handler_receiving hn hsta]
      split
      · exact (sta_afterCr n hn).1
      · split
        · exact (sta_receiving 0 (by decide)).1
        · rename_i hend
          exact (sta_receiving (n + 1) (by omega)).1
    exact absurd hzero (bne_iff_ne.mp hyes)
  · rw [Usart.afterCr, hsta, (sta_receiving n hn).2.2.1] at hyes
    cases hyes

/-- The data are the line, if it is intact and only then. -/
theorem data_eq_line_iff {u : Usart} {lost data : List Byte} (h : Holds u lost data) :
    data ++ [cr, lf] = lost ++ data ++ [cr, lf] ↔ Intact (lost ++ data ++ [cr, lf]) := by
  constructor
  · intro heq
    have hlost : lost = [] := by
      have := congrArg List.length heq
      simp only [List.length_append] at this
      exact List.length_eq_zero_iff.mp (by omega)
    subst hlost
    exact ⟨data, rfl, h.fits, h.noCr⟩
  · rintro ⟨data', heq, hlt, hnocr⟩
    have hdata : lost ++ data = data' := List.append_cancel_right heq
    rcases h.lost with rfl | hlong | hin
    · rfl
    · rw [← hdata, List.length_append] at hlt
      omega
    · exact absurd (hdata ▸ List.mem_append_left data hin) hnocr

theorem faithful_afterCr {s : Receiver} {lost data : List Byte} (h : Holds s.usart lost data)
    (hsta : s.usart.sta = BitVec.ofNat 16 data.length ||| 0x4000)
    (hline : s.line = lost ++ data ++ [cr]) (res : Byte) :
    Faithful s (.byte res) (next s (.byte res)) ↔ CompletesIntact s (.byte res) := by
  obtain ⟨h48, -, hc⟩ := sta_afterCr data.length h.fits
  obtain ⟨h8, h3⟩ := sta_complete data.length h.fits
  have hno : s.usart.complete = false := by
    rw [Usart.complete, hsta, h48]
    rfl
  have hcr : s.usart.afterCr = true := by
    rw [Usart.afterCr, hsta, hc]
    rfl
  have hstep := handler_afterCr h.fits hsta res
  by_cases hres : res = lf
  · subst hres
    rw [if_neg (not_not_intro rfl)] at hstep
    have hyes : (next s (.byte lf)).usart.complete = true := by
      rw [next, hstep, hsta]
      exact bne_iff_ne.mpr h8
    have hbytes : (next s (.byte lf)).usart.bytes = data := by
      simp only [next, hstep, Usart.bytes, hsta, h3, h.buf]
    have hfull : s.line ++ [lf] = lost ++ data ++ [cr, lf] := by simp [hline]
    have hfull' : (next s (.byte lf)).line = lost ++ data ++ [cr, lf] := hfull
    simp only [Faithful, CompletesIntact, hno, hyes, hcr, hbytes, hfull, hfull', true_implies]
    exact data_eq_line_iff h
  · rw [if_pos hres] at hstep
    refine iff_of_true (fun _ hyes => ?_) (fun _ hlf => absurd hlf hres)
    simp [next, hstep, Usart.complete] at hyes

/-- **A line becomes complete as it was received** exactly if it is intact. -/
theorem faithful_iff {s : Receiver} (h : Inv s) (e : Event) :
    Faithful s e (next s e) ↔ CompletesIntact s e := by
  cases e with
  | reset => exact iff_of_true (fun _ hc => absurd hc (by simp [next, Usart.complete])) trivial
  | byte res =>
    cases h with
    | complete h => exact faithful_complete h res
    | receiving lost data h hsta hline => exact faithful_receiving h.fits hsta res
    | afterCr lost data h hsta hline => exact faithful_afterCr h hsta hline res

/-- **Complete lines**, exactly. -/
theorem complete_line_iff (buf : Nat → Byte) (es : List Event) :
    Along step Faithful (start buf) es ↔
      Along step (fun s e _ => CompletesIntact s e) (start buf) es := by
  have hstart : Inv (start buf) := .receiving [] [] (holds_empty _ (.inl rfl)) rfl rfl
  refine along_iff (fun s e t hi ht _ => ?_) (fun s e t hi ht => ?_) es hstart
  · cases ht
    exact inv_next hi e
  · cases ht
    exact faithful_iff hi e

theorem run_bytes {s t : Receiver} {bs : List Byte} (h : run step s (bs.map .byte) = some t) :
    t.line = s.line ++ bs := by
  induction bs generalizing s with
  | nil =>
    cases h
    simp
  | cons b bs ih =>
    obtain ⟨u, hu, hrun⟩ := run_cons h
    cases hu
    rw [ih hrun]
    simp [next]

/-- A stream at whose end the handler reports a line that is not intact. -/
theorem not_faithful_of {buf : Nat → Byte} {bs : List Byte}
    (hcr : (run step (start buf) (bs.map .byte)).map (fun t => t.usart.afterCr) = some true)
    (hbs : ¬ Intact (bs ++ [lf])) :
    ¬ Along step Faithful (start buf) ((bs ++ [lf]).map .byte) := by
  intro h
  obtain ⟨t, hrun, ht⟩ := Option.map_eq_some_iff.mp hcr
  have hinv : Inv t := run_inv (fun s e u hi hu => by cases hu; exact inv_next hi e)
    (.receiving [] [] (holds_empty _ (.inl rfl)) rfl rfl) hrun
  rw [List.map_append, along_append] at h
  have hlast := (h.2 t hrun _ rfl).1
  have hline : t.line = bs := run_bytes hrun
  exact hbs (hline ▸ (faithful_iff hinv (.byte lf)).mp hlast ht rfl)

/-- 64 bytes are dropped, and what follows them is reported as a line; so is what
follows a 0x0D that is not before a 0x0A. -/
theorem damaged_lines :
    ¬ Along step Faithful (start fun _ => 0) ((List.replicate 65 0x61 ++ [cr] ++ [lf]).map .byte) ∧
      ¬ Along step Faithful (start fun _ => 0) ([0x61, cr, 0x62, 0x63, cr] ++ [lf] |>.map .byte) := by
  constructor
  · refine not_faithful_of (by decide +kernel) ?_
    rintro ⟨data, heq, hlt, -⟩
    have hlen := congrArg List.length heq
    simp only [List.length_append, List.length_replicate, List.length_cons, List.length_nil] at hlen
    simp only [usartRecLen] at hlt
    omega
  · refine not_faithful_of (by decide +kernel) ?_
    rintro ⟨data, heq, -, hno⟩
    have hdata : [0x61, cr, 0x62, 0x63] = data :=
      List.append_cancel_right (show [0x61, cr, 0x62, 0x63] ++ [cr, lf] = data ++ [cr, lf] from heq)
    exact hno (hdata ▸ by decide)

/-! ## Whole lines -/

/-- A line that the handler can hold. A 0x0A may be anywhere in it. -/
structure Line where
  data : List Byte
  fits : data.length ≤ usartRecLen - 1
  noCr : cr ∉ data

/-- What is sent for a line. -/
def Line.sent (l : Line) : List Byte := l.data ++ [cr, lf]

def feed (bs : List Byte) (u : Usart) : Usart := bs.foldl (fun u b => usart1IrqHandler b u) u

/-- The consumer takes a complete line whenever it resets `USART_RX_STA`. -/
def readOut (u : Usart) : List Event → List (List Byte)
  | [] => []
  | .byte res :: es => readOut (usart1IrqHandler res u) es
  | .reset :: es => (if u.complete then [u.bytes] else []) ++ readOut { u with sta := 0 } es

/-- A line, whatever comes behind it, and the reset. -/
def lineEvents (l : Line × List Byte) : List Event :=
  (l.1.sent ++ l.2).map .byte ++ [.reset]

theorem feed_append (as bs : List Byte) (u : Usart) :
    feed (as ++ bs) u = feed bs (feed as u) := List.foldl_append

theorem readOut_bytes (bs : List Byte) (u : Usart) (es : List Event) :
    readOut u (bs.map .byte ++ es) = readOut (feed bs u) es := by
  induction bs generalizing u with
  | nil => rfl
  | cons b bs ih => exact ih (usart1IrqHandler b u)

/-- Bytes of a line go behind those that are there, as long as they fit. -/
theorem feed_data {u : Usart} {data bs : List Byte} (h : Holds u [] data)
    (hsta : u.sta = BitVec.ofNat 16 data.length) (hfits : data.length + bs.length < usartRecLen)
    (hcr : cr ∉ bs) :
    Holds (feed bs u) [] (data ++ bs) ∧
      (feed bs u).sta = BitVec.ofNat 16 (data.length + bs.length) := by
  induction bs generalizing u data with
  | nil =>
    rw [List.append_nil]
    exact ⟨h, hsta⟩
  | cons b bs ih =>
    have hb : b ≠ cr := fun hb => hcr (hb ▸ List.mem_cons_self)
    have hbs : cr ∉ bs := fun hmem => hcr (List.mem_cons_of_mem b hmem)
    rw [List.length_cons] at hfits
    have hnot : data.length ≠ 63 := by
      simp only [usartRecLen] at hfits
      omega
    have hstep : usart1IrqHandler b u =
        ⟨BitVec.ofNat 16 (data.length + 1), Function.update u.buf data.length b⟩ := by
      rw [handler_receiving h.fits hsta, if_neg hb, if_neg hnot]
    have hpush := h.push hb (by omega) (BitVec.ofNat 16 (data.length + 1))
    rw [← hstep] at hpush
    have hlen : (data ++ [b]).length = data.length + 1 := by simp
    obtain ⟨hholds, hend⟩ := ih hpush (by rw [hstep, hlen]) (by omega) hbs
    rw [List.append_assoc, List.singleton_append] at hholds
    refine ⟨hholds, hend.trans ?_⟩
    rw [hlen, List.length_cons, Nat.add_assoc, Nat.add_comm 1]

theorem feed_complete {u : Usart} (h : u.sta &&& 0x8000 ≠ 0) (bs : List Byte) :
    feed bs u = u := by
  induction bs with
  | nil => rfl
  | cons b bs ih =>
    change feed bs (usart1IrqHandler b u) = u
    rwa [handler_complete h]

/-- The two flags are set beside the count. -/
theorem sta_line : ∀ n < 64,
    BitVec.ofNat 16 n ||| 0x4000 ||| 0x8000 = 0xc000 + BitVec.ofNat 16 n := by
  decide +kernel

/-- After a line the buffer begins with it, and both flags are set. -/
theorem feed_line (buf : Nat → Byte) (l : Line) :
    (feed l.sent ⟨0, buf⟩).sta = BitVec.ofNat 16 l.data.length ||| 0x4000 ||| 0x8000 ∧
      (List.range l.data.length).map (feed l.sent ⟨0, buf⟩).buf = l.data := by
  have hlt : l.data.length < usartRecLen := Nat.lt_of_le_pred (by decide) l.fits
  obtain ⟨hholds, hsta⟩ := @feed_data _ [] l.data (holds_empty ⟨0, buf⟩ (.inl rfl)) rfl
    (by simpa using hlt) l.noCr
  rw [List.nil_append] at hholds
  rw [List.length_nil, Nat.zero_add] at hsta
  rw [Line.sent, feed_append]
  -- the 0x0D and then the 0x0A
  have hcr : usart1IrqHandler cr (feed l.data ⟨0, buf⟩) =
      ⟨BitVec.ofNat 16 l.data.length ||| 0x4000, (feed l.data ⟨0, buf⟩).buf⟩ := by
    rw [handler_receiving hlt hsta, if_pos rfl]
  have hlf : feed [cr, lf] (feed l.data ⟨0, buf⟩) =
      ⟨BitVec.ofNat 16 l.data.length ||| 0x4000 ||| 0x8000, (feed l.data ⟨0, buf⟩).buf⟩ := by
    change usart1IrqHandler lf (usart1IrqHandler cr (feed l.data ⟨0, buf⟩)) = _
    rw [hcr, handler_afterCr hlt rfl, if_neg (not_not_intro rfl)]
  rw [hlf]
  exact ⟨rfl, hholds.buf⟩

theorem line_complete (buf : Nat → Byte) (l : Line) :
    (feed l.sent ⟨0, buf⟩).sta &&& 0x8000 ≠ 0 ∧ (feed l.sent ⟨0, buf⟩).bytes = l.data := by
  have hlt : l.data.length < usartRecLen := Nat.lt_of_le_pred (by decide) l.fits
  obtain ⟨hsta, hbuf⟩ := feed_line buf l
  obtain ⟨h8, h3⟩ := sta_complete l.data.length hlt
  rw [Usart.bytes, hsta, h3, hbuf]
  exact ⟨h8, rfl⟩

/-- The consumer reads the lines in order, whatever is sent while one is held. -/
theorem readOut_lines (buf : Nat → Byte) (ls : List (Line × List Byte)) :
    readOut ⟨0, buf⟩ (ls.flatMap lineEvents) = ls.map fun l => l.1.data := by
  induction ls generalizing buf with
  | nil => rfl
  | cons l ls ih =>
    obtain ⟨hcomplete, hbytes⟩ := line_complete buf l.1
    have hread : (feed l.1.sent ⟨0, buf⟩).complete = true := bne_iff_ne.mpr hcomplete
    rw [List.flatMap_cons, lineEvents, List.append_assoc, readOut_bytes, feed_append,
      feed_complete hcomplete, List.map_cons, ← ih (feed l.1.sent ⟨0, buf⟩).buf, ← hbytes,
      List.singleton_append, readOut, if_pos hread, List.singleton_append]

/-- **A line is received whole**, is held until the reset, and the lines read out are
the lines sent. -/
theorem lines_received (buf : Nat → Byte) :
    (∀ l : Line, (feed l.sent ⟨0, buf⟩).sta = 0xc000 + BitVec.ofNat 16 l.data.length ∧
      (List.range l.data.length).map (feed l.sent ⟨0, buf⟩).buf = l.data ∧
      ∀ more, feed more (feed l.sent ⟨0, buf⟩) = feed l.sent ⟨0, buf⟩) ∧
    ∀ ls : List (Line × List Byte),
      readOut ⟨0, buf⟩ (ls.flatMap lineEvents) = ls.map fun l => l.1.data := by
  refine ⟨fun l => ?_, readOut_lines buf⟩
  obtain ⟨hsta, hbuf⟩ := feed_line buf l
  have hlt : l.data.length < usartRecLen := Nat.lt_of_le_pred (by decide) l.fits
  refine ⟨hsta.trans (sta_line l.data.length hlt), hbuf, fun more => ?_⟩
  exact feed_complete (line_complete buf l).1 more

/-! ## Stores -/

/-- A store to `USART_RX_BUF` or to `USART_RX_STA`. -/
inductive Store where
  | rxBuf (i : Nat) (res : Byte)
  | rxSta (v : BitVec 16)

/-- The stores of `USART1_IRQHandler` with a byte in the data register, in order:
the count is stored before it is compared with the length of the buffer. -/
def usart1IrqStores (res : Byte) (sta : BitVec 16) : List Store :=
  if sta &&& 0x8000 = 0 then
    if sta &&& 0x4000 ≠ 0 then
      if res ≠ lf then [.rxSta 0] else [.rxSta (sta ||| 0x8000)]
    else if res = cr then [.rxSta (sta ||| 0x4000)]
    else
      [.rxBuf (sta &&& 0x3fff).toNat res, .rxSta (sta + 1)] ++
        if sta + 1 > BitVec.ofNat 16 (usartRecLen - 1) then [.rxSta 0] else []
  else []

/-- What is in bounds of the word: the count, which can grow without a carry into the
two flags, and the flags. -/
def StaInBounds (v : BitVec 16) : Prop :=
  (v &&& 0x3fff).toNat ≤ usartRecLen - 1 ∧ (v + 1) &&& 0xc000 = v &&& 0xc000 ∧
    (v &&& 0x8000 ≠ 0 → v &&& 0x4000 ≠ 0)

instance (v : BitVec 16) : Decidable (StaInBounds v) := inferInstanceAs (Decidable (_ ∧ _ ∧ _))

/-- A store in bounds. The count that is found too large is 64, with both flags clear. -/
def Store.InBounds : Store → Prop
  | .rxBuf i _ => i < usartRecLen
  | .rxSta v => StaInBounds v ∨ v = BitVec.ofNat 16 usartRecLen

theorem sta_inBounds : ∀ n < 64, StaInBounds (BitVec.ofNat 16 n) ∧
    StaInBounds (BitVec.ofNat 16 n ||| 0x4000) ∧
      StaInBounds (BitVec.ofNat 16 n ||| 0x4000 ||| 0x8000) := by
  decide +kernel

namespace Usart

def store (u : Usart) : Store → Usart
  | .rxBuf i res => { u with buf := Function.update u.buf i res }
  | .rxSta v => { u with sta := v }

def next (u : Usart) : Event → Usart
  | .byte res => usart1IrqHandler res u
  | .reset => { u with sta := 0 }

def stores (u : Usart) : Event → List Store
  | .byte res => usart1IrqStores res u.sta
  | .reset => [.rxSta 0]

/-- The state after a stream of bytes and resets. -/
def after (u : Usart) (es : List Event) : Usart := es.foldl next u

/-- All stores of a stream, in order. -/
def stored : Usart → List Event → List Store
  | _, [] => []
  | u, e :: es => u.stores e ++ stored (u.next e) es

/-- The stores are what the handler does. -/
theorem foldl_stores (u : Usart) (e : Event) : (u.stores e).foldl store u = u.next e := by
  cases e with
  | reset => rfl
  | byte res =>
    simp only [stores, next, usart1IrqStores, usart1IrqHandler]
    split
    · split
      · split <;> rfl
      · split
        · rfl
        · split <;> rfl
    · rfl

theorem foldl_stored (u : Usart) (es : List Event) : (u.stored es).foldl store u = u.after es := by
  induction es generalizing u with
  | nil => rfl
  | cons e es ih =>
    rw [stored, List.foldl_append, foldl_stores, ih]
    rfl

/-- The states of `USART_RX_STA` between two bytes. -/
inductive Phase (u : Usart) : Prop where
  | receiving (n : Nat) (hn : n < 64) (h : u.sta = BitVec.ofNat 16 n)
  | afterCr (n : Nat) (hn : n < 64) (h : u.sta = BitVec.ofNat 16 n ||| 0x4000)
  | complete (n : Nat) (hn : n < 64) (h : u.sta = BitVec.ofNat 16 n ||| 0x4000 ||| 0x8000)

theorem Phase.next {u : Usart} (h : u.Phase) (e : Event) : (u.next e).Phase := by
  cases e with
  | reset => exact .receiving 0 (by decide) rfl
  | byte res =>
    rw [Usart.next]
    cases h with
    | receiving n hn h =>
      rw [handler_receiving hn h]
      split
      · exact .afterCr n hn rfl
      · by_cases hend : n = 63
        · exact .receiving 0 (by decide) (if_pos hend)
        · exact .receiving (n + 1) (by omega) (if_neg hend)
    | afterCr n hn h =>
      rw [handler_afterCr hn h]
      split
      · exact .receiving 0 (by decide) rfl
      · exact .complete n hn (by rw [h])
    | complete n hn h =>
      have h8 : u.sta &&& 0x8000 ≠ 0 := h ▸ (sta_complete n hn).1
      rw [handler_complete h8]
      exact .complete n hn h

theorem Phase.inBounds {u : Usart} (h : u.Phase) : StaInBounds u.sta := by
  cases h with
  | receiving n hn h => exact h ▸ (sta_inBounds n hn).1
  | afterCr n hn h => exact h ▸ (sta_inBounds n hn).2.1
  | complete n hn h => exact h ▸ (sta_inBounds n hn).2.2

/-- While a line is held nothing is stored. -/
theorem stores_complete {u : Usart} (h : u.sta &&& 0x8000 ≠ 0) (res : Byte) :
    u.stores (.byte res) = [] := if_neg h

/-- A byte of a line is stored below the end, and the count is one more; the count behind
the end is followed by 0. -/
theorem stores_receiving {u : Usart} {n : Nat} (hn : n < 64) (h : u.sta = BitVec.ofNat 16 n)
    (res : Byte) : ∀ w ∈ u.stores (.byte res), w.InBounds := by
  obtain ⟨h8, h4, -, hcount⟩ := sta_receiving n hn
  obtain ⟨hsucc, hgt⟩ := sta_succ n hn
  have hcounted : (Store.rxSta (BitVec.ofNat 16 n + 1)).InBounds := by
    rw [hsucc]
    by_cases hend : n = 63
    · exact .inr (by rw [hend]; rfl)
    · exact .inl (sta_inBounds (n + 1) (by omega)).1
  simp only [Usart.stores, usart1IrqStores, h, h8, h4, hcount, hgt, ne_eq, not_true_eq_false,
    if_true, if_false]
  split
  · exact List.forall_mem_singleton.mpr (.inl (sta_inBounds n hn).2.1)
  · simp only [List.cons_append, List.nil_append, List.forall_mem_cons]
    refine ⟨hn, hcounted, ?_⟩
    split
    · exact List.forall_mem_singleton.mpr (.inl (sta_inBounds 0 (by decide)).1)
    · exact List.forall_mem_nil _

theorem stores_afterCr {u : Usart} {n : Nat} (hn : n < 64) (h : u.sta = BitVec.ofNat 16 n ||| 0x4000)
    (res : Byte) : ∀ w ∈ u.stores (.byte res), w.InBounds := by
  obtain ⟨h8, h4, -⟩ := sta_afterCr n hn
  simp only [Usart.stores, usart1IrqStores, h, h8, h4, if_true, ne_eq, not_false_eq_true]
  split
  · exact List.forall_mem_singleton.mpr (.inl (sta_inBounds 0 (by decide)).1)
  · exact List.forall_mem_singleton.mpr (.inl (sta_inBounds n hn).2.2)

/-- In every branch of the handler the stores are in bounds. -/
theorem Phase.stores {u : Usart} (h : u.Phase) (e : Event) :
    ∀ w ∈ u.stores e, w.InBounds := by
  cases e with
  | reset => exact List.forall_mem_singleton.mpr (.inl (sta_inBounds 0 (by decide)).1)
  | byte res =>
    cases h with
    | receiving n hn h => exact stores_receiving hn h res
    | afterCr n hn h => exact stores_afterCr hn h res
    | complete n hn h =>
      rw [stores_complete (h ▸ (sta_complete n hn).1)]
      exact List.forall_mem_nil _

theorem Phase.after {u : Usart} (h : u.Phase) (es : List Event) : (u.after es).Phase := by
  induction es generalizing u with
  | nil => exact h
  | cons e es ih => exact ih (h.next e)

theorem Phase.stored {u : Usart} (h : u.Phase) (es : List Event) :
    ∀ w ∈ u.stored es, w.InBounds := by
  induction es generalizing u with
  | nil => exact List.forall_mem_nil _
  | cons e es ih =>
    exact List.forall_mem_append.mpr ⟨h.stores e, ih (h.next e)⟩

/-- A line is held until the reset, whatever comes. -/
theorem stored_complete {u : Usart} (h : u.sta &&& 0x8000 ≠ 0) (bs : List Byte) :
    u.stored (bs.map .byte) = [] := by
  induction bs with
  | nil => rfl
  | cons b bs ih =>
    rw [List.map_cons, Usart.stored, stores_complete h, Usart.next, handler_complete h]
    exact ih

end Usart

/-- **The receive state stays in bounds**, for every stream of bytes with resets anywhere
between them: so does every store, and once a line is complete bytes store nothing. -/
theorem rx_state_bounded (buf : Nat → Byte) (es : List Event) :
    (∀ w ∈ Usart.stored ⟨0, buf⟩ es, w.InBounds) ∧
      StaInBounds (Usart.after ⟨0, buf⟩ es).sta ∧
      ((Usart.after ⟨0, buf⟩ es).sta &&& 0x8000 ≠ 0 →
        ∀ bs : List Byte, (Usart.after ⟨0, buf⟩ es).stored (bs.map .byte) = []) := by
  have hstart : Usart.Phase ⟨0, buf⟩ := .receiving 0 (by decide) rfl
  exact ⟨hstart.stored es, (hstart.after es).inBounds, Usart.stored_complete⟩

end MqttDevice.Usart1
