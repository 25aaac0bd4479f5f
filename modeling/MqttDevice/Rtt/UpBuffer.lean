import MqttDevice.Lib.Fifo
import MqttDevice.Lib.Ring
import MqttDevice.Rtt.Printf

/-!
# The up-buffer (`SEGGER_RTT.c`)

The target stores bytes in a ring and moves `WrOff`; the debug probe reads them and moves `RdOff`,
at any time: it does not know of `SEGGER_RTT_LOCK`. A write takes place in steps, and between any
two of them the probe may read.

* `step_conserves`: no step loses or invents a byte, or changes one that can be read;
* `host_reads_accepted`: along any run the probe reads the accepted bytes, in order and each once;
* `writes_logged`: the log of `SEGGER_RTT_printf` is what the probe reads, when the space at each
  write is what the probe has left.
-/

namespace MqttDevice.Rtt

open MqttDevice.Ascii MqttDevice.Ring MqttDevice.Runs MqttDevice.Fifo

/-! ## The program -/

def bufferSizeUp : Nat := 1024

structure BufferUp where
  pBuffer : Nat → Byte
  wrOff : Nat
  rdOff : Nat

/-- `Flags`; `other` is for the values that are no mode. -/
inductive Mode where
  | noBlockSkip
  | noBlockTrim
  | blockIfFifoFull
  | other
  deriving DecidableEq

def getAvailWriteSpace (b : BufferUp) : Nat :=
  if b.rdOff ≤ b.wrOff then bufferSizeUp - 1 - b.wrOff + b.rdOff else b.rdOff - b.wrOff - 1

/-- Bytes on their way into the buffer: where they go, how many have been stored, `WrOff` when all
have, and the data that follow them. -/
structure Transfer where
  data : List Byte
  place : Nat → Nat
  stored : Nat
  wrOff : Nat
  rest : List Byte

def writeNoCheck (b : BufferUp) (data : List Byte) : Transfer :=
  let rem := bufferSizeUp - b.wrOff
  if data.length < rem then ⟨data, (b.wrOff + ·), 0, b.wrOff + data.length, []⟩
  else ⟨data, fun j => if j < rem then b.wrOff + j else j - rem, 0, data.length - rem, []⟩

/-- A round of `_WriteBlocking`. -/
def writeBlocking (b : BufferUp) (data : List Byte) : Transfer :=
  let n :=
    if b.wrOff < b.rdOff then b.rdOff - b.wrOff - 1 else bufferSizeUp - (b.wrOff - b.rdOff + 1)
  let n := min (min n (bufferSizeUp - b.wrOff)) data.length
  let wrOff := if b.wrOff + n = bufferSizeUp then 0 else b.wrOff + n
  ⟨data.take n, (b.wrOff + ·), 0, wrOff, data.drop n⟩

/-- `SEGGER_RTT_WriteNoLock` up to the first byte: `Status`, and what is stored. -/
def writeNoLock (mode : Mode) (b : BufferUp) (data : List Byte) : Nat × Option Transfer :=
  let avail := getAvailWriteSpace b
  match mode with
  | .noBlockSkip =>
    if avail < data.length then (0, none) else (data.length, some (writeNoCheck b data))
  | .noBlockTrim =>
    let status := if avail < data.length then avail else data.length
    (status, some (writeNoCheck b (data.take status)))
  | .blockIfFifoFull => (data.length, some (writeBlocking b data))
  | .other => (0, none)

/-! ## The target and the probe -/

/-- Where the target is: outside of `SEGGER_RTT_Write`, before the next byte, or before the next
round of `_WriteBlocking`. -/
inductive Writer where
  | idle
  | storing (t : Transfer)
  | looping (data : List Byte)

/-- The buffer, the target, and how many bytes the probe has fetched since it set `RdOff`. -/
structure Channel where
  up : BufferUp
  writer : Writer
  fetched : Nat

inductive UpEvent where
  /-- The target calls `SEGGER_RTT_Write`. -/
  | write (data : List Byte)
  /-- It stores a byte. -/
  | store
  /-- It sets `WrOff`. -/
  | publish
  /-- It reads the offsets again. -/
  | round
  /-- The probe fetches a byte. -/
  | fetch
  /-- It sets `RdOff`. -/
  | release

/-- How many bytes there are to read. -/
def BufferUp.used (b : BufferUp) : Nat := (b.wrOff + bufferSizeUp - b.rdOff) % bufferSizeUp

def BufferUp.contents (b : BufferUp) : List Byte := slice bufferSizeUp b.pBuffer b.rdOff b.used

def started : Option Transfer → Writer
  | none => .idle
  | some t => .storing t

def step (mode : Mode) (s : Channel) : UpEvent → Option Channel
  | .write data =>
    match s.writer with
    | .idle => some { s with writer := started (writeNoLock mode s.up data).2 }
    | _ => none
  | .store =>
    match s.writer with
    | .storing t =>
      if t.stored < t.data.length then
        some { s with
          up.pBuffer := Function.update s.up.pBuffer (t.place t.stored) (t.data.getD t.stored 0)
          writer := .storing { t with stored := t.stored + 1 } }
      else none
    | _ => none
  | .publish =>
    match s.writer with
    | .storing t =>
      if t.stored = t.data.length then
        some { s with
          up.wrOff := t.wrOff
          writer := if t.rest = [] then .idle else .looping t.rest }
      else none
    | _ => none
  | .round =>
    match s.writer with
    | .looping data => some { s with writer := .storing (writeBlocking s.up data) }
    | _ => none
  | .fetch => if s.fetched < s.up.used then some { s with fetched := s.fetched + 1 } else none
  | .release =>
    some { s with up.rdOff := (s.up.rdOff + s.fetched) % bufferSizeUp, fetched := 0 }

/-- The buffer after `_DoInit`. -/
def startChannel (pBuffer : Nat → Byte) : Channel := ⟨⟨pBuffer, 0, 0⟩, .idle, 0⟩

/-! ## Bytes on their way -/

namespace BufferUp

/-- The offsets are inside of the buffer. -/
structure Inside (b : BufferUp) : Prop where
  wrOff_lt : b.wrOff < bufferSizeUp
  rdOff_lt : b.rdOff < bufferSizeUp

variable {b : BufferUp}

theorem used_lt (b : BufferUp) : b.used < bufferSizeUp := Nat.mod_lt _ (Nat.succ_pos _)

theorem Inside.wrOff_eq (h : b.Inside) : (b.rdOff + b.used) % bufferSizeUp = b.wrOff := by
  obtain ⟨hw, hr⟩ := h
  simp only [used, bufferSizeUp] at hw hr ⊢
  omega

theorem Inside.avail_eq (h : b.Inside) : getAvailWriteSpace b + b.used + 1 = bufferSizeUp := by
  obtain ⟨hw, hr⟩ := h
  simp only [getAvailWriteSpace, used, bufferSizeUp] at hw hr ⊢
  split <;> omega

end BufferUp

/-- The bytes go behind those that can be read, and do not reach round to them. -/
structure Fits (b : BufferUp) (t : Transfer) : Prop where
  room : b.used + t.data.length < bufferSizeUp
  place : ∀ j < t.data.length, t.place j = (b.wrOff + j) % bufferSizeUp
  wrOff : t.wrOff = (b.wrOff + t.data.length) % bufferSizeUp
  stored_le : t.stored ≤ t.data.length
  stored : slice bufferSizeUp b.pBuffer b.wrOff t.stored = t.data.take t.stored

theorem fits_writeNoCheck {b : BufferUp} (h : b.Inside) {data : List Byte}
    (hroom : b.used + data.length < bufferSizeUp) : Fits b (writeNoCheck b data) := by
  have hw := h.wrOff_lt
  have hlen : data.length < bufferSizeUp := by omega
  unfold writeNoCheck
  dsimp only
  split
  · rename_i hfit
    refine ⟨hroom, fun j (hj : j < data.length) => ?_, ?_, Nat.zero_le _, by simp⟩
    · exact (Nat.mod_eq_of_lt (show b.wrOff + j < bufferSizeUp by omega)).symm
    · exact (Nat.mod_eq_of_lt (show b.wrOff + data.length < bufferSizeUp by omega)).symm
  · rename_i hwrap
    refine ⟨hroom, fun j (hj : j < data.length) => ?_, ?_, Nat.zero_le _, by simp⟩
    · dsimp only
      split
      · exact (Nat.mod_eq_of_lt (by omega)).symm
      · rw [Nat.mod_eq_sub_mod (by omega), Nat.mod_eq_of_lt (by omega)]
        omega
    · dsimp only
      rw [Nat.mod_eq_sub_mod (by omega), Nat.mod_eq_of_lt (by omega)]
      omega

theorem fits_writeBlocking {b : BufferUp} (h : b.Inside) (data : List Byte) :
    Fits b (writeBlocking b data) ∧
      (writeBlocking b data).data ++ (writeBlocking b data).rest = data := by
  have hused : b.used = if b.rdOff ≤ b.wrOff then b.wrOff - b.rdOff else
      b.wrOff + bufferSizeUp - b.rdOff := by
    obtain ⟨hw, hr⟩ := h
    simp only [BufferUp.used, bufferSizeUp] at hw hr ⊢
    split <;> omega
  obtain ⟨hw, hr⟩ := h
  refine ⟨?_, List.take_append_drop _ data⟩
  unfold writeBlocking
  dsimp only
  generalize hn : min (min _ (bufferSizeUp - b.wrOff)) data.length = n
  have hlen : (data.take n).length = n := by
    rw [List.length_take]
    omega
  refine ⟨?_, fun j hj => ?_, ?_, Nat.zero_le _, by simp⟩
  · rw [hlen, hused]
    split <;> split at hn <;> omega
  · have hjn : j < n := hlen ▸ hj
    exact (Nat.mod_eq_of_lt (show b.wrOff + j < bufferSizeUp by omega)).symm
  · rw [hlen]
    split
    · rename_i hend
      rw [hend, Nat.mod_self]
    · exact (Nat.mod_eq_of_lt (show b.wrOff + n < bufferSizeUp by omega)).symm

/-! ## Steps -/

/-- The bytes that the target has not made visible yet. -/
def Writer.underway : Writer → List Byte
  | .idle => []
  | .storing t => t.data ++ t.rest
  | .looping data => data

/-- What has been accepted and not been fetched. -/
def held (s : Channel) : List Byte := s.up.contents.drop s.fetched ++ s.writer.underway

/-- The bytes of a call that are accepted. -/
def accepted (mode : Mode) (s : Channel) (e : UpEvent) (_ : Channel) : List Byte :=
  match e with
  | .write data => data.take (writeNoLock mode s.up data).1
  | _ => []

def fetched (s : Channel) (e : UpEvent) (_ : Channel) : List Byte :=
  match e with
  | .fetch => [s.up.pBuffer ((s.up.rdOff + s.fetched) % bufferSizeUp)]
  | _ => []

def Writer.Fits (b : BufferUp) : Writer → Prop
  | .storing t => Rtt.Fits b t
  | _ => True

structure Inv (s : Channel) : Prop where
  inside : s.up.Inside
  fetched_le : s.fetched ≤ s.up.used
  fits : s.writer.Fits s.up

theorem inv_start (pBuffer : Nat → Byte) : Inv (startChannel pBuffer) :=
  ⟨⟨Nat.succ_pos _, Nat.succ_pos _⟩, Nat.zero_le _, trivial⟩

/-- A call: what is accepted is under way. -/
theorem write_spec {b : BufferUp} (h : b.Inside) (mode : Mode) (data : List Byte) :
    (started (writeNoLock mode b data).2).Fits b ∧
      (started (writeNoLock mode b data).2).underway = data.take (writeNoLock mode b data).1 := by
  have havail := h.avail_eq
  have hcheck : ∀ data : List Byte, data.length ≤ getAvailWriteSpace b →
      Fits b (writeNoCheck b data) := fun data hle => fits_writeNoCheck h (by omega)
  have hunder : ∀ data : List Byte, (Writer.storing (writeNoCheck b data)).underway = data := by
    intro data
    simp only [Writer.underway, writeNoCheck]
    split <;> exact List.append_nil _
  cases mode with
  | noBlockSkip =>
    simp only [writeNoLock]
    split
    · exact ⟨trivial, rfl⟩
    · refine ⟨hcheck data (by omega), ?_⟩
      rw [List.take_length]
      exact hunder data
  | noBlockTrim =>
    refine ⟨hcheck _ ?_, hunder _⟩
    rw [List.length_take]
    split <;> omega
  | blockIfFifoFull =>
    obtain ⟨hfits, hdata⟩ := fits_writeBlocking h data
    refine ⟨hfits, ?_⟩
    rw [writeNoLock, List.take_length]
    exact hdata
  | other => exact ⟨trivial, rfl⟩

/-- **A byte is stored** where the probe does not look. -/
theorem store_spec {b : BufferUp} (h : b.Inside) {t : Transfer} (ht : Fits b t)
    (hmore : t.stored < t.data.length) {b' : BufferUp}
    (hb' : b' = { b with
      pBuffer := Function.update b.pBuffer (t.place t.stored) (t.data.getD t.stored 0) }) :
    b'.contents = b.contents ∧ Fits b' { t with stored := t.stored + 1 } := by
  have hplace := ht.place t.stored hmore
  have hroom := ht.room
  have hcell : t.place t.stored = (b.rdOff + (b.used + t.stored)) % bufferSizeUp := by
    rw [hplace, ← h.wrOff_eq, Nat.mod_add_mod, Nat.add_assoc]
  subst hb'
  refine ⟨slice_congr fun j (hj : j < b.used) => Function.update_of_ne ?_ .., hroom, ht.place,
    ht.wrOff, hmore, ?_⟩
  · rw [hcell]
    exact add_mod_ne (by omega) (by omega)
  · have hbefore : slice bufferSizeUp
        (Function.update b.pBuffer (t.place t.stored) (t.data.getD t.stored 0)) b.wrOff t.stored =
        t.data.take t.stored := by
      rw [← ht.stored]
      refine slice_congr fun j hj => Function.update_of_ne ?_ ..
      rw [hplace]
      exact add_mod_ne hj (by omega)
    dsimp only
    rw [slice_snoc, hbefore, ← hplace, Function.update_self, List.getD_eq_getElem?_getD,
      List.getElem?_eq_getElem hmore, Option.getD_some, List.take_append_getElem hmore]

/-- **`WrOff` is set**: the stored bytes can be read. -/
theorem publish_spec {b : BufferUp} (h : b.Inside) {t : Transfer} (ht : Fits b t)
    (hdone : t.stored = t.data.length) {b' : BufferUp} (hb' : b' = { b with wrOff := t.wrOff }) :
    b'.Inside ∧ b'.used = b.used + t.data.length ∧ b'.contents = b.contents ++ t.data := by
  have hwr := h.wrOff_eq
  have hroom := ht.room
  have hoff := ht.wrOff
  have hused : b'.used = b.used + t.data.length := by
    obtain ⟨hw, hr⟩ := h
    rw [hb']
    simp only [BufferUp.used, bufferSizeUp] at hw hr hroom hoff hwr ⊢
    omega
  refine ⟨⟨?_, hb' ▸ h.rdOff_lt⟩, hused, ?_⟩
  · rw [hb', hoff]
    exact Nat.mod_lt _ (Nat.succ_pos _)
  · have hstored := ht.stored
    rw [hdone, List.take_length] at hstored
    have hbehind : slice bufferSizeUp b.pBuffer (b.rdOff + b.used) t.data.length = t.data := by
      rw [← slice_mod, hwr, hstored]
    have hcontents : b'.contents = slice bufferSizeUp b.pBuffer b.rdOff b'.used := by
      rw [hb']
      rfl
    rw [hcontents, hused, slice_add, hbehind]
    rfl

/-- **`RdOff` is set**: there is more space. -/
theorem release_spec {b : BufferUp} (h : b.Inside) {n : Nat} (hn : n ≤ b.used) {b' : BufferUp}
    (hb' : b' = { b with rdOff := (b.rdOff + n) % bufferSizeUp }) :
    b'.Inside ∧ b'.used = b.used - n ∧ b'.contents = b.contents.drop n := by
  have hwr := h.wrOff_eq
  have hlt := b.used_lt
  have hused : b'.used = b.used - n := by
    obtain ⟨hw, hr⟩ := h
    rw [hb']
    simp only [BufferUp.used, bufferSizeUp] at hw hr hn hwr hlt ⊢
    omega
  refine ⟨⟨hb' ▸ h.wrOff_lt, ?_⟩, hused, ?_⟩
  · rw [hb']
    exact Nat.mod_lt _ (Nat.succ_pos _)
  · have hsplit : b.contents = slice bufferSizeUp b.pBuffer b.rdOff n ++
        slice bufferSizeUp b.pBuffer (b.rdOff + n) (b.used - n) := by
      rw [← slice_add, Nat.add_sub_cancel' hn]
      rfl
    have hcontents : b'.contents =
        slice bufferSizeUp b.pBuffer ((b.rdOff + n) % bufferSizeUp) b'.used := by
      rw [hb']
      rfl
    rw [hcontents, hused, slice_mod, hsplit, List.drop_left' (length_slice ..)]

theorem Fits.release {b b' : BufferUp} {t : Transfer} (ht : Fits b t) (hused : b'.used ≤ b.used)
    (hbuf : b'.pBuffer = b.pBuffer) (hwr : b'.wrOff = b.wrOff) : Fits b' t :=
  ⟨by have := ht.room; omega, hwr ▸ ht.place, hwr ▸ ht.wrOff, ht.stored_le,
    hbuf ▸ hwr ▸ ht.stored⟩

/-- **No byte is lost, invented or changed** in a step. -/
theorem step_conserves {mode : Mode} {s t : Channel} {e : UpEvent} (h : Inv s)
    (hstep : step mode s e = some t) :
    Inv t ∧ Conserves held (accepted mode) fetched s e t := by
  obtain ⟨hin, hle, hfits⟩ := h
  obtain ⟨up, writer, k⟩ := s
  cases e with
  | write data =>
    cases writer with
    | idle =>
      cases hstep
      obtain ⟨hwrite, hunder⟩ := write_spec hin mode data
      refine ⟨⟨hin, hle, hwrite⟩, ?_⟩
      have hheld : up.contents.drop k ++ [] ++ data.take (writeNoLock mode up data).1 =
          up.contents.drop k ++ (started (writeNoLock mode up data).2).underway := by
        rw [hunder, List.append_nil]
      exact hheld
    | storing _ => cases hstep
    | looping _ => cases hstep
  | store =>
    cases writer with
    | storing x =>
      simp only [step, Option.ite_none_right_eq_some] at hstep
      obtain ⟨hmore, heq⟩ := hstep
      cases heq
      obtain ⟨hcontents, hfits'⟩ := store_spec hin hfits hmore rfl
      refine ⟨⟨⟨hin.wrOff_lt, hin.rdOff_lt⟩, hle, hfits'⟩, ?_⟩
      simp only [Conserves, held, accepted, fetched, hcontents, Writer.underway, List.append_nil,
        List.nil_append]
    | idle => cases hstep
    | looping _ => cases hstep
  | publish =>
    cases writer with
    | storing x =>
      simp only [step, Option.ite_none_right_eq_some] at hstep
      obtain ⟨hdone, heq⟩ := hstep
      cases heq
      obtain ⟨hin', hused, hcontents⟩ := publish_spec hin hfits hdone rfl
      have hrest : (if x.rest = [] then Writer.idle else .looping x.rest).underway = x.rest := by
        split
        · rename_i hnil
          exact hnil.symm
        · rfl
      have hk : k ≤ up.contents.length := by
        rw [BufferUp.contents, length_slice]
        exact hle
      refine ⟨⟨hin', ?_, by dsimp only; split <;> trivial⟩, ?_⟩
      · exact hle.trans (hused ▸ Nat.le_add_right _ _)
      · simp only [Conserves, held, accepted, fetched, hcontents, hrest, List.append_nil,
          List.nil_append, List.drop_append_of_le_length hk, List.append_assoc]
        rfl
    | idle => cases hstep
    | looping _ => cases hstep
  | round =>
    cases writer with
    | looping data =>
      cases hstep
      obtain ⟨hfits', hdata⟩ := fits_writeBlocking hin data
      refine ⟨⟨hin, hle, hfits'⟩, ?_⟩
      simp only [Conserves, held, accepted, fetched, hdata, Writer.underway, List.append_nil,
        List.nil_append]
    | storing _ => cases hstep
    | idle => cases hstep
  | fetch =>
    simp only [step, Option.ite_none_right_eq_some] at hstep
    obtain ⟨hmore, heq⟩ := hstep
    cases heq
    refine ⟨⟨hin, hmore, hfits⟩, ?_⟩
    have hnext : up.contents.drop k =
        up.pBuffer ((up.rdOff + k) % bufferSizeUp) :: up.contents.drop (k + 1) := by
      have hlen : k < up.contents.length := by
        rw [BufferUp.contents, length_slice]
        exact hmore
      rw [List.drop_eq_getElem_cons hlen]
      simp [BufferUp.contents, slice]
    simp only [Conserves, held, accepted, fetched, hnext, List.append_nil, List.cons_append,
      List.nil_append]
  | release =>
    cases hstep
    obtain ⟨hin', hused, hcontents⟩ := release_spec hin hle rfl
    refine ⟨⟨hin', Nat.zero_le _, ?_⟩, ?_⟩
    · cases writer with
      | storing x => exact Fits.release hfits (hused ▸ Nat.sub_le _ _) rfl rfl
      | idle => trivial
      | looping _ => trivial
    · simp only [Conserves, held, accepted, fetched, hcontents, List.drop_zero, List.append_nil,
        List.nil_append]

theorem conserved_of_run {mode : Mode} {pBuffer : Nat → Byte} {es : List UpEvent} {s : Channel}
    (h : run (step mode) (startChannel pBuffer) es = some s) :
    trace (step mode) (accepted mode) (startChannel pBuffer) es =
      trace (step mode) fetched (startChannel pBuffer) es ++ held s := by
  have hsteps : Along (step mode) (Conserves held (accepted mode) fetched) (startChannel pBuffer)
      es := along_of_inv (fun _ _ _ => step_conserves) es (inv_start pBuffer)
  have hrun := run_conserves h hsteps
  have hempty : held (startChannel pBuffer) = [] := by
    have hused : (startChannel pBuffer).up.used = 0 := Nat.mod_self bufferSizeUp
    rw [held, BufferUp.contents, hused]
    rfl
  rw [hempty, List.nil_append] at hrun
  exact hrun

/-- **The probe reads what was accepted**, in order and each byte once, along any run: what it has
not read yet is in the buffer or on its way there. -/
theorem host_reads_accepted {mode : Mode} {pBuffer : Nat → Byte} {es : List UpEvent} {s : Channel}
    (h : run (step mode) (startChannel pBuffer) es = some s) :
    trace (step mode) (accepted mode) (startChannel pBuffer) es =
      trace (step mode) fetched (startChannel pBuffer) es ++ held s := conserved_of_run h

def twoBytes : List UpEvent := [.write [72, 105], .store, .store, .publish, .fetch, .release]

theorem host_reads_accepted_twoBytes :
    ∃ s, run (step .noBlockTrim) (startChannel fun _ => 0) twoBytes = some s ∧
      trace (step .noBlockTrim) (accepted .noBlockTrim) (startChannel fun _ => 0) twoBytes =
        trace (step .noBlockTrim) fetched (startChannel fun _ => 0) twoBytes ++ held s :=
  have ⟨s, hs⟩ := Option.isSome_iff_exists.mp (show (run (step .noBlockTrim)
    (startChannel fun _ => 0) twoBytes).isSome = true by decide +kernel)
  ⟨s, hs, host_reads_accepted hs⟩

/-! ## The log -/

/-- What `_GetAvailWriteSpace` returns in a call. -/
def availSpace (s : Channel) (e : UpEvent) (_ : Channel) : List Nat :=
  match e with
  | .write _ => [getAvailWriteSpace s.up]
  | _ => []

/-- The log after a call. -/
def logEvent (space : Nat → Nat) (l : Log) : UpEvent → Log
  | .write data => (rttWrite space data l).2
  | _ => l

/-- The log grows by what is accepted. -/
theorem logEvents_text {space : Nat → Nat} {es : List UpEvent} {s u : Channel} {l : Log}
    (h : run (step .noBlockSkip) s es = some u)
    (hspace : ∀ k, space (l.writes + k) = (trace (step .noBlockSkip) availSpace s es).getD k 0) :
    (es.foldl (logEvent space) l).text =
      l.text ++ trace (step .noBlockSkip) (accepted .noBlockSkip) s es := by
  induction es generalizing s l with
  | nil => exact (List.append_nil _).symm
  | cons e es ih =>
    obtain ⟨t, ht, hrun⟩ := run_cons h
    rw [List.foldl_cons, trace_cons ht]
    rw [trace_cons ht] at hspace
    cases e with
    | write data =>
      have hnow : space l.writes = getAvailWriteSpace s.up := hspace 0
      have hlater : ∀ k, space (l.writes + 1 + k) =
          (trace (step .noBlockSkip) availSpace t es).getD k 0 := by
        intro k
        rw [Nat.add_assoc, Nat.add_comm 1 k]
        exact hspace (k + 1)
      simp only [logEvent, rttWrite, accepted, writeNoLock, hnow]
      split
      · rw [ih hrun hlater, List.take_zero, List.nil_append]
      · rw [ih hrun hlater, List.take_length, List.append_assoc]
    | store => exact ih hrun hspace
    | publish => exact ih hrun hspace
    | round => exact ih hrun hspace
    | fetch => exact ih hrun hspace
    | release => exact ih hrun hspace

/-- **The log is what the probe reads**: `rttWrite`, given the space at each call, adds to it what
the probe has read and what it still can read. -/
theorem writes_logged {pBuffer : Nat → Byte} {es : List UpEvent} {s : Channel}
    (h : run (step .noBlockSkip) (startChannel pBuffer) es = some s) :
    let space := (trace (step .noBlockSkip) availSpace (startChannel pBuffer) es).getD
    (es.foldl (logEvent (space · 0)) {}).text =
      trace (step .noBlockSkip) fetched (startChannel pBuffer) es ++ held s := by
  intro space
  rw [logEvents_text h fun k => by rw [Nat.zero_add], List.nil_append]
  exact conserved_of_run h

theorem writes_logged_twoBytes :
    let space :=
      (trace (step .noBlockSkip) availSpace (startChannel fun _ => 0) twoBytes).getD
    ∃ s, run (step .noBlockSkip) (startChannel fun _ => 0) twoBytes = some s ∧
      (twoBytes.foldl (logEvent (space · 0)) {}).text =
        trace (step .noBlockSkip) fetched (startChannel fun _ => 0) twoBytes ++ held s :=
  have ⟨s, hs⟩ := Option.isSome_iff_exists.mp (show (run (step .noBlockSkip)
    (startChannel fun _ => 0) twoBytes).isSome = true by decide +kernel)
  ⟨s, hs, writes_logged hs⟩

end MqttDevice.Rtt
