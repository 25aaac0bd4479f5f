import MqttDevice.Lib.Ascii
import MqttDevice.Lib.Unwinding

/-!
# The signal lights (`signaling.c`)

The RGB light shows one of twenty patterns, an ongoing one or, until it has
played once, a one-time one; the light on the board shows the state of the
network. `signalingEvent` is called every 100 ms, the other functions at any
time between two calls.

* `within_rows_iff`: the lookups of a run stay in their row and colour if and
  only if no ongoing event beyond the table is shown and no one-time event is
  set between the last step of another and its clean-up;
* `onetime_undisturbed`: runs that differ in ongoing events show the same
  one-time events as long as these are not started again by them;
* `led_cycle_iff`: the light on the board keeps its cycle if and only if no
  one-time event is active at any call;
* `onetime_plays`: a one-time event that is left alone is played once, from its
  first column to its last, and then the ongoing pattern from its first column.
-/

namespace MqttDevice.Signaling

open MqttDevice.Ascii MqttDevice.Runs MqttDevice.Unwinding

/-! ## The tables -/

def sigEventNone : Nat := 0
def sigEventEnumEnd : Nat := 20
def ledStatusEnd : Nat := 7

/-- Ten columns for each of red, green and blue, then the length. -/
def sigPattern : List (List Byte) :=
  [[0, 0, 0, 0, 0, 0, 0, 0, 0, 0, 0, 0, 0, 0, 0, 0, 0, 0, 0, 0, 0, 0, 0, 0, 0, 0, 0, 0, 0, 0, 10],
   [1, 1, 1, 1, 0, 0, 0, 0, 0, 0, 0, 0, 1, 1, 1, 1, 0, 0, 0, 0, 1, 1, 0, 0, 0, 0, 1, 1, 0, 0, 10],
   [1, 0, 1, 0, 1, 0, 1, 0, 1, 0, 1, 0, 1, 0, 1, 0, 1, 0, 1, 0, 0, 0, 0, 0, 0, 0, 0, 0, 0, 0, 10],
   [1, 1, 1, 1, 1, 0, 0, 0, 0, 0, 1, 1, 1, 1, 1, 0, 0, 0, 0, 0, 0, 0, 0, 0, 0, 0, 0, 0, 0, 0, 10],
   [0, 0, 0, 0, 0, 0, 0, 0, 0, 0, 1, 1, 1, 1, 1, 0, 0, 0, 0, 0, 0, 0, 0, 0, 0, 0, 0, 0, 0, 0, 10],
   [0, 0, 0, 0, 0, 0, 0, 0, 0, 0, 1, 1, 1, 0, 0, 1, 1, 1, 0, 0, 0, 0, 0, 0, 0, 0, 0, 0, 0, 0, 10],
   [0, 0, 0, 0, 0, 0, 0, 0, 0, 0, 1, 0, 1, 0, 1, 0, 1, 0, 1, 0, 0, 0, 0, 0, 0, 0, 0, 0, 0, 0, 10],
   [0, 0, 0, 0, 0, 0, 0, 0, 0, 0, 1, 1, 1, 1, 1, 1, 1, 1, 1, 1, 0, 0, 0, 0, 0, 0, 0, 0, 0, 0, 10],
   [1, 1, 1, 1, 1, 1, 1, 1, 1, 1, 1, 1, 1, 1, 1, 0, 0, 0, 0, 0, 0, 0, 0, 0, 0, 0, 0, 0, 0, 0, 10],
   [0, 0, 0, 0, 0, 0, 0, 0, 0, 0, 1, 1, 1, 1, 1, 1, 1, 1, 1, 1, 1, 1, 1, 1, 1, 1, 1, 1, 1, 1, 10],
   [1, 1, 1, 1, 1, 1, 1, 1, 1, 1, 0, 0, 0, 0, 0, 0, 0, 0, 0, 0, 1, 1, 1, 1, 1, 1, 1, 1, 1, 1, 10],
   [1, 1, 1, 1, 1, 0, 0, 0, 0, 0, 0, 0, 0, 0, 0, 0, 0, 0, 0, 0, 0, 0, 0, 0, 0, 0, 0, 0, 0, 0, 10],
   [1, 1, 1, 0, 0, 1, 1, 1, 0, 0, 0, 0, 0, 0, 0, 0, 0, 0, 0, 0, 0, 0, 0, 0, 0, 0, 0, 0, 0, 0, 10],
   [1, 1, 1, 0, 0, 0, 0, 0, 0, 0, 0, 0, 0, 0, 0, 1, 1, 1, 0, 0, 0, 0, 0, 0, 0, 0, 0, 0, 0, 0, 10],
   [0, 0, 0, 0, 0, 0, 0, 0, 0, 0, 1, 1, 1, 0, 0, 0, 0, 0, 0, 0, 0, 0, 0, 0, 0, 1, 1, 1, 0, 0, 10],
   [0, 0, 0, 0, 0, 0, 0, 0, 0, 0, 1, 0, 0, 1, 0, 0, 1, 0, 0, 1, 0, 0, 0, 0, 0, 0, 0, 0, 0, 0, 10],
   [1, 1, 0, 0, 1, 1, 0, 0, 1, 1, 0, 0, 1, 1, 0, 0, 1, 1, 0, 0, 1, 1, 1, 1, 1, 1, 1, 1, 1, 1, 10],
   [0, 0, 1, 1, 0, 0, 1, 1, 0, 0, 0, 0, 1, 1, 0, 0, 1, 1, 0, 0, 1, 1, 0, 0, 1, 1, 0, 0, 1, 1, 10],
   [0, 0, 0, 1, 1, 1, 1, 0, 0, 0, 0, 0, 0, 1, 1, 1, 1, 0, 0, 0, 1, 1, 1, 0, 0, 0, 0, 1, 1, 1, 10],
   [1, 0, 1, 0, 1, 0, 1, 0, 1, 0, 1, 0, 1, 0, 1, 0, 1, 0, 1, 0, 1, 0, 1, 0, 1, 0, 1, 0, 1, 0, 10]]

/-- Steps of 100 ms, 2 s for a cycle. -/
def ledState : List (List Byte) :=
  [[1, 1, 1, 1, 1, 0, 0, 0, 0, 0, 1, 1, 1, 1, 1, 0, 0, 0, 0, 0],
   [1, 1, 1, 0, 0, 1, 1, 1, 0, 0, 1, 1, 1, 0, 0, 1, 1, 1, 0, 0],
   [1, 0, 1, 0, 1, 0, 1, 0, 1, 0, 1, 0, 1, 0, 1, 0, 1, 0, 1, 0],
   [1, 0, 1, 0, 0, 0, 0, 0, 0, 0, 0, 0, 0, 0, 0, 0, 0, 0, 0, 0],
   [1, 0, 1, 0, 1, 0, 0, 0, 0, 0, 0, 0, 0, 0, 0, 0, 0, 0, 0, 0],
   [1, 1, 1, 1, 1, 1, 1, 1, 1, 1, 1, 1, 1, 1, 1, 1, 1, 1, 1, 1],
   [0, 0, 0, 0, 0, 0, 0, 0, 0, 0, 0, 0, 0, 0, 0, 0, 0, 0, 0, 0]]

/-- The element at `[row][col]` of a table with rows of that width. What lies
behind the table is `behind`, by its offset from the begin of the table. -/
def element (table : List (List Byte)) (width : Nat) (behind : Nat → Byte) (row col : Nat) :
    Byte :=
  match table[row + col / width]? with
  | some r => r.getD (col % width) 0
  | none => behind (width * row + col)

/-! ## The program -/

/-- The output pins, by port and number. -/
inductive Pin where
  | f9
  | e1
  | e3
  | e5
  deriving DecidableEq, Repr

/-- `sigStruct_t`; a pin that is not set is a null pointer. -/
structure SigStruct where
  debugLed1 : Option Pin := none
  ledPortR : Option Pin := none
  ledPortG : Option Pin := none
  ledPortB : Option Pin := none
  patPos : Byte := 0
  patLen : Byte := 0
  onGoingEvtTyp : Byte := 0
  oneTimeEvtTyp : Byte := 0
  oneTimeEvtStat : Byte := 0
  navCnt : Byte := 0
  navStatus : Nat := 0
  deriving DecidableEq, Repr

/-- What a call does to the pins: one execution of `signalingWriteOutput`, with
its row and the value of `patPos`, or the light on the board. -/
inductive Output where
  | pattern (row patPos : Nat) (sets : List (Pin × Byte))
  | led (sets : List (Pin × Byte))
  deriving DecidableEq, Repr

/-- `digitalSet` -/
def digitalSet (pin : Option Pin) (n : Byte) : List (Pin × Byte) := pin.toList.map fun p => (p, n)

section Functions

variable (behind : Nat → Byte)

def patternAt (row col : Nat) : Byte := element sigPattern 31 behind row col

def signalingWriteOutput (eventType : Nat) (s : SigStruct) : Output :=
  let pos := s.patPos.toNat
  .pattern eventType pos
    (digitalSet s.ledPortR (patternAt behind eventType pos) ++
      digitalSet s.ledPortG (patternAt behind eventType (pos + 10)) ++
      digitalSet s.ledPortB (patternAt behind eventType (pos + 20)))

def signalingOnetimeEvent (eventType : BitVec 32) (s : SigStruct) : SigStruct × List Output :=
  if eventType.toInt < 0 ∨ eventType.toInt ≥ sigEventEnumEnd then (s, [])
  else
    ({ s with oneTimeEvtStat := 0, oneTimeEvtTyp := eventType.setWidth 8 },
      if s.oneTimeEvtTyp ≠ 0 then [signalingWriteOutput behind sigEventNone s] else [])

def signalingOnGoingEventSet (eventType : BitVec 32) (s : SigStruct) : SigStruct :=
  if eventType ≠ s.onGoingEvtTyp.setWidth 32 then
    { s with
      onGoingEvtTyp := eventType.setWidth 8
      patPos := 0
      patLen := patternAt behind s.oneTimeEvtTyp.toNat 30 }
  else s

/-- The stages of a one-time event in `signalingEvent`. -/
def onetimeStage (s : SigStruct) : SigStruct × List Output :=
  if s.oneTimeEvtStat = 0 then
    ({ s with
      oneTimeEvtStat := 2, patPos := 0, patLen := patternAt behind s.oneTimeEvtTyp.toNat 30 }, [])
  else if s.oneTimeEvtStat = 1 then
    let s := { s with oneTimeEvtStat := 0, oneTimeEvtTyp := 0, patPos := 0 }
    (s, [signalingWriteOutput behind sigEventNone s])
  else if s.oneTimeEvtStat = 2 then
    let out := signalingWriteOutput behind s.oneTimeEvtTyp.toNat s
    let s := { s with patPos := s.patPos + 1 }
    (if s.patPos ≥ s.patLen then { s with oneTimeEvtStat := 1 } else s, [out])
  else (s, [])

/-- The step of the ongoing pattern. -/
def ongoingStep (s : SigStruct) : SigStruct × List Output :=
  let out := signalingWriteOutput behind s.onGoingEvtTyp.toNat s
  let s := { s with patPos := s.patPos + 1 }
  (if s.patPos ≥ 10 then { s with patPos := 0 } else s, [out])

/-- The light on the board. -/
def ledStep (s : SigStruct) : SigStruct × List Output :=
  if s.navStatus < ledStatusEnd then
    let out := .led (digitalSet s.debugLed1 ((ledState.getD s.navStatus []).getD s.navCnt.toNat 0))
    let s := { s with navCnt := s.navCnt + 1 }
    (if s.navCnt ≥ 20 then { s with navCnt := 0 } else s, [out])
  else (s, [])

def signalingEvent (s : SigStruct) : SigStruct × List Output :=
  if s.oneTimeEvtTyp ≠ 0 then onetimeStage behind s
  else
    let (s, outs) := ongoingStep behind s
    let (s, led) := ledStep s
    (s, outs ++ led)

end Functions

def signalingInit : SigStruct :=
  { debugLed1 := some .f9, ledPortR := some .e1, ledPortG := some .e3, ledPortB := some .e5
    onGoingEvtTyp := 1 }

/-! ## Runs -/

/-- A call of `signalingEvent` or of one of the setters, or a new `nav_status`. -/
inductive Event where
  | tick
  | onetime (eventType : BitVec 32)
  | ongoing (eventType : BitVec 32)
  | nav (status : Nat)
  deriving DecidableEq, Repr

def apply (behind : Nat → Byte) (s : SigStruct) : Event → SigStruct × List Output
  | .tick => signalingEvent behind s
  | .onetime e => signalingOnetimeEvent behind e s
  | .ongoing e => (signalingOnGoingEventSet behind e s, [])
  | .nav status => ({ s with navStatus := status }, [])

def next (behind : Nat → Byte) (s : SigStruct) (e : Event) : SigStruct := (apply behind s e).1

/-! ## Inside the table -/

/-- The entry of the table. -/
def entry (row col : Nat) : Byte := (sigPattern.getD row []).getD col 0

/-- Every value for a colour is 0 or 1, and every length is 10. -/
theorem entries : ∀ row < sigEventEnumEnd, entry row 30 = 10 ∧
    ∀ col < 30, entry row col = 0 ∨ entry row col = 1 := by
  decide +kernel

theorem patternAt_eq (behind : Nat → Byte) {row col : Nat} (hrow : row < sigEventEnumEnd)
    (hcol : col < 31) : patternAt behind row col = entry row col := by
  have hlt : row < sigPattern.length := hrow
  simp [patternAt, element, entry, Nat.div_eq_of_lt hcol, Nat.mod_eq_of_lt hcol,
    List.getElem?_eq_getElem hlt]

theorem patternAt_length (behind : Nat → Byte) {row : Nat} (hrow : row < sigEventEnumEnd) :
    patternAt behind row 30 = 10 := by
  rw [patternAt_eq behind hrow (by decide)]
  exact (entries row hrow).1

/-- An execution of `signalingWriteOutput` stays in its row: each colour is driven
from its own ten columns, with 0 or 1. -/
structure WithinRow (row patPos : Nat) (sets : List (Pin × Byte)) : Prop where
  rowLt : row < sigEventEnumEnd
  posLt : patPos < 10
  columns : sets = [(.e1, entry row patPos), (.e3, entry row (patPos + 10)),
    (.e5, entry row (patPos + 20))]
  binary : ∀ x ∈ sets, x.2 = 0 ∨ x.2 = 1

/-- The output for one column of a row, to the pins of the three colours. -/
def Output.column (row col : Nat) : Output :=
  .pattern row col [(.e1, entry row col), (.e3, entry row (col + 10)), (.e5, entry row (col + 20))]

/-- The three pins of the RGB light are set. -/
structure RgbPins (s : SigStruct) : Prop where
  red : s.ledPortR = some .e1
  green : s.ledPortG = some .e3
  blue : s.ledPortB = some .e5

theorem writeOutput_column (behind : Nat → Byte) {s : SigStruct} (h : RgbPins s) {row : Nat}
    (hrow : row < sigEventEnumEnd) (hpos : s.patPos.toNat < 10) :
    signalingWriteOutput behind row s = .column row s.patPos.toNat := by
  rw [signalingWriteOutput, Output.column, h.red, h.green, h.blue, patternAt_eq behind hrow (by omega),
    patternAt_eq behind hrow (by omega), patternAt_eq behind hrow (by omega)]
  rfl

def Output.Within : Output → Prop
  | .pattern row patPos sets => WithinRow row patPos sets
  | .led sets => ∀ x ∈ sets, x.2 = 0 ∨ x.2 = 1

/-- Every output of a step is within its row. -/
def WithinRows (behind : Nat → Byte) (s : SigStruct) (e : Event) : Prop :=
  ∀ out ∈ (apply behind s e).2, out.Within

/-- An ongoing event that is shown is one of the table, and no one-time event
is set when the pattern of another has been played to its end. -/
def ShowsTable (s : SigStruct) : Event → Prop
  | .tick => s.oneTimeEvtTyp = 0 → s.onGoingEvtTyp.toNat < sigEventEnumEnd
  | .onetime e => 0 ≤ e.toInt → e.toInt < sigEventEnumEnd → s.oneTimeEvtTyp ≠ 0 → s.patPos ≠ 10
  | .ongoing _ => True
  | .nav _ => True

/-- The state between two calls. The pattern position is 10 only in stage 1. -/
structure Staged (s : SigStruct) : Prop where
  pins : s.debugLed1 = some .f9 ∧ s.ledPortR = some .e1 ∧ s.ledPortG = some .e3 ∧
    s.ledPortB = some .e5
  typ : s.oneTimeEvtTyp.toNat < sigEventEnumEnd
  stat : s.oneTimeEvtStat = 0 ∨ s.oneTimeEvtStat = 1 ∨ s.oneTimeEvtStat = 2
  idle : s.oneTimeEvtTyp = 0 → s.oneTimeEvtStat = 0
  patPos : s.patPos.toNat ≤ 10
  playing : s.oneTimeEvtStat ≠ 1 → s.patPos.toNat < 10
  patLen : s.oneTimeEvtStat = 2 → s.patLen = 10
  navCnt : s.navCnt.toNat < 20

theorem staged_init : Staged signalingInit := by
  refine ⟨⟨rfl, rfl, rfl, rfl⟩, ?_, .inl rfl, fun _ => rfl, ?_, fun _ => ?_, ?_, ?_⟩ <;> decide

/-- **An output is within its row** exactly if its row is one of the table and the
position one of the pattern. -/
theorem within_writeOutput_iff (behind : Nat → Byte) {s : SigStruct} (h : Staged s) (row : Nat) :
    (signalingWriteOutput behind row s).Within ↔ row < sigEventEnumEnd ∧ s.patPos.toNat < 10 := by
  obtain ⟨-, hr, hg, hb⟩ := h.pins
  constructor
  · intro hw
    exact ⟨hw.rowLt, hw.posLt⟩
  · rintro ⟨hrow, hpos⟩
    rw [writeOutput_column behind ⟨hr, hg, hb⟩ hrow hpos]
    refine ⟨hrow, hpos, rfl, ?_⟩
    have hval := (entries row hrow).2
    simp only [List.forall_mem_cons, List.not_mem_nil, false_implies, implies_true, and_true]
    exact ⟨hval _ (by omega), hval _ (by omega), hval _ (by omega)⟩

theorem signalingEvent_active {behind : Nat → Byte} {s : SigStruct} (h : s.oneTimeEvtTyp ≠ 0) :
    signalingEvent behind s = onetimeStage behind s := if_pos h

theorem signalingEvent_idle {behind : Nat → Byte} {s : SigStruct} (h : s.oneTimeEvtTyp = 0) :
    signalingEvent behind s = ((ledStep (ongoingStep behind s).1).1,
      (ongoingStep behind s).2 ++ (ledStep (ongoingStep behind s).1).2) :=
  if_neg (not_not_intro h)

theorem onetimeStage_start {behind : Nat → Byte} {s : SigStruct} (h : s.oneTimeEvtStat = 0) :
    onetimeStage behind s = ({ s with
      oneTimeEvtStat := 2, patPos := 0, patLen := patternAt behind s.oneTimeEvtTyp.toNat 30 },
      []) := if_pos h

/-- The state after the clean-up. -/
def SigStruct.cleaned (s : SigStruct) : SigStruct :=
  { s with oneTimeEvtStat := 0, oneTimeEvtTyp := 0, patPos := 0 }

theorem onetimeStage_finish {behind : Nat → Byte} {s : SigStruct} (h : s.oneTimeEvtStat = 1) :
    onetimeStage behind s = (s.cleaned, [signalingWriteOutput behind sigEventNone s.cleaned]) := by
  rw [onetimeStage, if_neg (by simp [h]), if_pos h]
  rfl

theorem onetimeStage_play {behind : Nat → Byte} {s : SigStruct} (h : s.oneTimeEvtStat = 2) :
    onetimeStage behind s =
      (if s.patPos + 1 ≥ s.patLen then { s with patPos := s.patPos + 1, oneTimeEvtStat := 1 }
        else { s with patPos := s.patPos + 1 },
        [signalingWriteOutput behind s.oneTimeEvtTyp.toNat s]) := by
  rw [onetimeStage, if_neg (by simp [h]), if_neg (by simp [h]), if_pos h]

/-- The position after one more step of a pattern. -/
theorem toNat_succ {b : Byte} (h : b.toNat < 10) : (b + 1).toNat = b.toNat + 1 := by
  rw [BitVec.toNat_add]
  exact Nat.mod_eq_of_lt (by show b.toNat + 1 < 256; omega)

theorem staged_onetimeStage {behind : Nat → Byte} {s : SigStruct} (h : Staged s)
    (ht : s.oneTimeEvtTyp ≠ 0) : Staged (onetimeStage behind s).1 := by
  have h0 : (0 : Byte).toNat < 10 := by decide
  obtain hs | hs | hs := h.stat
  · rw [onetimeStage_start hs]
    exact ⟨h.pins, h.typ, .inr (.inr rfl), fun h' => absurd h' ht, by simp, fun _ => h0,
      fun _ => patternAt_length behind h.typ, h.navCnt⟩
  · rw [onetimeStage_finish hs]
    exact ⟨h.pins, by simp [SigStruct.cleaned, sigEventEnumEnd], .inl rfl, fun _ => rfl,
      by simp [SigStruct.cleaned], fun _ => h0, fun h' => absurd h' (by simp [SigStruct.cleaned]),
      h.navCnt⟩
  · have hpos := h.playing (by simp [hs])
    have hlen := h.patLen hs
    have hnext := toNat_succ hpos
    rw [onetimeStage_play hs]
    dsimp only
    by_cases hend : s.patPos + 1 ≥ s.patLen
    · rw [if_pos hend]
      exact ⟨h.pins, h.typ, .inr (.inl rfl), fun h' => absurd h' ht, by simp only; omega,
        fun h' => absurd rfl h', fun h' => absurd h' (by simp), h.navCnt⟩
    · rw [if_neg hend]
      have hlt : s.patPos.toNat + 1 < 10 := by
        rw [hlen, ge_iff_le, BitVec.le_def, hnext] at hend
        exact Nat.lt_of_not_le hend
      exact ⟨h.pins, h.typ, h.stat, h.idle, by simp only; omega, fun _ => by simp only; omega,
        h.patLen, h.navCnt⟩

/-- The step of the ongoing pattern moves the position. -/
theorem ongoingStep_eq (behind : Nat → Byte) (s : SigStruct) :
    ∃ pos, (ongoingStep behind s).1 = { s with patPos := pos } := by
  unfold ongoingStep
  dsimp only
  split
  · exact ⟨0, rfl⟩
  · exact ⟨s.patPos + 1, rfl⟩

theorem staged_ongoingStep {behind : Nat → Byte} {s : SigStruct} (h : Staged s)
    (ht : s.oneTimeEvtTyp = 0) : Staged (ongoingStep behind s).1 := by
  have hstat := h.idle ht
  have hnext := toNat_succ (h.playing (by simp [hstat]))
  have h0 : (0 : Byte).toNat < 10 := by decide
  rw [ongoingStep]
  dsimp only
  split
  · exact ⟨h.pins, h.typ, h.stat, h.idle, by simp, fun _ => h0, h.patLen, h.navCnt⟩
  · rename_i hend
    have hlt : s.patPos.toNat + 1 < 10 := by
      rw [ge_iff_le, BitVec.le_def, hnext] at hend
      exact Nat.lt_of_not_le hend
    exact ⟨h.pins, h.typ, h.stat, h.idle, by simp only; omega, fun _ => by simp only; omega,
      h.patLen, h.navCnt⟩

/-- The counter of the light goes round. -/
theorem ledStep_eq {s : SigStruct} (h : s.navCnt.toNat < 20) :
    ∃ n : Byte, (ledStep s).1 = { s with navCnt := n } ∧ n.toNat =
      if s.navStatus < ledStatusEnd then (s.navCnt.toNat + 1) % 20 else s.navCnt.toNat := by
  have hnext : (s.navCnt + 1).toNat = s.navCnt.toNat + 1 := by
    rw [BitVec.toNat_add]
    exact Nat.mod_eq_of_lt (by show s.navCnt.toNat + 1 < 256; omega)
  rw [ledStep]
  by_cases hnav : s.navStatus < ledStatusEnd
  · simp only [if_pos hnav]
    by_cases hend : s.navCnt + 1 ≥ 20
    · rw [if_pos hend]
      refine ⟨0, rfl, ?_⟩
      rw [ge_iff_le, BitVec.le_def, hnext] at hend
      have h20 : s.navCnt.toNat + 1 = 20 := Nat.le_antisymm h hend
      rw [h20]
      rfl
    · rw [if_neg hend]
      refine ⟨s.navCnt + 1, rfl, ?_⟩
      rw [ge_iff_le, BitVec.le_def, hnext] at hend
      have hlt : s.navCnt.toNat + 1 < 20 := Nat.lt_of_not_le hend
      rw [hnext, Nat.mod_eq_of_lt hlt]
  · simp only [if_neg hnav]
    exact ⟨s.navCnt, rfl, rfl⟩

theorem staged_ledStep {s : SigStruct} (h : Staged s) : Staged (ledStep s).1 := by
  obtain ⟨n, heq, hn⟩ := ledStep_eq h.navCnt
  have hlt : n.toNat < 20 := by
    rw [hn]
    split
    · exact Nat.mod_lt _ (by decide)
    · exact h.navCnt
  rw [heq]
  exact ⟨h.pins, h.typ, h.stat, h.idle, h.patPos, h.playing, h.patLen, hlt⟩

/-- An argument that the check lets through is a row of the table. -/
theorem toNat_setWidth_of_range {e : BitVec 32} (h0 : 0 ≤ e.toInt)
    (h : e.toInt < sigEventEnumEnd) : (e.setWidth 8).toNat < sigEventEnumEnd := by
  have hlt : e.toNat < sigEventEnumEnd := by
    rw [BitVec.toInt_eq_toNat_cond] at h0 h
    split at h <;> simp only [sigEventEnumEnd] at * <;> omega
  rw [BitVec.toNat_setWidth]
  exact Nat.lt_of_le_of_lt (Nat.mod_le _ _) hlt

theorem staged_next {behind : Nat → Byte} {s : SigStruct} {e : Event} (h : Staged s)
    (hg : ShowsTable s e) : Staged (next behind s e) := by
  cases e with
  | tick =>
    by_cases ht : s.oneTimeEvtTyp = 0
    · rw [next, apply, signalingEvent_idle ht]
      exact staged_ledStep (staged_ongoingStep h ht)
    · rw [next, apply, signalingEvent_active ht]
      exact staged_onetimeStage h ht
  | onetime e =>
    simp only [next, apply, signalingOnetimeEvent]
    split
    · exact h
    · rename_i hrange
      push Not at hrange
      have hpos : s.patPos.toNat < 10 := by
        by_cases ht : s.oneTimeEvtTyp = 0
        · exact h.playing (by simp [h.idle ht])
        · have hne : s.patPos ≠ 10 := hg hrange.1 hrange.2 ht
          have := h.patPos
          have : s.patPos.toNat ≠ 10 := fun h' => hne (BitVec.eq_of_toNat_eq h')
          omega
      exact ⟨h.pins, toNat_setWidth_of_range hrange.1 hrange.2, .inl rfl, fun _ => rfl, h.patPos,
        fun _ => hpos, fun h' => absurd h' (by simp), h.navCnt⟩
  | ongoing e =>
    simp only [next, apply, signalingOnGoingEventSet]
    split
    · exact ⟨h.pins, h.typ, h.stat, h.idle, by simp, fun _ => by simp,
        fun _ => patternAt_length behind h.typ, h.navCnt⟩
    · exact h
  | nav status => exact ⟨h.pins, h.typ, h.stat, h.idle, h.patPos, h.playing, h.patLen, h.navCnt⟩

theorem ledStates : ∀ row < ledStatusEnd, ∀ col < 20,
    (ledState.getD row []).getD col 0 = 0 ∨ (ledState.getD row []).getD col 0 = 1 := by
  decide

theorem within_ledStep {s : SigStruct} (h : s.navCnt.toNat < 20) :
    ∀ out ∈ (ledStep s).2, out.Within := by
  intro out hout
  by_cases hnav : s.navStatus < ledStatusEnd
  · simp only [ledStep, if_pos hnav, List.mem_singleton] at hout
    subst hout
    intro x hx
    obtain ⟨p, -, rfl⟩ := List.mem_map.mp hx
    exact ledStates _ hnav _ h
  · simp [ledStep, hnav] at hout

/-- **A step stays within its rows** exactly if what it shows is in the table. -/
theorem withinRows_iff {behind : Nat → Byte} {s : SigStruct} (h : Staged s) (e : Event) :
    WithinRows behind s e ↔ ShowsTable s e := by
  have hnone : sigEventNone < sigEventEnumEnd := by decide
  cases e with
  | tick =>
    by_cases ht : s.oneTimeEvtTyp = 0
    · have hlt := h.playing (by simp [h.idle ht])
      have hout := within_writeOutput_iff behind h s.onGoingEvtTyp.toNat
      have hled : ∀ out ∈ (ledStep (ongoingStep behind s).1).2, out.Within :=
        within_ledStep (staged_ongoingStep h ht).navCnt
      rw [WithinRows, apply, signalingEvent_idle ht]
      constructor
      · intro hw _
        exact (hout.mp (hw _ (List.mem_append_left _ (List.mem_singleton_self _)))).1
      · intro hrow out ho
        rcases List.mem_append.mp ho with ho | ho
        · rw [List.mem_singleton.mp ho]
          exact hout.mpr ⟨hrow ht, hlt⟩
        · exact hled out ho
    · refine iff_of_true (fun out hout => ?_) (fun h' => absurd h' ht)
      rw [apply, signalingEvent_active ht] at hout
      obtain hs | hs | hs := h.stat
      · rw [onetimeStage_start hs] at hout
        cases hout
      · have hst : Staged s.cleaned := by
          have hstage : Staged (onetimeStage behind s).1 := staged_onetimeStage h ht
          rwa [onetimeStage_finish hs] at hstage
        rw [onetimeStage_finish hs] at hout
        rw [List.mem_singleton.mp hout]
        exact (within_writeOutput_iff behind hst sigEventNone).mpr
          ⟨hnone, by simp [SigStruct.cleaned]⟩
      · rw [onetimeStage_play hs] at hout
        rw [List.mem_singleton.mp hout]
        exact (within_writeOutput_iff behind h _).mpr ⟨h.typ, h.playing (by simp [hs])⟩
  | onetime e =>
    have hout := within_writeOutput_iff behind h sigEventNone
    have hpos : s.patPos ≠ 10 ↔ s.patPos.toNat < 10 := by
      have hle := h.patPos
      rw [Ne, BitVec.toNat_eq]
      show ¬ s.patPos.toNat = 10 ↔ _
      omega
    simp only [WithinRows, apply, signalingOnetimeEvent, ShowsTable]
    by_cases hrange : e.toInt < 0 ∨ e.toInt ≥ sigEventEnumEnd
    · rw [if_pos hrange]
      refine iff_of_true (by simp) (fun h0 hlt => ?_)
      omega
    · rw [if_neg hrange]
      push Not at hrange
      by_cases ht : s.oneTimeEvtTyp = 0
      · simp [ht]
      · simp only [ne_eq, ht, not_false_eq_true, if_true, List.mem_singleton, forall_eq, hout,
          hrange.1, hrange.2, true_implies, hpos, hnone, true_and]
  | ongoing e => simp [WithinRows, apply, ShowsTable]
  | nav status => simp [WithinRows, apply, ShowsTable]

/-- **The lookups of the patterns**, exactly. -/
theorem within_rows_iff (behind : Nat → Byte) (es : List Event) :
    Along (fun s e => some (next behind s e)) (fun s e _ => WithinRows behind s e)
        signalingInit es ↔
      Along (fun s e => some (next behind s e)) (fun s e _ => ShowsTable s e)
        signalingInit es := by
  refine along_iff (fun s e t hi ht hg => ?_) (fun s e t hi _ => withinRows_iff hi e) es staged_init
  cases ht
  exact staged_next hi hg

/-- The last step of a one-time pattern has been played; another event is set. -/
def lateEvent : List Event := .onetime 15 :: List.replicate 11 .tick

/-- An ongoing event beyond the table is looked up behind it; and between the last
step of a pattern and its clean-up the length column is put out. -/
theorem patterns_leave_rows :
    ¬ Along (fun s e => some (next (fun _ => 0) s e)) (fun s e _ => WithinRows (fun _ => 0) s e)
        signalingInit [.ongoing 20, .tick] ∧
      ¬ Along (fun s e => some (next (fun _ => 0) s e)) (fun s e _ => WithinRows (fun _ => 0) s e)
        signalingInit (lateEvent ++ [.onetime 16]) := by
  constructor
  · intro h
    have hwithin := ((h _ rfl).2 _ rfl).1 _ List.mem_cons_self
    exact absurd hwithin.rowLt (by decide)
  · intro h
    have hrun : run (fun s e => some (next (fun _ => 0) s e)) signalingInit lateEvent =
        some { signalingInit with
          oneTimeEvtTyp := 15, oneTimeEvtStat := 1, patPos := 10, patLen := 10 } := by
      decide +kernel
    have hwithin := (((along_append _ _ _).mp h).2 _ hrun _ rfl).1 _ List.mem_cons_self
    exact absurd hwithin.posLt (by decide)

/-! ## One-time events are not disturbed -/

def Event.visible : Event → Bool
  | .ongoing _ => false
  | _ => true

/-- The events of a run, without the ongoing events set while a one-time event is active. -/
def outside (behind : Nat → Byte) : SigStruct → List Event → List Event
  | _, [] => []
  | s, e :: es =>
    if e.visible = false ∧ s.oneTimeEvtTyp ≠ 0 then outside behind (next behind s e) es
    else e :: outside behind (next behind s e) es

/-- What a tick shows of a one-time event: its outputs, and whether it ends there. -/
def shown (behind : Nat → Byte) (s : SigStruct) : Event → Option (Option (List Output × Bool))
  | .tick => some (if s.oneTimeEvtTyp ≠ 0 then
      some ((signalingEvent behind s).2, decide ((signalingEvent behind s).1.oneTimeEvtTyp = 0))
    else none)
  | _ => none

/-- A one-time pattern is being played. -/
def Playing (s : SigStruct) : Prop := s.oneTimeEvtTyp ≠ 0 ∧ s.oneTimeEvtStat = 2

instance (s : SigStruct) : Decidable (Playing s) := inferInstanceAs (Decidable (_ ∧ _))

/-- An ongoing event that is set while a one-time pattern is being played is the
one that is set already, unless the pattern is at its begin. -/
def NotRestarted (s : SigStruct) : Event → Prop
  | .ongoing e => Playing s → s.patPos = 0 ∨ e = s.onGoingEvtTyp.setWidth 32
  | _ => True

/-- Two states in the same stage of the same one-time event. -/
structure SameOnetime (behind : Nat → Byte) (s t : SigStruct) : Prop where
  pins : s.ledPortR = t.ledPortR ∧ s.ledPortG = t.ledPortG ∧ s.ledPortB = t.ledPortB
  typ : s.oneTimeEvtTyp = t.oneTimeEvtTyp
  stat : s.oneTimeEvtStat = t.oneTimeEvtStat
  stage : s.oneTimeEvtStat = 0 ∨ s.oneTimeEvtStat = 1 ∨ s.oneTimeEvtStat = 2
  patPos : Playing s → s.patPos = t.patPos
  patLen : Playing s → s.patLen = patternAt behind s.oneTimeEvtTyp.toNat 30 ∧
    t.patLen = patternAt behind s.oneTimeEvtTyp.toNat 30

theorem SameOnetime.symm {behind : Nat → Byte} {s t : SigStruct} (h : SameOnetime behind s t) :
    SameOnetime behind t s := by
  have hplay (hp : Playing t) : Playing s := ⟨h.typ ▸ hp.1, h.stat.trans hp.2⟩
  refine ⟨⟨h.pins.1.symm, h.pins.2.1.symm, h.pins.2.2.symm⟩, h.typ.symm, h.stat.symm,
    h.stat ▸ h.stage, fun hp => (h.patPos (hplay hp)).symm, fun hp => ?_⟩
  rw [← h.typ]
  exact (h.patLen (hplay hp)).symm

theorem SameOnetime.writeOutput {behind : Nat → Byte} {s t : SigStruct}
    (h : SameOnetime behind s t) (hpos : s.patPos = t.patPos) (row : Nat) :
    signalingWriteOutput behind row s = signalingWriteOutput behind row t := by
  obtain ⟨hr, hg, hb⟩ := h.pins
  simp only [signalingWriteOutput, hpos, hr, hg, hb]

/-- The stages go on together, with the same outputs. -/
theorem SameOnetime.stages {behind : Nat → Byte} {s t : SigStruct} (h : SameOnetime behind s t)
    (ht : s.oneTimeEvtTyp ≠ 0) :
    SameOnetime behind (onetimeStage behind s).1 (onetimeStage behind t).1 ∧
      (onetimeStage behind s).2 = (onetimeStage behind t).2 := by
  obtain h0 | h1 | h2 := h.stage
  · rw [onetimeStage_start h0, onetimeStage_start (h.stat.symm.trans h0), ← h.typ]
    exact ⟨⟨h.pins, rfl, rfl, .inr (.inr rfl), fun _ => rfl, fun _ => ⟨rfl, rfl⟩⟩, rfl⟩
  · rw [onetimeStage_finish h1, onetimeStage_finish (h.stat.symm.trans h1)]
    have hoff : SameOnetime behind s.cleaned t.cleaned :=
      ⟨h.pins, rfl, rfl, .inl rfl, fun _ => rfl, fun hp => absurd rfl hp.1⟩
    exact ⟨hoff, congrArg (fun out => [out]) (hoff.writeOutput rfl sigEventNone)⟩
  · have hpos := h.patPos ⟨ht, h2⟩
    obtain ⟨hlen, hlen'⟩ := h.patLen ⟨ht, h2⟩
    have hout := h.writeOutput hpos s.oneTimeEvtTyp.toNat
    rw [onetimeStage_play h2, onetimeStage_play (h.stat.symm.trans h2), ← h.typ, ← hpos, hlen,
      hlen', hout]
    refine ⟨?_, rfl⟩
    dsimp only
    split
    · exact ⟨h.pins, rfl, rfl, .inr (.inl rfl), fun _ => rfl, fun _ => ⟨rfl, rfl⟩⟩
    · exact ⟨h.pins, rfl, h.stat, h.stage, fun _ => rfl, fun _ => ⟨rfl, rfl⟩⟩

/-- The light on the board has its own counter. -/
theorem ledStep_navCnt (s : SigStruct) : ∃ cnt, (ledStep s).1 = { s with navCnt := cnt } := by
  unfold ledStep
  split
  · dsimp only
    split
    · exact ⟨0, rfl⟩
    · exact ⟨s.navCnt + 1, rfl⟩
  · exact ⟨s.navCnt, rfl⟩

/-- Without a one-time event a call leaves its pins and stage as they are. -/
theorem signalingEvent_idle_fields (behind : Nat → Byte) {s : SigStruct}
    (h : s.oneTimeEvtTyp = 0) :
    ∃ pos cnt, (signalingEvent behind s).1 = { s with patPos := pos, navCnt := cnt } := by
  obtain ⟨pos, hpos⟩ := ongoingStep_eq behind s
  obtain ⟨cnt, hcnt⟩ := ledStep_navCnt (ongoingStep behind s).1
  refine ⟨pos, cnt, ?_⟩
  rw [signalingEvent_idle h, hcnt, hpos]

theorem unwinds (behind : Nat → Byte) :
    Unwinds (next behind) (shown behind) Event.visible NotRestarted (SameOnetime behind) where
  symm h := h.symm
  seen := by
    intro s t e h hv
    cases e with
    | ongoing e => cases hv
    | nav status =>
      exact ⟨⟨h.pins, h.typ, h.stat, h.stage, h.patPos, h.patLen⟩, rfl⟩
    | onetime e =>
      refine ⟨?_, rfl⟩
      simp only [next, apply, signalingOnetimeEvent]
      split
      · exact h
      · exact ⟨h.pins, rfl, rfl, .inl rfl, fun hp => absurd hp.2 (by simp),
          fun hp => absurd hp.2 (by simp)⟩
    | tick =>
      simp only [next, apply, shown]
      by_cases ht : s.oneTimeEvtTyp = 0
      · have ht' : t.oneTimeEvtTyp = 0 := h.typ ▸ ht
        refine ⟨?_, by simp [ht, ht']⟩
        obtain ⟨_, _, hs⟩ := signalingEvent_idle_fields behind ht
        obtain ⟨_, _, ht'⟩ := signalingEvent_idle_fields behind ht'
        rw [hs, ht']
        exact ⟨h.pins, h.typ, h.stat, h.stage, fun hp => absurd ht hp.1, fun hp => absurd ht hp.1⟩
      · have ht' : t.oneTimeEvtTyp ≠ 0 := h.typ ▸ ht
        obtain ⟨hstage, hout⟩ := h.stages ht
        rw [signalingEvent_active ht, signalingEvent_active ht', hout, hstage.typ]
        exact ⟨hstage, by rw [if_pos ht, if_pos ht']⟩
  hidden := by
    intro s t e h hv hg
    cases e with
    | tick => cases hv
    | onetime e => cases hv
    | nav status => cases hv
    | ongoing e =>
      simp only [next, apply, signalingOnGoingEventSet]
      split
      · rename_i hne
        refine ⟨h.pins, h.typ, h.stat, h.stage, fun hp => ?_, fun hp => ⟨rfl, (h.patLen hp).2⟩⟩
        exact ((hg hp).resolve_right hne).symm.trans (h.patPos hp)
      · exact h
  silent := by
    intro s e hv
    cases e with
    | ongoing e => rfl
    | tick => cases hv
    | onetime e => cases hv
    | nav status => cases hv

/-- Runs that agree outside the one-time events agree in their visible events. -/
theorem filter_outside (behind : Nat → Byte) (s : SigStruct) (es : List Event) :
    (outside behind s es).filter Event.visible = es.filter Event.visible := by
  induction es generalizing s with
  | nil => rfl
  | cons e es ih =>
    rw [outside]
    split
    · rename_i h
      rw [ih, List.filter_cons_of_neg (by simp [h.1])]
    · cases hv : e.visible with
      | true => rw [List.filter_cons_of_pos hv, List.filter_cons_of_pos hv, ih]
      | false =>
        rw [List.filter_cons_of_neg (by simp [hv]), List.filter_cons_of_neg (by simp [hv]), ih]

/-- **A one-time event is not disturbed** by ongoing events, in any two runs that
differ only in those set while a one-time event is active, as long as none of
them starts the pattern again. -/
theorem onetime_undisturbed (behind : Nat → Byte) {es fs : List Event}
    (hsame : outside behind signalingInit es = outside behind signalingInit fs)
    (hes : Meets (next behind) NotRestarted signalingInit es)
    (hfs : Meets (next behind) NotRestarted signalingInit fs) :
    observed (next behind) (shown behind) signalingInit es =
      observed (next behind) (shown behind) signalingInit fs := by
  have hstart : SameOnetime behind signalingInit signalingInit :=
    ⟨⟨rfl, rfl, rfl⟩, rfl, rfl, .inl rfl, fun _ => rfl, fun hp => absurd rfl hp.1⟩
  refine observed_eq (unwinds behind) hstart ?_ hes hfs
  rw [← filter_outside behind signalingInit es, hsame, filter_outside]

/-- A status that is set again, and one that is set at the begin of the pattern. -/
theorem onetime_undisturbed_at_begin :
    observed (next fun _ => 0) (shown fun _ => 0) signalingInit
        [.onetime 15, .tick, .ongoing 2, .tick, .ongoing 2, .tick] =
      observed (next fun _ => 0) (shown fun _ => 0) signalingInit
        [.onetime 15, .tick, .tick, .tick] := by
  refine onetime_undisturbed (fun _ => 0) (by decide +kernel) ?_ ?_
  · exact meets_cons.mpr ⟨trivial, meets_cons.mpr ⟨trivial, meets_cons.mpr ⟨fun _ => .inl rfl,
      meets_cons.mpr ⟨trivial, meets_cons.mpr ⟨fun _ => .inr rfl,
        meets_cons.mpr ⟨trivial, trivial⟩⟩⟩⟩⟩⟩
  · exact meets_cons.mpr ⟨trivial, meets_cons.mpr ⟨trivial, meets_cons.mpr ⟨trivial,
      meets_cons.mpr ⟨trivial, trivial⟩⟩⟩⟩

/-- Arguments that name an event of the table or a state of the light. -/
def Event.Valid : Event → Prop
  | .tick => True
  | .onetime e => 0 ≤ e.toInt ∧ e.toInt < sigEventEnumEnd
  | .ongoing e => 0 ≤ e.toInt ∧ e.toInt < sigEventEnumEnd
  | .nav status => status < ledStatusEnd

instance : (e : Event) → Decidable e.Valid
  | .tick => .isTrue trivial
  | .onetime _ => inferInstanceAs (Decidable (_ ∧ _))
  | .ongoing _ => inferInstanceAs (Decidable (_ ∧ _))
  | .nav _ => inferInstanceAs (Decidable (_ < _))

/-- An ongoing event set after two steps starts the one-time pattern again. -/
theorem ongoing_restarts_onetime :
    ¬ ∀ es fs : List Event, (∀ e ∈ es, e.Valid) → (∀ e ∈ fs, e.Valid) →
      outside (fun _ => 0) signalingInit es = outside (fun _ => 0) signalingInit fs →
        observed (next fun _ => 0) (shown fun _ => 0) signalingInit es =
          observed (next fun _ => 0) (shown fun _ => 0) signalingInit fs := by
  intro h
  have hsame := h [.onetime 15, .tick, .tick, .tick, .ongoing 2, .tick]
    [.onetime 15, .tick, .tick, .tick, .tick] (by decide) (by decide) (by decide +kernel)
  revert hsame
  decide +kernel

/-! ## The light on the board -/

/-- The lights and the number of calls of `signalingEvent` so far. -/
structure Board where
  sig : SigStruct
  calls : Nat

def step (behind : Nat → Byte) (s : Board) (e : Event) : Option Board :=
  if e.Valid then some ⟨next behind s.sig e, if e = .tick then s.calls + 1 else s.calls⟩
  else none

/-- What a call writes to the light on the board. -/
def ledWrites (outs : List Output) : List (Pin × Byte) :=
  outs.flatMap fun
    | .pattern _ _ _ => []
    | .led sets => sets

/-- The `k`-th call writes the value of the step `k mod 20` of the cycle. -/
def LedCycle (behind : Nat → Byte) (s : Board) (e : Event) : Prop :=
  e = .tick → ledWrites (signalingEvent behind s.sig).2 =
    [(.f9, (ledState.getD s.sig.navStatus []).getD (s.calls % 20) 0)]

/-- No one-time event is active at a call. -/
def NoOnetime (s : Board) (e : Event) : Prop := e = .tick → s.sig.oneTimeEvtTyp = 0

/-- The counter of the light is in step with the calls. -/
structure InCycle (s : Board) : Prop where
  pin : s.sig.debugLed1 = some .f9
  navStatus : s.sig.navStatus < ledStatusEnd
  navCnt : s.sig.navCnt.toNat = s.calls % 20

/-- A call writes the light unless a one-time event is active. -/
theorem ledCycle_iff {behind : Nat → Byte} {s : Board} (h : InCycle s) (e : Event) :
    LedCycle behind s e ↔ NoOnetime s e := by
  refine imp_congr_right fun _ => ?_
  by_cases ht : s.sig.oneTimeEvtTyp = 0
  · refine iff_of_true ?_ ht
    obtain ⟨pos, hpos⟩ := ongoingStep_eq behind s.sig
    rw [signalingEvent_idle ht, hpos, ← h.navCnt]
    simp only [ledStep, if_pos h.navStatus, h.pin]
    rfl
  · refine iff_of_false (fun hled => ?_) ht
    have hnone : ledWrites (onetimeStage behind s.sig).2 = [] := by
      unfold onetimeStage
      split
      · rfl
      · split
        · rfl
        · split <;> rfl
    rw [signalingEvent_active ht, hnone] at hled
    cases hled

theorem inCycle_step {behind : Nat → Byte} {s t : Board} {e : Event} (h : InCycle s)
    (ht : step behind s e = some t) (hg : NoOnetime s e) : InCycle t := by
  obtain ⟨hvalid, ht⟩ := Option.ite_none_right_eq_some.mp ht
  cases ht
  cases e with
  | tick =>
    have hidle := hg rfl
    obtain ⟨pos, hpos⟩ := ongoingStep_eq behind s.sig
    have hcnt : s.sig.navCnt.toNat < 20 := by
      rw [h.navCnt]
      exact Nat.mod_lt _ (by decide)
    obtain ⟨n, heq, hn⟩ := ledStep_eq (s := { s.sig with patPos := pos }) hcnt
    rw [next, apply, signalingEvent_idle hidle, hpos, heq]
    refine ⟨h.pin, h.navStatus, ?_⟩
    rw [if_pos h.navStatus, h.navCnt] at hn
    rw [hn, if_pos rfl, Nat.mod_add_mod]
  | onetime e =>
    simp only [next, apply, signalingOnetimeEvent]
    split <;> exact ⟨h.pin, h.navStatus, h.navCnt⟩
  | ongoing e =>
    simp only [next, apply, signalingOnGoingEventSet]
    split <;> exact ⟨h.pin, h.navStatus, h.navCnt⟩
  | nav status => exact ⟨h.pin, hvalid, h.navCnt⟩

/-- **The cycle of the light**, exactly. -/
theorem led_cycle_iff (behind : Nat → Byte) (es : List Event) :
    Along (step behind) (fun s e _ => LedCycle behind s e) ⟨signalingInit, 0⟩ es ↔
      Along (step behind) (fun s e _ => NoOnetime s e) ⟨signalingInit, 0⟩ es :=
  along_iff (fun _ _ _ hi ht hg => inCycle_step hi ht hg) (fun _ e _ hi _ => ledCycle_iff hi e) es
    ⟨rfl, by decide, rfl⟩

/-- While a one-time event is active the light is not written. -/
theorem led_stops_for_onetime :
    ¬ Along (step fun _ => 0) (fun s e _ => LedCycle (fun _ => 0) s e) ⟨signalingInit, 0⟩
      [.onetime 15, .tick] := by
  intro h
  have hcycle := ((h _ rfl).2 _ rfl).1 rfl
  cases hcycle

/-! ## A one-time event plays once -/

/-- The event types of the table. -/
def Event.InTable : Event → Prop
  | .onetime e | .ongoing e => 0 ≤ e.toInt ∧ e.toInt < sigEventEnumEnd
  | .tick | .nav _ => True

def Output.isRgb : Output → Bool
  | .pattern _ _ _ => true
  | .led _ => false

/-- What a call writes to the RGB light. -/
def rgb (outs : List Output) : List Output := outs.filter Output.isRgb

/-- Call number `n` after a one-time event is set, from 0. -/
def schedule (onetime ongoing n : Nat) : List Output :=
  if n = 0 then []
  else if n ≤ 10 then [.column onetime (n - 1)]
  else if n = 11 then [.pattern sigEventNone 0 [(.e1, 0), (.e3, 0), (.e5, 0)]]
  else [.column ongoing ((n - 12) % 10)]

/-- The state before call number `n`. -/
inductive Staying (typ : Byte) (s : SigStruct) : Nat → Prop where
  | set (htyp : s.oneTimeEvtTyp = typ) (hstat : s.oneTimeEvtStat = 0) : Staying typ s 0
  | playing (k : Nat) (hk : k < 10) (htyp : s.oneTimeEvtTyp = typ) (hstat : s.oneTimeEvtStat = 2)
      (hpos : s.patPos.toNat = k) (hlen : s.patLen = 10) : Staying typ s (k + 1)
  | played (htyp : s.oneTimeEvtTyp = typ) (hstat : s.oneTimeEvtStat = 1) : Staying typ s 11
  | back (m : Nat) (htyp : s.oneTimeEvtTyp = 0) (hpos : s.patPos.toNat = m % 10) :
      Staying typ s (m + 12)

/-- The ongoing event is one of the table. -/
structure Shows (s : SigStruct) (ongoing : Byte) : Prop where
  pins : RgbPins s
  onGoing : s.onGoingEvtTyp = ongoing
  inTable : ongoing.toNat < sigEventEnumEnd

theorem shows_tick {behind : Nat → Byte} {s : SigStruct} {ongoing : Byte} (h : Shows s ongoing) :
    Shows (signalingEvent behind s).1 ongoing := by
  obtain ⟨⟨hr, hg, hb⟩, hon, hin⟩ := h
  by_cases ht : s.oneTimeEvtTyp = 0
  · obtain ⟨pos, cnt, heq⟩ := signalingEvent_idle_fields behind ht
    rw [heq]
    exact ⟨⟨hr, hg, hb⟩, hon, hin⟩
  · rw [signalingEvent_active ht]
    unfold onetimeStage
    repeat' split
    all_goals first | exact ⟨⟨hr, hg, hb⟩, hon, hin⟩ | skip
    dsimp only
    split <;> exact ⟨⟨hr, hg, hb⟩, hon, hin⟩

theorem rgb_ledStep (s : SigStruct) : rgb (ledStep s).2 = [] := by
  rw [ledStep]
  split <;> rfl

/-- The ongoing pattern goes to its next column, round the ten of them. -/
theorem ongoingStep_pos (behind : Nat → Byte) {s : SigStruct} {m : Nat}
    (hpos : s.patPos.toNat = m % 10) :
    ∃ pos : Byte, (ongoingStep behind s).1 = { s with patPos := pos } ∧
      pos.toNat = (m + 1) % 10 := by
  have hlt : s.patPos.toNat < 10 := hpos ▸ Nat.mod_lt _ (by decide)
  have hnext := toNat_succ hlt
  rw [ongoingStep]
  dsimp only
  split
  · rename_i hend
    rw [ge_iff_le, BitVec.le_def, hnext] at hend
    have hend : 10 ≤ s.patPos.toNat + 1 := hend
    refine ⟨0, rfl, ?_⟩
    show 0 = (m + 1) % 10
    omega
  · rename_i hend
    rw [ge_iff_le, BitVec.le_def, hnext] at hend
    have hend : ¬ 10 ≤ s.patPos.toNat + 1 := hend
    refine ⟨s.patPos + 1, rfl, ?_⟩
    omega

/-- **One call** shows what is due and leaves the state of the next. -/
theorem staying_tick {behind : Nat → Byte} {typ ongoing : Byte} {s : SigStruct} {n : Nat}
    (htyp : typ ≠ 0) (hrow : typ.toNat < sigEventEnumEnd) (h : Staying typ s n)
    (hs : Shows s ongoing) :
    Staying typ (signalingEvent behind s).1 (n + 1) ∧
      rgb (signalingEvent behind s).2 = schedule typ.toNat ongoing.toNat n := by
  cases h with
  | set ht hstat =>
    have hlen : patternAt behind s.oneTimeEvtTyp.toNat 30 = 10 :=
      patternAt_length behind (ht ▸ hrow)
    rw [signalingEvent_active (ht ▸ htyp), onetimeStage_start hstat]
    exact ⟨.playing 0 (by decide) ht rfl rfl hlen, rfl⟩
  | playing k hk ht hstat hpos hlen =>
    have hlt : s.patPos.toNat < 10 := hpos ▸ hk
    have hnext : (s.patPos + 1).toNat = k + 1 := hpos ▸ toNat_succ hlt
    have hdue : schedule typ.toNat ongoing.toNat (k + 1) = [.column typ.toNat k] := by
      rw [schedule, if_neg (Nat.succ_ne_zero k), if_pos (Nat.succ_le_of_lt hk), Nat.add_sub_cancel]
    have hend : s.patPos + 1 ≥ s.patLen ↔ k = 9 := by
      rw [hlen, ge_iff_le, BitVec.le_def, hnext]
      show 10 ≤ k + 1 ↔ k = 9
      omega
    rw [signalingEvent_active (ht ▸ htyp), onetimeStage_play hstat, hdue,
      writeOutput_column behind hs.pins (ht ▸ hrow) hlt, ht, hpos]
    refine ⟨?_, rfl⟩
    by_cases hk9 : k = 9
    · subst hk9
      rw [if_pos (hend.mpr rfl)]
      exact .played rfl rfl
    · rw [if_neg (mt hend.mp hk9)]
      exact .playing (k + 1) (by omega) rfl hstat hnext hlen
  | played ht hstat =>
    have hcleaned : RgbPins s.cleaned := ⟨hs.pins.1, hs.pins.2, hs.pins.3⟩
    rw [signalingEvent_active (ht ▸ htyp), onetimeStage_finish hstat,
      writeOutput_column behind hcleaned (by decide) (by simp [SigStruct.cleaned])]
    exact ⟨.back 0 rfl rfl, rfl⟩
  | back m ht hpos =>
    have hlt : s.patPos.toNat < 10 := hpos ▸ Nat.mod_lt _ (by decide)
    have hout : (ongoingStep behind s).2 = [.column ongoing.toNat (m % 10)] := by
      rw [← hpos, ← hs.onGoing, ← writeOutput_column behind hs.pins (hs.onGoing ▸ hs.inTable) hlt]
      rfl
    have hdue : schedule typ.toNat ongoing.toNat (m + 12) = [.column ongoing.toNat (m % 10)] := by
      rw [schedule, if_neg (by omega), if_neg (by omega), if_neg (by omega), Nat.add_sub_cancel]
    obtain ⟨pos, hstep, hnext⟩ := ongoingStep_pos behind hpos
    obtain ⟨cnt, hcnt⟩ := ledStep_navCnt (ongoingStep behind s).1
    rw [signalingEvent_idle ht, hcnt, hstep, hout, hdue]
    refine ⟨.back (m + 1) ht hnext, ?_⟩
    rw [rgb, List.filter_append, ← rgb, ← rgb, rgb_ledStep, List.append_nil]
    rfl

/-- The calls after a one-time event, one after the other. -/
theorem staying_ticks {behind : Nat → Byte} {typ ongoing : Byte} {s : SigStruct}
    (htyp : typ ≠ 0) (hrow : typ.toNat < sigEventEnumEnd) (h : Staying typ s 0)
    (hs : Shows s ongoing) (n : Nat) :
    Staying typ ((fun s => next behind s .tick)^[n] s) n ∧
      Shows ((fun s => next behind s .tick)^[n] s) ongoing := by
  induction n with
  | zero => exact ⟨h, hs⟩
  | succ n ih =>
    rw [Function.iterate_succ_apply']
    exact ⟨(staying_tick htyp hrow ih.1 ih.2).1, shows_tick ih.2⟩

/-- Events of the table leave an ongoing event of the table. -/
theorem shows_next (behind : Nat → Byte) {s : SigStruct} {ongoing : Byte} {e : Event}
    (h : Shows s ongoing) (he : e.InTable) : ∃ ongoing', Shows (next behind s e) ongoing' := by
  obtain ⟨⟨hr, hg, hb⟩, hon, hin⟩ := h
  cases e with
  | nav status => exact ⟨ongoing, ⟨hr, hg, hb⟩, hon, hin⟩
  | onetime e =>
    refine ⟨ongoing, ?_⟩
    simp only [next, apply, signalingOnetimeEvent]
    split <;> exact ⟨⟨hr, hg, hb⟩, hon, hin⟩
  | ongoing e =>
    simp only [next, apply, signalingOnGoingEventSet]
    split
    · exact ⟨e.setWidth 8, ⟨hr, hg, hb⟩, rfl, toNat_setWidth_of_range he.1 he.2⟩
    · exact ⟨ongoing, ⟨hr, hg, hb⟩, hon, hin⟩
  | tick => exact ⟨ongoing, shows_tick ⟨⟨hr, hg, hb⟩, hon, hin⟩⟩

/-- The state after events of the table. -/
theorem shows_run (behind : Nat → Byte) {es : List Event} (hes : ∀ ev ∈ es, ev.InTable)
    {s : SigStruct} {ongoing : Byte} (hs : Shows s ongoing) :
    ∃ ongoing', Shows (es.foldl (next behind) s) ongoing' := by
  induction es generalizing s ongoing with
  | nil => exact ⟨ongoing, hs⟩
  | cons ev es ih =>
    obtain ⟨ongoing', hs'⟩ := shows_next behind hs (hes ev List.mem_cons_self)
    exact ih (fun ev' h => hes ev' (List.mem_cons_of_mem ev h)) hs'

/-- A one-time event of the table starts from its begin, whatever was there. -/
theorem staying_onetime (behind : Nat → Byte) {s : SigStruct} {e : BitVec 32} (h0 : 0 ≤ e.toInt)
    (hlt : e.toInt < sigEventEnumEnd) :
    Staying (e.setWidth 8) (next behind s (.onetime e)) 0 := by
  have hrange : ¬ (e.toInt < 0 ∨ e.toInt ≥ sigEventEnumEnd) := by omega
  simp only [next, apply, signalingOnetimeEvent, if_neg hrange]
  exact .set rfl rfl

/-- **A one-time event plays once, in full, and hands back** to the ongoing event. -/
theorem onetime_plays (behind : Nat → Byte) {es : List Event} (hes : ∀ ev ∈ es, ev.InTable)
    {e : BitVec 32} (h0 : 0 < e.toInt) (hlt : e.toInt < sigEventEnumEnd) (n : Nat) :
    rgb (signalingEvent behind ((fun s => next behind s .tick)^[n]
        (next behind (es.foldl (next behind) signalingInit) (.onetime e)))).2 =
      schedule e.toNat (es.foldl (next behind) signalingInit).onGoingEvtTyp.toNat n := by
  have hrow : e.toNat < sigEventEnumEnd ∧ 0 < e.toNat := by
    rw [BitVec.toInt_eq_toNat_cond] at h0 hlt
    split at h0 <;> simp only [sigEventEnumEnd] at * <;> omega
  have h8 : (e.setWidth 8).toNat = e.toNat := by
    rw [BitVec.toNat_setWidth]
    exact Nat.mod_eq_of_lt (Nat.lt_trans hrow.1 (by decide))
  have hne : e.setWidth 8 ≠ 0 := fun h => by
    have hzero : (e.setWidth 8).toNat = 0 := congrArg BitVec.toNat h
    omega
  have hinit : Shows signalingInit 1 := ⟨⟨rfl, rfl, rfl⟩, rfl, by decide⟩
  obtain ⟨ongoing, hs⟩ := shows_run behind hes hinit
  have hs' : Shows (next behind (es.foldl (next behind) signalingInit) (.onetime e)) ongoing := by
    obtain ⟨⟨hr, hg, hb⟩, hon, hin⟩ := hs
    simp only [next, apply, signalingOnetimeEvent]
    split <;> exact ⟨⟨hr, hg, hb⟩, hon, hin⟩
  obtain ⟨hstay, hshows⟩ :=
    staying_ticks hne (h8 ▸ hrow.1) (staying_onetime behind (Int.le_of_lt h0) hlt) hs' n
  rw [(staying_tick hne (h8 ▸ hrow.1) hstay hshows).2, h8, hs.onGoing]

/-- A second event that comes when the first has just been played. -/
theorem onetime_plays_preempting :
    rgb (signalingEvent (fun _ => 0) ((fun s => next (fun _ => 0) s .tick)^[12]
        (next (fun _ => 0) (lateEvent.foldl (next fun _ => 0) signalingInit) (.onetime 16)))).2 =
      schedule 16 1 12 :=
  @onetime_plays (fun _ => 0) lateEvent (fun ev hev => by
    obtain rfl | ⟨-, rfl⟩ := List.mem_cons.mp hev |>.imp_right List.mem_replicate.mp
    · exact ⟨by decide, by decide⟩
    · trivial) 16 (by decide) (by decide) 12

end MqttDevice.Signaling
