import Mathlib.Tactic

/-!
# Byte memories

A memory is a function from offsets to bytes. A range is a start and a number of
bytes.

* `memcpy_inside`, `memcpy_outside`: what a copy changes and what it does not;
* `load32_store32`, `load16_store16`: a little-endian word or half-word is read back;
* `load32_congr`, `load16_congr`, `bytes_congr`: reads depend on their own range only.
-/

namespace MqttDevice.Memory

abbrev Mem := Nat → BitVec 8

/-- `count` bytes from `start` on. -/
def bytes (m : Mem) (start count : Nat) : List (BitVec 8) :=
  (List.range count).map fun k => m (start + k)

/-- `memcpy(dst, src, count)`; the source is a memory of its own. -/
def memcpy (m : Mem) (dst : Nat) (src : Mem) (count : Nat) : Mem := fun o =>
  if dst ≤ o ∧ o < dst + count then src (o - dst) else m o

/-- The byte `k` of a word. -/
def byteOf (w : BitVec 32) (k : Nat) : BitVec 8 := (w >>> (8 * k)).setWidth 8

/-- The word at `at`, little-endian. -/
def load32 (m : Mem) (start : Nat) : BitVec 32 :=
  m (start + 3) ++ m (start + 2) ++ m (start + 1) ++ m start

def store32 (m : Mem) (start : Nat) (w : BitVec 32) : Mem := memcpy m start (byteOf w) 4

/-- The half-word at `start`, little-endian. -/
def load16 (m : Mem) (start : Nat) : Nat := (m start).toNat + 256 * (m (start + 1)).toNat

def store16 (m : Mem) (start n : Nat) : Mem :=
  Function.update (Function.update m start (BitVec.ofNat 8 n)) (start + 1)
    (BitVec.ofNat 8 (n / 256))

@[simp] theorem length_bytes (m : Mem) (start count : Nat) :
    (bytes m start count).length = count := by
  simp [bytes]

theorem bytes_eq_iff {m m' : Mem} {start start' count : Nat} :
    bytes m start count = bytes m' start' count ↔ ∀ k < count, m (start + k) = m' (start' + k) := by
  simp [bytes]

theorem bytes_congr {m m' : Mem} {start start' count : Nat}
    (h : ∀ k < count, m (start + k) = m' (start' + k)) :
    bytes m start count = bytes m' start' count := bytes_eq_iff.mpr h

/-- A memory that holds a list. -/
theorem bytes_eq_of_getD {m : Mem} {start : Nat} {l : List (BitVec 8)}
    (h : ∀ k < l.length, m (start + k) = l.getD k 0) : bytes m start l.length = l := by
  apply List.ext_getElem (by simp [bytes])
  intro k _ hk
  have hmem : m (start + k) = l[k] := by rw [h k hk, List.getD_eq_getElem?_getD,
    List.getElem?_eq_getElem hk, Option.getD_some]
  simp [bytes, hmem]

theorem mem_bytes {m : Mem} {start count : Nat} {b : BitVec 8} :
    b ∈ bytes m start count ↔ ∃ k < count, m (start + k) = b := by
  simp [bytes]

theorem bytes_snoc (m : Mem) (start count : Nat) :
    bytes m start (count + 1) = bytes m start count ++ [m (start + count)] := by
  simp [bytes, List.range_succ]

theorem bytes_add (m : Mem) (start a b : Nat) :
    bytes m start (a + b) = bytes m start a ++ bytes m (start + a) b := by
  simp [bytes, List.range_add, Nat.add_assoc]

theorem take_bytes (m : Mem) (start : Nat) {n count : Nat} (h : n ≤ count) :
    (bytes m start count).take n = bytes m start n := by
  rw [bytes, ← List.map_take, List.take_range, Nat.min_eq_left h]
  rfl

theorem memcpy_inside (m : Mem) (dst : Nat) (src : Mem) {k count : Nat} (h : k < count) :
    memcpy m dst src count (dst + k) = src k := by
  rw [memcpy, if_pos ⟨Nat.le_add_right dst k, Nat.add_lt_add_left h dst⟩, Nat.add_sub_cancel_left]

theorem memcpy_outside (m : Mem) {dst : Nat} (src : Mem) {count o : Nat}
    (h : o < dst ∨ dst + count ≤ o) : memcpy m dst src count o = m o := by
  refine if_neg fun hin => ?_
  omega

/-- A copy is read back. -/
theorem bytes_memcpy (m : Mem) (dst : Nat) (src : Mem) (count : Nat) :
    bytes (memcpy m dst src count) dst count = bytes src 0 count :=
  bytes_congr fun k hk => by rw [memcpy_inside m dst src hk, Nat.zero_add]

theorem load32_congr {m m' : Mem} {start : Nat}
    (h : ∀ k < 4, m (start + k) = m' (start + k)) : load32 m start = load32 m' start := by
  have h0 : m start = m' start := h 0 (by decide)
  rw [load32, load32, h 3 (by decide), h 2 (by decide), h 1 (by decide), h0]

theorem byteOf_append (w : BitVec 32) :
    byteOf w 3 ++ byteOf w 2 ++ byteOf w 1 ++ byteOf w 0 = w := by
  ext i hi
  simp [byteOf]
  grind

/-- A word is read back. -/
theorem load32_store32 (m : Mem) (start : Nat) (w : BitVec 32) :
    load32 (store32 m start w) start = w := by
  have hk {k : Nat} (h : k < 4) : store32 m start w (start + k) = byteOf w k :=
    memcpy_inside m start (byteOf w) h
  have h0 : store32 m start w start = byteOf w 0 := hk (k := 0) (by decide)
  rw [load32, hk (by decide), hk (by decide), hk (by decide), h0, byteOf_append]

theorem load16_congr {m m' : Mem} {start : Nat}
    (h : ∀ k < 2, m' (start + k) = m (start + k)) : load16 m' start = load16 m start := by
  have h0 : m' start = m start := h 0 (by decide)
  rw [load16, load16, h0, h 1 (by decide)]

/-- A half-word is read back. -/
theorem load16_store16 (m : Mem) (start n : Nat) :
    load16 (store16 m start n) start = n % 65536 := by
  rw [load16, store16, Function.update_self, Function.update_of_ne (Nat.succ_ne_self start).symm,
    Function.update_self, BitVec.toNat_ofNat, BitVec.toNat_ofNat]
  omega

theorem store16_outside (m : Mem) {start o : Nat} (n : Nat) (h : o < start ∨ start + 2 ≤ o) :
    store16 m start n o = m o := by
  rw [store16, Function.update_of_ne (by omega), Function.update_of_ne (by omega)]

end MqttDevice.Memory
