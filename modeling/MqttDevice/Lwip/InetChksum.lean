import MqttDevice.EthernetifInput
import MqttDevice.Lib.OnesComplement
import Mathlib.Data.Nat.Digits.Lemmas

/-!
# The Internet checksum (`inet_chksum.c`)

The checksum of a TCP segment is taken over a chain of pbufs. Each payload may have any length
and may start at an odd address, and the sum is taken two bytes at a time wherever the payload
starts: at an odd address the bytes of every word stand the wrong way round, and behind a payload
of odd length so do those of the next ones. `lwip_standard_chksum` and the loops over the chain
swap the bytes of the sum to make up for it.

* `lwipStandardChksum_eq`, `chksumLoop_spec`: the sum of a range, and of a chain;
* `inetChksumPseudo_eq`: the checksum is that of the bytes in order behind the pseudo header, for
  every cut into pbufs and every alignment;
* `inetChksumPseudoPartial_eq`: the same for the first bytes of a segment.
-/

namespace MqttDevice.Lwip

open MqttDevice.Ascii MqttDevice.Memory MqttDevice.OnesComplement
open MqttDevice.EthernetifInput (Pbuf contents totLen)

/-! ## The functions -/

def foldU32T (u : Nat) : Nat := u / 2 ^ 16 + u % 2 ^ 16

def swapBytesInWord (w : Nat) : Nat := w % 256 * 256 + w / 256 % 256

/-- `lwip_htons`, on a little-endian processor. -/
def lwipHtons (n : Nat) : Nat := n % 256 * 256 + n / 256 % 256

/-- The loop of `lwip_standard_chksum` over `*ps++`, with what it leaves in `ps`, `len` and
`sum`. -/
def wordLoop (m : Mem) : Nat → Nat → Nat → Nat × Nat × Nat
  | ps, 0, sum => (ps, 0, sum)
  | ps, 1, sum => (ps, 1, sum)
  | ps, len + 2, sum => wordLoop m (ps + 2) len ((sum + load16 m ps) % 2 ^ 32)

/-- `lwip_standard_chksum` from the bulk of the data to the second fold; `t` holds the byte in
front of it. -/
def wordSum (m : Mem) (pb len t : Nat) : Nat :=
  let (ps, len, sum) := wordLoop m pb len 0
  let t := if 0 < len then t / 256 * 256 + (m ps).toNat else t
  foldU32T (foldU32T ((sum + t) % 2 ^ 32))

def lwipStandardChksum (m : Mem) (dataptr len : Nat) : Nat :=
  if dataptr % 2 = 1 then
    let sum := if 0 < len then wordSum m (dataptr + 1) (len - 1) (256 * (m dataptr).toNat)
      else wordSum m dataptr len 0
    swapBytesInWord sum % 2 ^ 16
  else
    wordSum m dataptr len 0 % 2 ^ 16

/-- The loop over the chain of `inet_cksum_pseudo_base` and of `inet_chksum_pbuf`, with what it
leaves in `acc` and `swapped`. -/
def chksumLoop (m : Mem) : List Pbuf → Nat → Bool → Nat × Bool
  | [], acc, swapped => (acc, swapped)
  | q :: qs, acc, swapped =>
    let acc := foldU32T ((acc + lwipStandardChksum m q.payload q.len) % 2 ^ 32)
    if q.len % 2 ≠ 0 then chksumLoop m qs (swapBytesInWord acc) (!swapped)
    else chksumLoop m qs acc swapped

/-- The loop of `inet_cksum_pseudo_partial_base`, over the first `chksumLen` bytes. -/
def chksumPartialLoop (m : Mem) : List Pbuf → Nat → Nat → Bool → Nat × Bool
  | [], _, acc, swapped => (acc, swapped)
  | _ :: _, 0, acc, swapped => (acc, swapped)
  | q :: qs, chksumLen + 1, acc, swapped =>
    let chklen := min q.len (chksumLen + 1)
    let acc := foldU32T ((acc + lwipStandardChksum m q.payload chklen) % 2 ^ 32)
    -- the parity is that of the whole payload, not of what was summed
    if q.len % 2 ≠ 0 then
      chksumPartialLoop m qs (chksumLen + 1 - chklen) (swapBytesInWord acc) (!swapped)
    else chksumPartialLoop m qs (chksumLen + 1 - chklen) acc swapped

/-- `if (swapped)`, behind these loops. -/
def unswap (r : Nat × Bool) : Nat := if r.2 then swapBytesInWord r.1 else r.1

/-- The end of `inet_cksum_pseudo_base` and of `inet_cksum_pseudo_partial_base`. -/
def pseudoEnd (proto : BitVec 8) (protoLen : BitVec 16) (acc : Nat) : Nat :=
  let acc := (acc + lwipHtons proto.toNat) % 2 ^ 32
  let acc := (acc + lwipHtons protoLen.toNat) % 2 ^ 32
  let acc := foldU32T (foldU32T acc)
  65535 - acc % 2 ^ 16

def inetCksumPseudoBase (m : Mem) (p : List Pbuf) (proto : BitVec 8) (protoLen : BitVec 16)
    (acc : Nat) : Nat :=
  pseudoEnd proto protoLen (unswap (chksumLoop m p acc false))

def inetCksumPseudoPartialBase (m : Mem) (p : List Pbuf) (proto : BitVec 8)
    (protoLen : BitVec 16) (chksumLen acc : Nat) : Nat :=
  pseudoEnd proto protoLen (unswap (chksumPartialLoop m p chksumLen acc false))

/-- The sum over the addresses, with which `inet_chksum_pseudo` and `inet_chksum_pseudo_partial`
begin. -/
def addrSum (src dest : BitVec 32) : Nat :=
  let acc := src.toNat % 2 ^ 16
  let acc := (acc + src.toNat / 2 ^ 16) % 2 ^ 32
  let acc := (acc + dest.toNat % 2 ^ 16) % 2 ^ 32
  let acc := (acc + dest.toNat / 2 ^ 16) % 2 ^ 32
  foldU32T (foldU32T acc)

def inetChksumPseudo (m : Mem) (p : List Pbuf) (proto : BitVec 8) (protoLen : BitVec 16)
    (src dest : BitVec 32) : Nat :=
  inetCksumPseudoBase m p proto protoLen (addrSum src dest)

def inetChksumPseudoPartial (m : Mem) (p : List Pbuf) (proto : BitVec 8) (protoLen : BitVec 16)
    (chksumLen : Nat) (src dest : BitVec 32) : Nat :=
  inetCksumPseudoPartialBase m p proto protoLen chksumLen (addrSum src dest)

def inetChksum (m : Mem) (dataptr len : Nat) : Nat := 65535 - lwipStandardChksum m dataptr len

def lwipChksumCopy (m : Mem) (dst src len : Nat) : Mem × Nat :=
  let m := memcpy m dst (fun k => m (src + k)) len
  (m, lwipStandardChksum m dst len)

/-- A chain whose lengths are `u16_t`. -/
structure ShortChain where
  chain : List Pbuf
  lens : ∀ q ∈ chain, q.len < 2 ^ 16

/-! ## The number that the bytes are -/

/-- The bytes as one number, little-endian. -/
def value (l : List Byte) : Nat := Nat.ofDigits 256 (l.map BitVec.toNat)

@[simp] theorem value_nil : value [] = 0 := rfl

@[simp] theorem value_cons (b : Byte) (l : List Byte) :
    value (b :: l) = b.toNat + 256 * value l := by
  rw [value, List.map_cons, Nat.ofDigits_cons]
  rfl

theorem value_append (l r : List Byte) :
    value (l ++ r) = value l + 256 ^ l.length * value r := by
  rw [value, List.map_append, Nat.ofDigits_append, List.length_map]
  rfl

/-- **The checksum of some bytes**: the sum of their 16-bit words with end-around carry,
inverted. -/
def checksum (l : List Byte) : Nat := 65535 - norm 65535 (value l)

/-- The header that the segment is summed with but that is not sent. -/
def pseudoHeader (src dest : BitVec 32) (proto : BitVec 8) (protoLen : BitVec 16) : List Byte :=
  [byteOf src 0, byteOf src 1, byteOf src 2, byteOf src 3,
    byteOf dest 0, byteOf dest 1, byteOf dest 2, byteOf dest 3,
    0, proto, (protoLen >>> 8).setWidth 8, protoLen.setWidth 8]

/-! ## Words -/

/-- Shifting by bytes counts by its parity. -/
theorem same_shift {j k : Nat} (h : j % 2 = k % 2) (x : Nat) :
    Same 65535 (256 ^ j * x) (256 ^ k * x) := same_pow (by decide) (by decide) h x

theorem same_unshift {j : Nat} (h : j % 2 = 0) (x : Nat) : Same 65535 (256 ^ j * x) x := by
  have hshift := same_shift (j := j) (k := 0) h x
  rwa [Nat.pow_zero, Nat.one_mul] at hshift

theorem same_swap {w : Nat} (h : w ≤ 65535) : Same 65535 (swapBytesInWord w) (256 * w) := by
  have hswap : 256 * w = swapBytesInWord w + 65535 * (w / 256) := by
    unfold swapBytesInWord
    omega
  refine ⟨?_, ?_⟩
  · rw [hswap]
    exact (Nat.add_mul_mod_self_left _ _ _).symm
  · unfold swapBytesInWord
    omega

theorem swap_le (w : Nat) : swapBytesInWord w ≤ 65535 := by
  unfold swapBytesInWord
  omega

theorem same_fold (u : Nat) : Same 65535 (foldU32T u) u := by
  refine ⟨?_, ?_⟩
  · unfold Nat.ModEq foldU32T
    omega
  · unfold foldU32T
    omega

/-- One fold is enough for two words. -/
theorem fold_le {u : Nat} (h : u ≤ 2 * 65535) : foldU32T u ≤ 65535 := by
  unfold foldU32T
  omega

/-- Two folds are enough for 32 bits. -/
theorem fold_fold_le {u : Nat} (h : u < 2 ^ 32) : foldU32T (foldU32T u) ≤ 65535 := by
  unfold foldU32T
  omega

theorem same_fold_fold (u : Nat) : Same 65535 (foldU32T (foldU32T u)) u :=
  (same_fold _).trans (same_fold u)

theorem load16_le (m : Mem) (ps : Nat) : load16 m ps ≤ 65535 := by
  have hlo := (m ps).isLt
  have hhi := (m (ps + 1)).isLt
  unfold load16
  omega

theorem value_pair (m : Mem) (ps : Nat) : value (bytes m ps 2) = load16 m ps := by
  simp [bytes, List.range_succ, load16]

/-- The loop adds up the words; a rest of one byte stays. -/
theorem wordLoop_spec (m : Mem) (ps len sum : Nat) (h : sum + 65535 * (len / 2) < 2 ^ 32) :
    ∃ s, wordLoop m ps len sum = (ps + 2 * (len / 2), len % 2, s) ∧
      s ≤ sum + 65535 * (len / 2) ∧
      Same 65535 s (sum + value (bytes m ps (2 * (len / 2)))) := by
  fun_induction wordLoop m ps len sum with
  | case1 ps sum => exact ⟨sum, rfl, Nat.le_refl _, .refl _ _⟩
  | case2 ps sum => exact ⟨sum, rfl, Nat.le_refl _, .refl _ _⟩
  | case3 ps len sum ih =>
    have hword := load16_le m ps
    have hdiv : (len + 2) / 2 = len / 2 + 1 := by omega
    rw [hdiv] at h ⊢
    have hmod : (sum + load16 m ps) % 2 ^ 32 = sum + load16 m ps := Nat.mod_eq_of_lt (by omega)
    rw [hmod] at ih ⊢
    obtain ⟨s, heq, hle, hs⟩ := ih (by omega)
    refine ⟨s, ?_, by omega, hs.trans ?_⟩
    · rw [heq, show ps + 2 + 2 * (len / 2) = ps + 2 * (len / 2 + 1) by omega,
        show len % 2 = (len + 2) % 2 from (Nat.add_mod_right len 2).symm]
    · rw [show 2 * (len / 2 + 1) = 2 + 2 * (len / 2) by omega, bytes_add, value_append,
        value_pair, length_bytes, Nat.add_assoc]
      -- the words behind this one are shifted by one word
      exact (Same.refl _ sum).add ((Same.refl _ _).add (same_unshift (j := 2) rfl _).symm)

/-- What is summed are the bytes, behind the one that `t` holds. -/
theorem wordSum_spec (m : Mem) (pb len t : Nat) (ht : t % 256 = 0)
    (h : 65535 * (len / 2) + t + 255 * (len % 2) < 2 ^ 32) :
    wordSum m pb len t ≤ 65535 ∧ Same 65535 (wordSum m pb len t) (t + value (bytes m pb len)) := by
  obtain ⟨s, heq, hle, hs⟩ := wordLoop_spec m pb len 0 (by omega)
  rw [Nat.zero_add] at hs
  unfold wordSum
  rw [heq]
  obtain ⟨k, rfl | rfl⟩ : ∃ k, len = 2 * k ∨ len = 2 * k + 1 := ⟨len / 2, by omega⟩
  · have hk : 2 * k / 2 = k := by omega
    have heven : 2 * k % 2 = 0 := by omega
    rw [hk] at h hs hle
    simp only [hk, heven, Nat.lt_irrefl, if_false]
    rw [Nat.mod_eq_of_lt (by omega)]
    refine ⟨fold_fold_le (by omega), (same_fold_fold _).trans ?_⟩
    rw [Nat.add_comm t]
    exact hs.add (.refl _ t)
  · have hk : (2 * k + 1) / 2 = k := by omega
    have hodd : (2 * k + 1) % 2 = 1 := by omega
    have hlast := (m (pb + 2 * k)).isLt
    rw [hk] at h hs hle
    simp only [hk, hodd, Nat.one_pos, if_true]
    rw [show t / 256 * 256 = t by omega, Nat.mod_eq_of_lt (by omega)]
    refine ⟨fold_fold_le (by omega), (same_fold_fold _).trans ?_⟩
    -- the last byte is the first one of its word
    have hone : value (bytes m (pb + 2 * k) 1) = (m (pb + 2 * k)).toNat := by simp [bytes]
    rw [bytes_add, value_append, length_bytes, hone, Nat.add_left_comm t]
    exact hs.add ((Same.refl 65535 t).add (same_unshift (by omega) _).symm)

/-- **The sum of a range**, at an even or an odd address, up to the length that the comment at
the function gives. -/
theorem lwipStandardChksum_eq (m : Mem) (dataptr len : Nat) (h : len ≤ 0x20000) :
    lwipStandardChksum m dataptr len = norm 65535 (value (bytes m dataptr len)) := by
  suffices hspec : lwipStandardChksum m dataptr len ≤ 65535 ∧
      Same 65535 (lwipStandardChksum m dataptr len) (value (bytes m dataptr len)) from
    eq_norm hspec.1 hspec.2
  unfold lwipStandardChksum
  split
  · dsimp only
    split
    · rename_i hpos
      have hfirst := (m dataptr).isLt
      obtain ⟨hle, hs⟩ := wordSum_spec m (dataptr + 1) (len - 1) (256 * (m dataptr).toNat)
        (by omega) (by omega)
      have hswap := same_swap hle
      rw [Nat.mod_eq_of_lt (Nat.lt_of_le_of_lt (swap_le _) (by decide))]
      refine ⟨swap_le _, hswap.trans ((hs.mul_left 256).trans ?_)⟩
      -- the first byte was summed as the second one of its word, the others as it should be
      have hbytes : bytes m dataptr len = m dataptr :: bytes m (dataptr + 1) (len - 1) := by
        rw [show len = 1 + (len - 1) by omega, bytes_add]
        simp [bytes]
      rw [hbytes, value_cons, Nat.mul_add, ← Nat.mul_assoc]
      exact (same_unshift (j := 2) rfl _).add (.refl _ _)
    · rename_i hpos
      have hnone : wordSum m dataptr 0 0 = 0 := by simp [wordSum, wordLoop, foldU32T]
      rw [Nat.eq_zero_of_not_pos hpos, hnone]
      exact ⟨Nat.zero_le _, .refl _ _⟩
  · obtain ⟨hle, hs⟩ := wordSum_spec m dataptr len 0 rfl (by omega)
    rw [Nat.zero_add] at hs
    rw [Nat.mod_eq_of_lt (Nat.lt_of_le_of_lt hle (by decide))]
    exact ⟨hle, hs⟩

/-! ## Chains -/

theorem swap_swap {w : Nat} (h : w ≤ 65535) : swapBytesInWord (swapBytesInWord w) = w := by
  unfold swapBytesInWord
  have hlow : (w % 256 * 256 + w / 256 % 256) % 256 = w / 256 := by omega
  have hhigh : (w % 256 * 256 + w / 256 % 256) / 256 = w % 256 := by omega
  rw [hlow, hhigh]
  omega

theorem unswap_le {r : Nat × Bool} (h : r.1 ≤ 65535) : unswap r ≤ 65535 := by
  unfold unswap
  split
  · exact swap_le _
  · exact h

/-- A sum that is shifted by `n` bytes, swapped back. -/
theorem same_unswap {acc n x : Nat} (hacc : acc ≤ 65535) (h : Same 65535 acc (256 ^ n * x)) :
    Same 65535 (unswap (acc, decide (n % 2 = 1))) x := by
  unfold unswap
  dsimp only
  split
  · rename_i hodd
    have hodd := of_decide_eq_true hodd
    refine (same_swap hacc).trans ((h.mul_left 256).trans ?_)
    rw [← Nat.mul_assoc, ← Nat.pow_succ']
    exact same_unshift (by omega) _
  · rename_i heven
    have heven : ¬ n % 2 = 1 := fun hodd => heven (decide_eq_true hodd)
    exact h.trans (same_unshift (by omega) _)

/-- One step of a sum in pieces: after `n` bytes `acc` is their sum, shifted by `n` bytes, so the
sum of the next piece can be added as if it were the first one. -/
theorem same_step {acc c n v w : Nat} (len : Nat) (hacc : acc ≤ 65535) (hc : c ≤ 65535)
    (h : Same 65535 acc (256 ^ n * v)) (hw : Same 65535 c w) :
    (if len % 2 ≠ 0 then swapBytesInWord (foldU32T (acc + c)) else foldU32T (acc + c)) ≤ 65535 ∧
      Same 65535 (if len % 2 ≠ 0 then swapBytesInWord (foldU32T (acc + c)) else foldU32T (acc + c))
        (256 ^ (n + len) * (v + 256 ^ n * w)) := by
  have hfold : foldU32T (acc + c) ≤ 65535 := fold_le (by omega)
  have hadd : Same 65535 (foldU32T (acc + c)) (256 ^ n * (v + 256 ^ n * w)) := by
    rw [Nat.mul_add, ← Nat.mul_assoc, ← Nat.pow_add]
    exact (same_fold _).trans (h.add (hw.trans (same_unshift (by omega) w).symm))
  split
  · refine ⟨swap_le _, (same_swap hfold).trans ((hadd.mul_left 256).trans ?_)⟩
    rw [← Nat.mul_assoc, ← Nat.pow_succ']
    exact same_shift (by omega) _
  · exact ⟨hfold, hadd.trans (same_shift (by omega) _)⟩

/-- How `swapped` changes with it. -/
theorem swapped_step (n len : Nat) :
    (if len % 2 ≠ 0 then !decide (n % 2 = 1) else decide (n % 2 = 1)) =
      decide ((n + len) % 2 = 1) := by
  split
  · rw [← decide_not]
    exact decide_eq_decide.mpr (by omega)
  · exact decide_eq_decide.mpr (by omega)

/-- The sum of a payload is a half-word. -/
theorem lwipStandardChksum_spec (m : Mem) (dataptr : Nat) {len : Nat} (h : len < 2 ^ 16) :
    lwipStandardChksum m dataptr len ≤ 65535 ∧
      Same 65535 (lwipStandardChksum m dataptr len) (value (bytes m dataptr len)) := by
  rw [lwipStandardChksum_eq m dataptr len (by omega)]
  exact ⟨norm_le (by decide) _, norm_same _ _⟩

theorem chksumLoop_cons (m : Mem) (q : Pbuf) (qs : List Pbuf) {acc : Nat} (swapped : Bool)
    (hacc : acc ≤ 65535) (hlen : q.len < 2 ^ 16) :
    chksumLoop m (q :: qs) acc swapped =
      chksumLoop m qs
        (if q.len % 2 ≠ 0 then
          swapBytesInWord (foldU32T (acc + lwipStandardChksum m q.payload q.len))
        else foldU32T (acc + lwipStandardChksum m q.payload q.len))
        (if q.len % 2 ≠ 0 then !swapped else swapped) := by
  have hle := (lwipStandardChksum_spec m q.payload hlen).1
  have hmod : (acc + lwipStandardChksum m q.payload q.len) % 2 ^ 32 =
      acc + lwipStandardChksum m q.payload q.len := Nat.mod_eq_of_lt (by omega)
  simp only [chksumLoop, hmod]
  split <;> rfl

/-- After `n` bytes `acc` is their sum, shifted by `n` bytes. -/
theorem chksumLoop_spec (m : Mem) (p : List Pbuf) (hlens : ∀ q ∈ p, q.len < 2 ^ 16)
    (n v acc : Nat) (hacc : acc ≤ 65535) (h : Same 65535 acc (256 ^ n * v)) :
    ∃ acc', chksumLoop m p acc (decide (n % 2 = 1)) =
        (acc', decide ((n + totLen p) % 2 = 1)) ∧ acc' ≤ 65535 ∧
      Same 65535 acc' (256 ^ (n + totLen p) * (v + 256 ^ n * value (contents m p))) := by
  induction p generalizing n v acc with
  | nil => exact ⟨acc, rfl, hacc, h⟩
  | cons q qs ih =>
    have hlen := hlens q (.head qs)
    have hlens' : ∀ r ∈ qs, r.len < 2 ^ 16 := fun r hr => hlens r (.tail q hr)
    obtain ⟨hc, hw⟩ := lwipStandardChksum_spec m q.payload hlen
    obtain ⟨hle, hstep⟩ := same_step q.len hacc hc h hw
    have htot : n + totLen (q :: qs) = n + q.len + totLen qs := by
      rw [Nat.add_assoc]
      rfl
    have hval : v + 256 ^ n * value (contents m (q :: qs)) =
        v + 256 ^ n * value (bytes m q.payload q.len) +
          256 ^ (n + q.len) * value (contents m qs) := by
      rw [EthernetifInput.contents_cons, value_append, length_bytes, Nat.pow_add]
      ring
    rw [htot, hval, chksumLoop_cons m q qs _ hacc hlen, swapped_step]
    exact ih hlens' (n + q.len) _ _ hle hstep

/-- The sum over a chain is that of its bytes in order. -/
theorem chainSum_spec (m : Mem) (p : ShortChain) {acc : Nat} (hacc : acc ≤ 65535) :
    unswap (chksumLoop m p.chain acc false) ≤ 65535 ∧
      Same 65535 (unswap (chksumLoop m p.chain acc false))
        (acc + value (contents m p.chain)) := by
  have hstart : Same 65535 acc (256 ^ 0 * acc) := .of_eq (by rw [Nat.pow_zero, Nat.one_mul])
  obtain ⟨acc', heq, hle, hs⟩ := chksumLoop_spec m p.chain p.lens 0 acc acc hacc hstart
  rw [show decide (0 % 2 = 1) = false from rfl] at heq
  rw [Nat.pow_zero, Nat.one_mul] at hs
  rw [heq]
  exact ⟨unswap_le hle, same_unswap hle hs⟩

/-! ## Segments -/

theorem value_word (w : BitVec 32) (l : List Byte) :
    value (byteOf w 0 :: byteOf w 1 :: byteOf w 2 :: byteOf w 3 :: l) =
      w.toNat + 256 ^ 4 * value l := by
  have hw := w.isLt
  simp only [value_cons, byteOf, BitVec.toNat_setWidth, BitVec.toNat_ushiftRight,
    Nat.shiftRight_eq_div_pow, Nat.reduceMul, Nat.reducePow, Nat.div_one]
  omega

/-- The addresses are summed by half-words, protocol and length with their bytes swapped. -/
theorem same_pseudoHeader (src dest : BitVec 32) (proto : BitVec 8) (protoLen : BitVec 16) :
    Same 65535 (value (pseudoHeader src dest proto protoLen))
      (foldU32T src.toNat + (foldU32T dest.toNat +
        (lwipHtons proto.toNat + lwipHtons protoLen.toNat))) := by
  have hproto := proto.isLt
  have hlen := protoLen.isLt
  have hrest : value [0, proto, (protoLen >>> 8).setWidth 8, protoLen.setWidth 8] =
      lwipHtons proto.toNat + 256 ^ 2 * lwipHtons protoLen.toNat := by
    have hzero : BitVec.toNat (0 : Byte) = 0 := rfl
    simp only [value_cons, value_nil, lwipHtons, BitVec.toNat_setWidth, BitVec.toNat_ushiftRight,
      Nat.shiftRight_eq_div_pow, Nat.reducePow, hzero]
    omega
  rw [pseudoHeader, value_word, value_word, hrest]
  have hlast := (Same.refl 65535 (lwipHtons proto.toNat)).add
    (same_unshift (j := 2) rfl (lwipHtons protoLen.toNat))
  have hdest := (same_fold dest.toNat).symm.add ((same_unshift (j := 4) rfl _).trans hlast)
  exact (same_fold src.toNat).symm.add ((same_unshift (j := 4) rfl _).trans hdest)

theorem addrSum_spec (src dest : BitVec 32) :
    addrSum src dest ≤ 65535 ∧
      Same 65535 (addrSum src dest) (foldU32T src.toNat + foldU32T dest.toNat) := by
  have hsrc := src.isLt
  have hdest := dest.isLt
  have haddr : ((src.toNat % 2 ^ 16 + src.toNat / 2 ^ 16) % 2 ^ 32 + dest.toNat % 2 ^ 16) % 2 ^ 32
      + dest.toNat / 2 ^ 16 = foldU32T src.toNat + foldU32T dest.toNat := by
    unfold foldU32T
    omega
  have hbound : foldU32T src.toNat + foldU32T dest.toNat < 2 ^ 32 := by
    unfold foldU32T
    omega
  unfold addrSum
  dsimp only
  rw [haddr, Nat.mod_eq_of_lt hbound]
  exact ⟨fold_fold_le hbound, same_fold_fold _⟩

/-- What the rest of the pseudo header makes of a sum that began with the addresses. -/
theorem pseudoEnd_eq {src dest : BitVec 32} {proto : BitVec 8} {protoLen : BitVec 16}
    {acc : Nat} {l : List Byte} (hacc : acc ≤ 65535)
    (h : Same 65535 acc (addrSum src dest + value l)) :
    pseudoEnd proto protoLen acc = checksum (pseudoHeader src dest proto protoLen ++ l) := by
  have hproto : lwipHtons proto.toNat ≤ 65535 := swap_le _
  have hlen : lwipHtons protoLen.toNat ≤ 65535 := swap_le _
  have hs := h.trans ((addrSum_spec src dest).2.add (.refl _ (value l)))
  unfold pseudoEnd checksum
  dsimp only
  rw [Nat.mod_eq_of_lt (b := 2 ^ 32) (a := acc + _) (by omega),
    Nat.mod_eq_of_lt (b := 2 ^ 32) (by omega)]
  have hfold := fold_fold_le
    (u := acc + lwipHtons proto.toNat + lwipHtons protoLen.toNat) (by omega)
  rw [Nat.mod_eq_of_lt (Nat.lt_of_le_of_lt hfold (by decide))]
  refine congrArg (65535 - ·) (eq_norm hfold ((same_fold_fold _).trans ?_))
  have hall := (same_pseudoHeader src dest proto protoLen).symm.add
    (same_unshift (j := 12) rfl (value l)).symm
  rw [value_append]
  refine Same.trans ?_ hall
  have hsum := (hs.add (.refl _ (lwipHtons proto.toNat))).add
    (.refl _ (lwipHtons protoLen.toNat))
  exact hsum.trans (.of_eq (by ring))

/-- **The checksum of a segment** is that of its bytes behind the pseudo header: however the chain
cuts them, and wherever its payloads start. -/
theorem inetChksumPseudo_eq (m : Mem) (p : ShortChain) (proto : BitVec 8) (protoLen : BitVec 16)
    (src dest : BitVec 32) :
    inetChksumPseudo m p.chain proto protoLen src dest =
      checksum (pseudoHeader src dest proto protoLen ++ contents m p.chain) := by
  obtain ⟨hle, hs⟩ := chainSum_spec m p (addrSum_spec src dest).1
  exact pseudoEnd_eq hle hs

/-! ## The first bytes of a chain -/

def firstBytes : Nat → List Pbuf → List Pbuf
  | _, [] => []
  | 0, _ :: _ => []
  | n + 1, q :: qs => { q with len := min q.len (n + 1) } :: firstBytes (n + 1 - q.len) qs

theorem lens_firstBytes (n : Nat) (p : List Pbuf) (h : ∀ q ∈ p, q.len < 2 ^ 16) :
    ∀ q ∈ firstBytes n p, q.len < 2 ^ 16 := by
  induction p generalizing n with
  | nil => exact fun q hq => absurd hq List.not_mem_nil
  | cons r rs ih =>
    have hr := h r (.head rs)
    cases n with
    | zero => exact fun q hq => absurd hq List.not_mem_nil
    | succ n =>
      intro q hq
      rcases List.mem_cons.mp hq with rfl | hq
      · exact Nat.lt_of_le_of_lt (Nat.min_le_left _ _) hr
      · exact ih _ (fun q' hq' => h q' (.tail r hq')) q hq

theorem contents_firstBytes (m : Mem) (n : Nat) (p : List Pbuf) :
    contents m (firstBytes n p) = (contents m p).take n := by
  induction p generalizing n with
  | nil => exact List.take_nil.symm
  | cons q qs ih =>
    cases n with
    | zero => rfl
    | succ n =>
      rw [firstBytes, EthernetifInput.contents_cons, EthernetifInput.contents_cons, ih,
        List.take_append, length_bytes]
      congr 1
      rcases Nat.le_total q.len (n + 1) with hle | hle
      · rw [Nat.min_eq_left hle, List.take_of_length_le (by rwa [length_bytes])]
      · rw [Nat.min_eq_right hle, take_bytes m q.payload hle]

/-- Where the sum ends inside a payload, its parity does not matter: it is swapped twice. -/
theorem unswap_not {acc : Nat} (h : acc ≤ 65535) (swapped : Bool) :
    unswap (swapBytesInWord acc, !swapped) = unswap (acc, swapped) := by
  cases swapped with
  | false => exact swap_swap h
  | true => rfl

theorem chksumPartialLoop_eq (m : Mem) (p : List Pbuf) (hlens : ∀ q ∈ p, q.len < 2 ^ 16)
    (n : Nat) (acc : Nat) (swapped : Bool) (hacc : acc ≤ 65535) :
    unswap (chksumPartialLoop m p n acc swapped) =
      unswap (chksumLoop m (firstBytes n p) acc swapped) := by
  induction p generalizing n acc swapped with
  | nil => rfl
  | cons q qs ih =>
    cases n with
    | zero => rfl
    | succ n =>
      have hlen := hlens q (.head qs)
      have hlens' : ∀ r ∈ qs, r.len < 2 ^ 16 := fun r hr => hlens r (.tail q hr)
      have hc := (lwipStandardChksum_spec m q.payload
        (Nat.lt_of_le_of_lt (Nat.min_le_left _ (n + 1)) hlen)).1
      have hmod : (acc + lwipStandardChksum m q.payload (min q.len (n + 1))) % 2 ^ 32 =
          acc + lwipStandardChksum m q.payload (min q.len (n + 1)) := Nat.mod_eq_of_lt (by omega)
      have hfold : foldU32T (acc + lwipStandardChksum m q.payload (min q.len (n + 1))) ≤ 65535 :=
        fold_le (by omega)
      simp only [chksumPartialLoop, firstBytes, chksumLoop, hmod]
      generalize foldU32T _ = acc' at hfold ⊢
      rcases Nat.le_total q.len (n + 1) with hle | hle
      · rw [Nat.min_eq_left hle]
        split
        · exact ih hlens' _ _ _ (swap_le _)
        · exact ih hlens' _ _ _ hfold
      · rw [Nat.min_eq_right hle, Nat.sub_self, Nat.sub_eq_zero_of_le hle]
        -- nothing is left: only what the parities did counts
        have hstop (a : Nat) (b : Bool) : chksumPartialLoop m qs 0 a b = (a, b) := by
          cases qs with
          | nil => rfl
          | cons r rs => rfl
        have hstop' (a : Nat) (b : Bool) : chksumLoop m (firstBytes 0 qs) a b = (a, b) := by
          cases qs with
          | nil => rfl
          | cons r rs => rfl
        simp only [hstop, hstop']
        split <;> split <;> simp only [unswap_not hfold]

/-- **The checksum of the first bytes** of a segment. -/
theorem inetChksumPseudoPartial_eq (m : Mem) (p : ShortChain) (proto : BitVec 8)
    (protoLen : BitVec 16) (n : Nat) (src dest : BitVec 32) :
    inetChksumPseudoPartial m p.chain proto protoLen n src dest =
      checksum (pseudoHeader src dest proto protoLen ++ (contents m p.chain).take n) := by
  obtain ⟨hacc, -⟩ := addrSum_spec src dest
  obtain ⟨hle, hs⟩ := chainSum_spec m
    ⟨firstBytes n p.chain, lens_firstBytes n p.chain p.lens⟩ hacc
  rw [contents_firstBytes] at hs
  unfold inetChksumPseudoPartial inetCksumPseudoPartialBase
  rw [chksumPartialLoop_eq m p.chain p.lens n _ _ hacc]
  exact pseudoEnd_eq hle hs

end MqttDevice.Lwip
