import Mathlib.Tactic
import Mathlib.Data.Nat.Digits.Defs
import Mathlib.Data.Nat.Digits.Lemmas

/-!
# Bytes and decimal text

* `str`: the bytes of an ASCII string;
* `decimal`, `digitsValue`: the digits of a number and back
  (`digitsValue_decimal`), with the length of the text (`decimal_length_le`).
-/

namespace MqttDevice.Ascii

abbrev Byte := BitVec 8

def ch (c : Char) : Byte := BitVec.ofNat 8 c.toNat

/-- The bytes of an ASCII string. -/
def str (s : String) : List Byte := s.toList.map ch

def isDigit (b : Byte) : Bool := ch '0' ≤ b && b ≤ ch '9'

def digit (d : Nat) : Byte := BitVec.ofNat 8 (48 + d)

/-- The number a digit stands for. -/
def digitValue (b : Byte) : Nat := b.toNat - 48

/-- The decimal digits of `n`, without leading zeros. -/
def decimal (n : Nat) : List Byte :=
  if n = 0 then [digit 0] else ((Nat.digits 10 n).map digit).reverse

/-- The value of a string of digits. -/
def digitsValue (ds : List Byte) : Nat := ds.foldl (fun n d => 10 * n + digitValue d) 0

theorem digitValue_digit {d : Nat} (h : d < 10) : digitValue (digit d) = d := by
  simp only [digitValue, digit, BitVec.toNat_ofNat]
  omega

theorem isDigit_digit {d : Nat} (h : d < 10) : isDigit (digit d) = true := by
  simp only [isDigit, digit, ch, Bool.and_eq_true, decide_eq_true_eq, BitVec.le_def,
    BitVec.toNat_ofNat]
  show 48 % 256 ≤ (48 + d) % 256 ∧ (48 + d) % 256 ≤ 57 % 256
  omega

theorem digitsValue_append (as bs : List Byte) :
    digitsValue (as ++ bs) = digitsValue as * 10 ^ bs.length + digitsValue bs := by
  induction bs using List.reverseRecOn with
  | nil => simp [digitsValue]
  | append_singleton bs b ih =>
    rw [← List.append_assoc]
    simp only [digitsValue, List.foldl_append, List.foldl_cons, List.foldl_nil,
      List.length_append, List.length_singleton, pow_succ] at ih ⊢
    rw [ih]
    ring

theorem digitsValue_reverse_map {ds : List Nat} (h : ∀ d ∈ ds, d < 10) :
    digitsValue (ds.map digit).reverse = Nat.ofDigits 10 ds := by
  induction ds with
  | nil => rfl
  | cons d ds ih =>
    rw [List.map_cons, List.reverse_cons, digitsValue_append,
      ih fun x hx => h x (List.mem_cons_of_mem _ hx), Nat.ofDigits_cons]
    simp only [digitsValue, List.foldl_cons, List.foldl_nil,
      digitValue_digit (h d List.mem_cons_self), List.length_singleton, pow_one]
    omega

/-- **Round trip.** -/
@[simp] theorem digitsValue_decimal (n : Nat) : digitsValue (decimal n) = n := by
  unfold decimal
  split
  · rename_i h
    simp [h, digitsValue, digit, digitValue]
  · rw [digitsValue_reverse_map fun d hd => Nat.digits_lt_base (by decide) hd,
      Nat.ofDigits_digits]

theorem isDigit_of_mem_decimal {n : Nat} {b : Byte} (h : b ∈ decimal n) : isDigit b = true := by
  unfold decimal at h
  split at h
  · rw [List.mem_singleton.mp h]
    exact isDigit_digit (by decide)
  · obtain ⟨d, hd, rfl⟩ := List.mem_map.mp (List.mem_reverse.mp h)
    exact isDigit_digit (Nat.digits_lt_base (by decide) hd)

theorem decimal_ne_nil (n : Nat) : decimal n ≠ [] := by
  unfold decimal
  split
  · simp
  · rename_i h
    simpa [Nat.digits_eq_nil_iff_eq_zero] using h

theorem decimal_length_le {n k : Nat} (h : n < 10 ^ (k + 1)) : (decimal n).length ≤ k + 1 := by
  unfold decimal
  split
  · simp
  · rw [List.length_reverse, List.length_map]
    exact (Nat.digits_length_le_iff (by decide) n).mpr h

end MqttDevice.Ascii
