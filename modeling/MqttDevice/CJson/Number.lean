import MqttDevice.CJson.Item
import Mathlib.Data.List.TakeWhile

/-!
# Numbers as text

The text of a number as cJSON reads it (`strtod`) and prints it
(`sprintf` with `%1.15g`, and `%1.17g` where 15 digits are not enough).

* `strtod_literal`: a decimal integer below `2 ^ 53` is read exactly;
* `numberText_intCast`: an integer below `10 ^ 15` is printed as its decimal
  digits;
* `printNumber_eq`: the text of every double fits its buffer.
-/

namespace MqttDevice.CJson

open MqttDevice.Ascii MqttDevice.Binary64

/-! ## Reading -/

/-- A decimal number as it is written: its value is `mantissa * 10 ^ exp10`
with the sign, and it takes `length` bytes. -/
structure Scanned where
  neg : Bool
  mantissa : Nat
  exp10 : Int
  length : Nat

def Scanned.value (s : Scanned) : ℚ :=
  (if s.neg then -1 else 1) * s.mantissa * 10 ^ s.exp10

def signLength (s : List Byte) : Nat :=
  if s.head? = some (ch '+') ∨ s.head? = some (ch '-') then 1 else 0

/-- An exponent and its length; without a digit there is none. -/
def scanExponent (s : List Byte) : Int × Nat :=
  if s.head? = some (ch 'e') ∨ s.head? = some (ch 'E') then
    let t := s.tail
    let ds := (t.drop (signLength t)).takeWhile isDigit
    if ds = [] then (0, 0)
    else
      (if t.head? = some (ch '-') then -(digitsValue ds : Int) else digitsValue ds,
        1 + signLength t + ds.length)
  else (0, 0)

def intPart (t : List Byte) : List Byte := t.takeWhile isDigit

def pointLength (t : List Byte) : Nat :=
  if (t.drop (intPart t).length).head? = some (ch '.') then 1 else 0

def fracPart (t : List Byte) : List Byte :=
  if pointLength t = 1 then (t.drop ((intPart t).length + 1)).takeWhile isDigit else []

/-- The longest prefix that is a number; it has a digit next to the point. -/
def scanNumber (s : List Byte) : Option Scanned :=
  let t := s.drop (signLength s)
  let length := (intPart t).length + pointLength t + (fracPart t).length
  let e := scanExponent (t.drop length)
  if intPart t = [] ∧ fracPart t = [] then none
  else
    some {
      neg := s.head? = some (ch '-')
      mantissa := digitsValue (intPart t ++ fracPart t)
      exp10 := e.1 - (fracPart t).length
      length := signLength s + length + e.2 }

/-- `strtod`: the value and how far it reads. -/
def strtod (s : List Byte) : Option (Double × Nat) :=
  (scanNumber s).map fun n => (ofRat n.value, n.length)

/-! ## Printing -/

/-- `compare_double`. Here only the first argument can be infinite. -/
def compareDouble : Double → Double → Bool
  | .finite a _, .finite b _ =>
    match ofRat |a - b|, ofRat (max |a| |b| * 2 ^ (-52 : ℤ)) with
    | .finite d _, .finite bound _ => d ≤ bound
    | .inf _, .finite _ _ => false
    | _, .inf _ => true
  | _, _ => true

/-- `q` to `p` significant digits: the digits as a number, and the decimal
exponent of the first of them. -/
def toDigits (p : Nat) (q : ℚ) : Nat × Int :=
  let x := Int.log 10 q
  let m := roundHalfEven (q / 10 ^ (x - (p - 1 : Nat)))
  if m = 10 ^ p then (10 ^ (p - 1), x + 1) else (m, x)

def stripZeros (ds : List Byte) : List Byte := (ds.reverse.dropWhile (· = ch '0')).reverse

/-- A fraction without its trailing zeros; without digits also without its point. -/
def fraction (ds : List Byte) : List Byte :=
  if stripZeros ds = [] then [] else ch '.' :: stripZeros ds

/-- The exponent of `%e`: a sign and at least two digits. -/
def exponent (x : Int) : List Byte :=
  [ch 'e', if x < 0 then ch '-' else ch '+'] ++
    (if x.natAbs < 10 then [ch '0'] else []) ++ decimal x.natAbs

/-- `%.pg` of a positive number. -/
def formatMag (p : Nat) (q : ℚ) : List Byte :=
  let (m, x) := toDigits p q
  let ds := decimal m
  if x < -4 ∨ (p : Int) ≤ x then ds.take 1 ++ fraction (ds.drop 1) ++ exponent x
  else if x < 0 then
    ch '0' :: fraction (List.replicate (-x - 1).toNat (ch '0') ++ ds)
  else ds.take (x.toNat + 1) ++ fraction (ds.drop (x.toNat + 1))

/-- `sprintf` with `%1.pg`. -/
def formatG (p : Nat) (q : ℚ) : List Byte :=
  if q = 0 then [ch '0']
  else if q < 0 then ch '-' :: formatMag p |q| else formatMag p |q|

/-- The text of a number: 15 digits if they give the number back, else 17. -/
def numberText : Double → List Byte
  | .inf _ => str "null"
  | .finite d h =>
    match strtod (formatG 15 d) with
    | some (test, _) =>
      if compareDouble test (.finite d h) then formatG 15 d else formatG 17 d
    | none => formatG 17 d

/-- `print_number`: `none` when the text does not fit its buffer. -/
def printNumber (d : Double) : Option (List Byte) :=
  if (numberText d).length ≤ 25 then some (numberText d) else none

/-! ## Integers -/

/-- An integer as decimal text. -/
def literal (n : Int) : List Byte :=
  if n < 0 then ch '-' :: decimal n.natAbs else decimal n.natAbs

theorem decimal_head (n : Nat) : ∃ b ds, decimal n = b :: ds ∧ isDigit b = true := by
  cases h : decimal n with
  | nil => exact absurd h (decimal_ne_nil n)
  | cons b ds => exact ⟨b, ds, rfl, isDigit_of_mem_decimal (h ▸ List.mem_cons_self)⟩

@[simp] theorem intPart_decimal (n : Nat) : intPart (decimal n) = decimal n :=
  List.takeWhile_eq_self_iff.mpr fun _ h => isDigit_of_mem_decimal h

@[simp] theorem pointLength_decimal (n : Nat) : pointLength (decimal n) = 0 := by
  simp [pointLength]

@[simp] theorem fracPart_decimal (n : Nat) : fracPart (decimal n) = [] := by
  simp [fracPart]

theorem signLength_decimal (n : Nat) :
    signLength (decimal n) = 0 ∧ (decimal n).head? ≠ some (ch '-') := by
  obtain ⟨b, ds, e, hb⟩ := decimal_head n
  have hplus : b ≠ ch '+' := by rintro rfl; revert hb; decide
  have hminus : b ≠ ch '-' := by rintro rfl; revert hb; decide
  rw [e]
  constructor
  · simp [signLength, hplus, hminus]
  · simp [hminus]

theorem scanNumber_literal (n : Int) :
    scanNumber (literal n) = some ⟨decide (n < 0), n.natAbs, 0, (literal n).length⟩ := by
  obtain ⟨hsign, hhead⟩ := signLength_decimal n.natAbs
  unfold literal
  split
  · rename_i hn
    have hone : signLength (ch '-' :: decimal n.natAbs) = 1 := rfl
    simp [scanNumber, hone, decimal_ne_nil, scanExponent, hn, Nat.add_comm]
  · rename_i hn
    simp [scanNumber, hsign, hhead, decimal_ne_nil, scanExponent, hn]

theorem scanNumber_length_pos {s : List Byte} {n : Scanned} (h : scanNumber s = some n) :
    1 ≤ n.length := by
  simp only [scanNumber] at h
  split at h
  · cases h
  · rename_i hdigits
    cases h
    rcases not_and_or.mp hdigits with hip | hfp
    · have := List.length_pos_iff.mpr hip
      simp only
      omega
    · have := List.length_pos_iff.mpr hfp
      simp only
      omega

theorem signLength_le (s : List Byte) : signLength s ≤ s.length := by
  unfold signLength
  split
  · rename_i h
    cases s with
    | nil => simp at h
    | cons c s => simp
  · exact Nat.zero_le _

theorem scanExponent_length_le (s : List Byte) : (scanExponent s).2 ≤ s.length := by
  unfold scanExponent
  split
  · rename_i h
    dsimp only
    split
    · exact Nat.zero_le _
    · cases s with
      | nil => simp at h
      | cons c t =>
        have hsign := signLength_le t
        have hdigits := (List.takeWhile_sublist isDigit (l := t.drop (signLength t))).length_le
        simp only [List.tail_cons, List.length_drop, List.length_cons] at hdigits ⊢
        omega
  · exact Nat.zero_le _

theorem mantissa_length_le (t : List Byte) :
    (intPart t).length + pointLength t + (fracPart t).length ≤ t.length := by
  have hint : (intPart t).length ≤ t.length := (List.takeWhile_sublist isDigit).length_le
  unfold fracPart
  split
  · rename_i hpoint
    have hfrac := (List.takeWhile_sublist isDigit
      (l := t.drop ((intPart t).length + 1))).length_le
    have hlt : (intPart t).length < t.length := by
      by_contra hge
      simp [pointLength, List.drop_eq_nil_of_le (Nat.not_lt.mp hge)] at hpoint
    rw [List.length_drop] at hfrac
    omega
  · rename_i hpoint
    have : pointLength t = 0 := by
      unfold pointLength at hpoint ⊢
      split <;> simp_all
    simp only [List.length_nil]
    omega

/-- A number is read from the text that is there. -/
theorem scanNumber_length_le {s : List Byte} {n : Scanned} (h : scanNumber s = some n) :
    n.length ≤ s.length := by
  simp only [scanNumber] at h
  split at h
  · cases h
  · cases h
    have hsign := signLength_le s
    have hmantissa := mantissa_length_le (s.drop (signLength s))
    have hexp := scanExponent_length_le ((s.drop (signLength s)).drop
      ((intPart (s.drop (signLength s))).length + pointLength (s.drop (signLength s)) +
        (fracPart (s.drop (signLength s))).length))
    simp only [List.length_drop] at hmantissa hexp
    simp only
    omega

theorem strtod_literal {n : Int} (h : |n| < 2 ^ 53) :
    strtod (literal n) = some (.finite n (representable_intCast h), (literal n).length) := by
  have hval : (Scanned.mk (decide (n < 0)) n.natAbs 0 (literal n).length).value = n := by
    simp only [Scanned.value, decide_eq_true_eq, zpow_zero, mul_one]
    split
    · rename_i hn
      rw [Nat.cast_natAbs, abs_of_neg hn]
      push_cast
      ring
    · rename_i hn
      rw [Nat.cast_natAbs, abs_of_nonneg (not_lt.mp hn), one_mul]
  rw [strtod, scanNumber_literal, Option.map_some, hval, ofRat_intCast h]

theorem decimal_mul_pow {n : Nat} (hn : n ≠ 0) (k : Nat) :
    decimal (n * 10 ^ k) = decimal n ++ List.replicate k (ch '0') := by
  have hnk : n * 10 ^ k ≠ 0 := Nat.mul_ne_zero hn (by positivity)
  rw [decimal, if_neg hnk, decimal, if_neg hn, Nat.mul_comm,
    Nat.digits_base_pow_mul (by norm_num) (Nat.pos_of_ne_zero hn)]
  simp [digit, ch]

theorem decimal_length {n : Nat} (hn : n ≠ 0) : (decimal n).length = Nat.log 10 n + 1 := by
  rw [decimal, if_neg hn, List.length_reverse, List.length_map,
    Nat.length_digits 10 n (by norm_num) hn]

theorem stripZeros_replicate (k : Nat) : stripZeros (List.replicate k (ch '0')) = [] := by
  simp [stripZeros]

/-- Fifteen digits of a smaller number: its own and then zeros. -/
theorem toDigits_natCast {n : Nat} (hn : n ≠ 0) (hlt : n < 10 ^ 15) :
    toDigits 15 n = (n * 10 ^ (14 - Nat.log 10 n), (Nat.log 10 n : Int)) := by
  have hlog : Nat.log 10 n < 15 := Nat.log_lt_of_lt_pow hn hlt
  have hscaled : (n : ℚ) / 10 ^ ((Nat.log 10 n : Int) - 14) =
      ((n * 10 ^ (14 - Nat.log 10 n) : Nat) : ℚ) := by
    rw [show ((Nat.log 10 n : Int) - 14) = -((14 - Nat.log 10 n : Nat) : Int) by omega,
      zpow_neg, zpow_natCast, div_inv_eq_mul]
    push_cast
    rfl
  have hm : n * 10 ^ (14 - Nat.log 10 n) < 10 ^ 15 := by
    calc n * 10 ^ (14 - Nat.log 10 n)
        < 10 ^ (Nat.log 10 n + 1) * 10 ^ (14 - Nat.log 10 n) :=
          Nat.mul_lt_mul_of_pos_right (Nat.lt_pow_succ_log_self (by norm_num) n) (by positivity)
      _ = 10 ^ 15 := by rw [← pow_add]; congr 1; omega
  have hfourteen : ((15 - 1 : Nat) : Int) = 14 := rfl
  simp only [toDigits, Int.log_natCast, hfourteen, hscaled, roundHalfEven_natCast]
  rw [if_neg (by omega)]

theorem formatMag_natCast {n : Nat} (hn : n ≠ 0) (hlt : n < 10 ^ 15) :
    formatMag 15 n = decimal n := by
  have hlog : Nat.log 10 n < 15 := Nat.log_lt_of_lt_pow hn hlt
  have hlen := decimal_length hn
  simp only [formatMag, toDigits_natCast hn hlt, decimal_mul_pow hn]
  rw [if_neg (by omega), if_neg (by omega), Int.toNat_natCast, ← hlen, List.take_left,
    List.drop_left, fraction, if_pos (stripZeros_replicate _), List.append_nil]

theorem formatG_intCast {n : Int} (hlt : |n| < 10 ^ 15) : formatG 15 n = literal n := by
  have hnat : n.natAbs < 10 ^ 15 := by
    rw [Int.abs_eq_natAbs] at hlt
    omega
  have habs : |(n : ℚ)| = (n.natAbs : ℚ) := by rw [Nat.cast_natAbs, Int.cast_abs]
  unfold formatG literal
  simp only [Int.cast_eq_zero, Int.cast_lt_zero, habs]
  by_cases h0 : n = 0
  · subst h0
    rfl
  · rw [if_neg h0, formatMag_natCast (by omega) hnat]

theorem compareDouble_self (q : ℚ) (h h' : Representable q) :
    compareDouble (.finite q h) (.finite q h') = true := by
  have hzero : ofRat |q - q| = .finite 0 representable_zero := by simp [ofRat]
  have hnn : 0 ≤ max |q| |q| * 2 ^ (-52 : ℤ) := by positivity
  simp only [compareDouble, hzero]
  cases hb : ofRat (max |q| |q| * 2 ^ (-52 : ℤ)) with
  | finite bound h => exact decide_eq_true (ofRat_nonneg hnn hb)
  | inf neg => rfl

/-- **Integers are printed exactly.** -/
theorem numberText_intCast {n : Int} (hlt : |n| < 10 ^ 15) (h : Representable n) :
    numberText (.finite n h) = literal n := by
  have h53 : |n| < 2 ^ 53 := by omega
  simp only [numberText, formatG_intCast hlt, strtod_literal h53, compareDouble_self, if_true]

/-! ## The text always fits -/

theorem length_fraction_le (ds : List Byte) : (fraction ds).length ≤ ds.length + 1 := by
  have hstrip : (stripZeros ds).length ≤ ds.length := by
    have := (List.dropWhile_sublist (l := ds.reverse) (p := (· = ch '0'))).length_le
    simpa [stripZeros] using this
  unfold fraction
  split
  · simp
  · simpa using hstrip

theorem toDigits_bounds {p : Nat} (hp : 1 ≤ p) (q : ℚ) :
    (toDigits p q).1 < 10 ^ p ∧ Int.log 10 q ≤ (toDigits p q).2 ∧
      (toDigits p q).2 ≤ Int.log 10 q + 1 := by
  have hscaled : q / 10 ^ (Int.log 10 q - (p - 1 : Nat)) < ((10 ^ p : Nat) : ℚ) := by
    rw [div_lt_iff₀ (zpow_pos (by norm_num) _), Nat.cast_pow, ← zpow_natCast,
      Nat.cast_ofNat, ← zpow_add₀ (by norm_num)]
    have hexp : (p : Int) + (Int.log 10 q - (p - 1 : Nat)) = Int.log 10 q + 1 := by omega
    rw [hexp]
    exact Int.lt_zpow_succ_log_self (by norm_num) q
  have hfloor : ⌊q / 10 ^ (Int.log 10 q - (p - 1 : Nat))⌋₊ < 10 ^ p :=
    (Nat.floor_lt' (by positivity)).mpr hscaled
  have hround := (roundHalfEven_bounds (q / 10 ^ (Int.log 10 q - (p - 1 : Nat)))).2
  simp only [toDigits]
  split
  · exact ⟨Nat.pow_lt_pow_right (by norm_num) (by omega), by simp, by simp⟩
  · rename_i hne
    exact ⟨by omega, by simp, by simp⟩

theorem length_exponent_le {x : Int} (hx : x.natAbs < 1000) : (exponent x).length ≤ 5 := by
  have hlen := decimal_length_le (show x.natAbs < 10 ^ (2 + 1) from hx)
  simp only [exponent, List.length_append, List.length_cons, List.length_nil]
  split
  · rename_i h
    have := decimal_length_le (show x.natAbs < 10 ^ (0 + 1) from h)
    simp only [List.length_cons, List.length_nil]
    omega
  · simp only [List.length_nil]
    omega

theorem length_formatMag_le {p : Nat} (hp : 1 ≤ p) {q : ℚ} (hlog : (Int.log 10 q).natAbs < 999) :
    (formatMag p q).length ≤ p + 6 := by
  obtain ⟨hm, hlo, hhi⟩ := toDigits_bounds hp q
  obtain ⟨k, rfl⟩ : ∃ k, p = k + 1 := ⟨p - 1, by omega⟩
  have hds := decimal_length_le hm
  have hfrac := fun ds => length_fraction_le ds
  have hexp := length_exponent_le (show (toDigits (k + 1) q).2.natAbs < 1000 by omega)
  simp only [formatMag]
  generalize toDigits (k + 1) q = mx at *
  split
  · have h₁ := hfrac ((decimal mx.1).drop 1)
    have h₂ := List.length_take_le 1 (decimal mx.1)
    simp only [List.length_append, List.length_drop] at h₁ ⊢
    omega
  · split
    · have h₁ := hfrac (List.replicate (-mx.2 - 1).toNat (ch '0') ++ decimal mx.1)
      simp only [List.length_cons, List.length_append, List.length_replicate] at h₁ ⊢
      omega
    · have h₁ := hfrac ((decimal mx.1).drop (mx.2.toNat + 1))
      simp only [List.length_append, List.length_drop, List.length_take] at h₁ ⊢
      omega

/-- Powers of two up to the limits of the format are below `10 ^ 432`. -/
theorem log_of_representable {q : ℚ} (hq : q ≠ 0) (h : Representable q) :
    (Int.log 10 |q|).natAbs < 999 := by
  have hpos : 0 < |q| := abs_pos.mpr hq
  have hten : (2 : ℚ) ^ (1080 : ℤ) ≤ 10 ^ (432 : ℤ) := by
    have h₁ : (2 : ℚ) ^ (1080 : ℤ) = (2 ^ 10) ^ 108 := by
      rw [← pow_mul, ← zpow_natCast]
      norm_num
    have h₂ : (10 : ℚ) ^ (432 : ℤ) = (10 ^ 4) ^ 108 := by
      rw [← pow_mul, ← zpow_natCast]
      norm_num
    rw [h₁, h₂]
    exact pow_le_pow_left₀ (by norm_num) (by norm_num) 108
  have hhi : Int.log 10 |q| < 432 := by
    apply (Int.lt_zpow_iff_log_lt (by norm_num) hpos).mp
    calc |q| < overflow := representable_lt h
      _ ≤ 2 ^ (1080 : ℤ) := zpow_le_zpow_right₀ (by norm_num) (by norm_num)
      _ ≤ 10 ^ (432 : ℤ) := hten
  have hlo : -432 ≤ Int.log 10 |q| := by
    apply (Int.zpow_le_iff_le_log (by norm_num) hpos).mp
    calc ((10 : ℕ) : ℚ) ^ (-432 : ℤ) = (10 ^ (432 : ℤ))⁻¹ := by rw [zpow_neg]; rfl
      _ ≤ (2 ^ (1080 : ℤ))⁻¹ := inv_anti₀ (by positivity) hten
      _ ≤ 2 ^ (-1074 : ℤ) := by
        rw [← zpow_neg]
        exact zpow_le_zpow_right₀ (by norm_num) (by norm_num)
      _ ≤ |q| := le_of_representable hq h
  omega

theorem length_formatG_le {p : Nat} (hp : 1 ≤ p) {q : ℚ} (h : Representable q) :
    (formatG p q).length ≤ p + 7 := by
  unfold formatG
  split
  · simp
  · rename_i hq
    have := length_formatMag_le hp (log_of_representable hq h)
    split
    · simp only [List.length_cons]
      omega
    · omega

theorem length_numberText_le (d : Double) : (numberText d).length ≤ 25 := by
  cases d with
  | inf neg => exact (by decide : (str "null").length ≤ 25)
  | finite q h =>
    have h15 := length_formatG_le (show 1 ≤ 15 by decide) h
    have h17 := length_formatG_le (show 1 ≤ 17 by decide) h
    simp only [numberText]
    split
    · split <;> omega
    · omega

/-- **Printing a number never fails**: its text fits the buffer. -/
theorem printNumber_eq (d : Double) : printNumber d = some (numberText d) :=
  if_pos (length_numberText_le d)

end MqttDevice.CJson
