import Mathlib.Tactic

/-!
# One's complement sums

A sum in which the carry comes in again at the other end is a sum modulo `m`, except that zero and
`m` are told apart: only the sum of zeros is zero.

* `Same`: two numbers are the same to such a sum; it is kept by sums and products;
* `norm`: the number up to `m` that stands for them;
* `eq_norm`: how it is recognised;
* `same_pow`: the powers of a base `b` for which `b * b` is one modulo `m`.
-/

namespace MqttDevice.OnesComplement

/-- The same to a sum with end-around carry. -/
structure Same (m a b : Nat) : Prop where
  mod : a ≡ b [MOD m]
  zero : a = 0 ↔ b = 0

def norm (m n : Nat) : Nat := if n = 0 then 0 else (n - 1) % m + 1

variable {m a b c d k : Nat}

theorem Same.refl (m a : Nat) : Same m a a := ⟨rfl, Iff.rfl⟩

theorem Same.of_eq (h : a = b) : Same m a b := h ▸ .refl m a

theorem Same.symm (h : Same m a b) : Same m b a := ⟨h.mod.symm, h.zero.symm⟩

theorem Same.trans (h : Same m a b) (h' : Same m b c) : Same m a c :=
  ⟨h.mod.trans h'.mod, h.zero.trans h'.zero⟩

theorem Same.add (h : Same m a b) (h' : Same m c d) : Same m (a + c) (b + d) := by
  refine ⟨h.mod.add h'.mod, ?_⟩
  rw [Nat.add_eq_zero_iff, Nat.add_eq_zero_iff, h.zero, h'.zero]

theorem Same.mul_left (h : Same m a b) (k : Nat) : Same m (k * a) (k * b) := by
  refine ⟨h.mod.mul_left k, ?_⟩
  rw [Nat.mul_eq_zero, Nat.mul_eq_zero, h.zero]

theorem norm_le (hm : 0 < m) (n : Nat) : norm m n ≤ m := by
  unfold norm
  split
  · exact Nat.zero_le _
  · exact Nat.mod_lt _ hm

theorem norm_same (m n : Nat) : Same m (norm m n) n := by
  unfold norm
  split
  · rename_i hn
    rw [hn]
    exact .refl m 0
  · rename_i hn
    have hmod : (n - 1) % m + 1 ≡ n - 1 + 1 [MOD m] := (Nat.mod_modEq _ _).add_right 1
    rw [Nat.sub_add_cancel (Nat.one_le_iff_ne_zero.mpr hn)] at hmod
    exact ⟨hmod, by omega⟩

theorem norm_congr (h : Same m a b) : norm m a = norm m b := by
  unfold norm
  by_cases ha : a = 0
  · rw [if_pos ha, if_pos (h.zero.mp ha)]
  · have hb : b ≠ 0 := fun hb => ha (h.zero.mpr hb)
    rw [if_neg ha, if_neg hb]
    have hmod : a - 1 + 1 ≡ b - 1 + 1 [MOD m] := by
      rw [Nat.sub_add_cancel (Nat.one_le_iff_ne_zero.mpr ha),
        Nat.sub_add_cancel (Nat.one_le_iff_ne_zero.mpr hb)]
      exact h.mod
    exact congrArg (· + 1) (Nat.ModEq.add_right_cancel' 1 hmod)

theorem norm_of_le (h : a ≤ m) : norm m a = a := by
  unfold norm
  split
  · omega
  · rw [Nat.mod_eq_of_lt (by omega)]
    omega

/-- **The number that stands for a sum** is recognised by its size. -/
theorem eq_norm (hle : a ≤ m) (h : Same m a b) : a = norm m b := by
  rw [← norm_congr h, norm_of_le hle]

/-- Sums that come out the same are the same modulo `m`. -/
theorem modEq_of_norm_eq (h : norm m a = norm m b) : a ≡ b [MOD m] := by
  have ha := (norm_same m a).mod
  rw [h] at ha
  exact ha.symm.trans (norm_same m b).mod

/-- Powers of a base that is its own inverse count by their parity. -/
theorem same_pow (hb : b * b ≡ 1 [MOD m]) (hpos : b ≠ 0) {j k : Nat} (h : j % 2 = k % 2)
    (x : Nat) :
    Same m (b ^ j * x) (b ^ k * x) := by
  have hpow (i : Nat) : b ^ i ≡ b ^ (i % 2) [MOD m] := by
    have heven : (b * b) ^ (i / 2) ≡ 1 [MOD m] := by
      have hone := hb.pow (i / 2)
      rwa [Nat.one_pow] at hone
    have hmul := heven.mul_right (b ^ (i % 2))
    rwa [Nat.one_mul, ← Nat.pow_two, ← Nat.pow_mul, ← Nat.pow_add, Nat.div_add_mod] at hmul
  have hjk : b ^ j ≡ b ^ k [MOD m] := by
    have hj := hpow j
    rw [h] at hj
    exact hj.trans (hpow k).symm
  refine ⟨hjk.mul_right x, ?_⟩
  rw [Nat.mul_eq_zero, Nat.mul_eq_zero, or_iff_right (pow_ne_zero j hpos),
    or_iff_right (pow_ne_zero k hpos)]

end MqttDevice.OnesComplement
