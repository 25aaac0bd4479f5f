import Mathlib.Tactic

/-!
# Deadlines on a wrapping counter

A counter of `w` bits, a saved reading `last` of it, and an interval. The
naive test `last + interval < now` compares two wrapped values; the elapsed
time is `now - last`. Proved here, for every width and all values:

* `naive_iff_elapsed`: the two tests agree exactly when the sum overflows and
  the counter has wrapped, or neither has (`InPhase`);
* `elapsed_le`: for readings of one true time line, the wrapped difference
  never exceeds the true one.
-/

namespace MqttDevice.Wrap

variable {w : Nat}

/-- The sum `last + interval` overflows exactly when the counter has wrapped
past `last`. -/
def InPhase (last interval now : BitVec w) : Prop :=
  last.toNat + interval.toNat < 2 ^ w ↔ last.toNat ≤ now.toNat

instance (last interval now : BitVec w) : Decidable (InPhase last interval now) :=
  inferInstanceAs (Decidable (_ ↔ _))

/-- The difference of two readings, in terms of the values read. -/
theorem toNat_sub_cases (last now : BitVec w) :
    (now - last).toNat = if last.toNat ≤ now.toNat then now.toNat - last.toNat
      else 2 ^ w - last.toNat + now.toNat := by
  have hl := last.isLt
  have hn := now.isLt
  rw [BitVec.toNat_sub]
  split
  · rename_i h
    rw [show 2 ^ w - last.toNat + now.toNat = now.toNat - last.toNat + 2 ^ w by omega,
      Nat.add_mod_right, Nat.mod_eq_of_lt (by omega)]
  · rename_i h
    exact Nat.mod_eq_of_lt (by omega)

/-- The wrapped sum, in terms of the values added. -/
theorem toNat_add_cases (last interval : BitVec w) :
    (last + interval).toNat = if last.toNat + interval.toNat < 2 ^ w
      then last.toNat + interval.toNat else last.toNat + interval.toNat - 2 ^ w := by
  have hl := last.isLt
  have hi := interval.isLt
  rw [BitVec.toNat_add]
  split
  · rename_i h
    exact Nat.mod_eq_of_lt h
  · rename_i h
    rw [Nat.mod_eq_sub_mod (by omega), Nat.mod_eq_of_lt (by omega)]

/-- **Exactness.** The naive test says whether the elapsed ticks exceed the
interval exactly when sum and counter are in phase. -/
theorem naive_iff_elapsed (last interval now : BitVec w) :
    (last + interval < now ↔ interval < now - last) ↔ InPhase last interval now := by
  have hl := last.isLt
  have hi := interval.isLt
  have hn := now.isLt
  rw [BitVec.lt_def, BitVec.lt_def, toNat_add_cases, toNat_sub_cases, InPhase]
  by_cases hsum : last.toNat + interval.toNat < 2 ^ w <;>
    by_cases hnow : last.toNat ≤ now.toNat <;>
      simp only [hsum, hnow, if_true, if_false, iff_true, iff_false, not_true_eq_false] <;>
      omega

/-- Readings of a true time line: the wrapped difference is at most the true one. -/
theorem elapsed_le {t u : Nat} (h : t ≤ u) :
    (BitVec.ofNat w u - BitVec.ofNat w t).toNat ≤ u - t := by
  have e : BitVec.ofNat w u - BitVec.ofNat w t = BitVec.ofNat w (u - t) := by
    obtain ⟨d, rfl⟩ := Nat.exists_eq_add_of_le h
    rw [Nat.add_sub_cancel_left, Nat.add_comm, BitVec.ofNat_add, BitVec.add_sub_cancel]
  rw [e, BitVec.toNat_ofNat]
  exact Nat.mod_le _ _

end MqttDevice.Wrap
