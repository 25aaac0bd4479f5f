import Mathlib.Tactic

/-!
# Circular slices of a memory

A memory is a function `f : Nat → α`; its first `n` cells are used as a ring.
`slice n f start count` is the content of `count` cells from position `start`
on, going round. Everything a queue in a ring needs is a rule about it:

* `slice_cons`, `slice_snoc`: taking from the front and adding at the back;
* `slice_add`: a slice is split at any point;
* `slice_congr`: writes outside a slice do not change it;
* `slice_store`, `slice_store_before`: a list stored from a position on is the
  slice there, and a slice that it leaves alone stays.
-/

namespace MqttDevice.Ring

variable {α : Type*} {n : Nat}

/-- The content of `count` cells of the ring from `start` on. -/
def slice (n : Nat) (f : Nat → α) (start count : Nat) : List α :=
  (List.range count).map fun j => f ((start + j) % n)

@[simp] theorem slice_zero (f : Nat → α) (start : Nat) : slice n f start 0 = [] := rfl

@[simp] theorem length_slice (f : Nat → α) (start count : Nat) :
    (slice n f start count).length = count := by
  simp [slice]

theorem slice_add (f : Nat → α) (start a b : Nat) :
    slice n f start (a + b) = slice n f start a ++ slice n f (start + a) b := by
  simp only [slice, List.range_add, List.map_append, List.map_map]
  congr 1
  exact List.map_congr_left fun j _ => by simp [Nat.add_assoc]

theorem slice_take (f : Nat → α) (start : Nat) {a b : Nat} (h : a ≤ b) :
    slice n f start a = (slice n f start b).take a := by
  rw [← Nat.add_sub_cancel' h, slice_add, List.take_left' (length_slice f start a)]

theorem slice_one (f : Nat → α) (start : Nat) : slice n f start 1 = [f (start % n)] := rfl

/-- The front of a slice. -/
theorem slice_cons (f : Nat → α) (start count : Nat) :
    slice n f start (count + 1) = f (start % n) :: slice n f (start + 1) count := by
  rw [Nat.add_comm, slice_add, slice_one]
  rfl

/-- The back of a slice. -/
theorem slice_snoc (f : Nat → α) (start count : Nat) :
    slice n f start (count + 1) = slice n f start count ++ [f ((start + count) % n)] := by
  rw [slice_add, slice_one]

/-- Positions count modulo `n`. -/
@[simp] theorem slice_mod (f : Nat → α) (start count : Nat) :
    slice n f (start % n) count = slice n f start count := by
  refine List.map_congr_left fun j _ => ?_
  rw [Nat.mod_add_mod]

theorem slice_congr_start (f : Nat → α) {start start' : Nat} (h : start % n = start' % n)
    (count : Nat) : slice n f start count = slice n f start' count := by
  rw [← slice_mod f start, h, slice_mod]

theorem slice_congr {f g : Nat → α} {start count : Nat}
    (h : ∀ j < count, g ((start + j) % n) = f ((start + j) % n)) :
    slice n g start count = slice n f start count :=
  List.map_congr_left fun j hj => h j (List.mem_range.mp hj)

/-- Two positions of a ring of which no more than `n` are in use are distinct. -/
theorem add_mod_ne {start i j : Nat} (hij : i < j) (hj : j < i + n) :
    (start + i) % n ≠ (start + j) % n := by
  intro h
  have hdvd : n ∣ (start + j) - (start + i) := (Nat.modEq_iff_dvd' (by omega)).mp h
  obtain ⟨k, hk⟩ := hdvd
  have hpos : 0 < j - i := by omega
  have hk' : j - i = n * k := by omega
  rcases Nat.eq_zero_or_pos k with rfl | hk0
  · omega
  · have := Nat.le_mul_of_pos_right n hk0
    omega

/-! ## Storing a list -/

/-- The list is written to the cells from `start` on. -/
def store (n : Nat) : (Nat → α) → Nat → List α → Nat → α
  | f, _, [] => f
  | f, start, a :: as => store n (Function.update f (start % n) a) (start + 1) as

theorem store_of_forall_ne (f : Nat → α) (start : Nat) (as : List α) {x : Nat}
    (h : ∀ j < as.length, (start + j) % n ≠ x) : store n f start as x = f x := by
  induction as generalizing f start with
  | nil => rfl
  | cons a as ih =>
    have h0 : start % n ≠ x := h 0 (Nat.succ_pos _)
    have hrest : ∀ j < as.length, (start + 1 + j) % n ≠ x := by
      intro j hj
      have := h (j + 1) (Nat.succ_lt_succ hj)
      rwa [show start + (j + 1) = start + 1 + j by omega] at this
    rw [store, ih _ _ hrest, Function.update_of_ne (Ne.symm h0)]

/-- A slice before the stored list stays, as long as the two fit in the ring. -/
theorem slice_store_before (f : Nat → α) (start : Nat) {count gap : Nat} (as : List α)
    (hc : count ≤ gap) (h : gap + as.length ≤ n) :
    slice n (store n f (start + gap) as) start count = slice n f start count := by
  refine slice_congr fun j hj => store_of_forall_ne f _ as fun i hi => ?_
  rw [Nat.add_assoc]
  exact (add_mod_ne (by omega) (by omega)).symm

/-- The stored list is the slice where it was stored. -/
theorem slice_store (f : Nat → α) (start : Nat) (as : List α) (h : as.length ≤ n) :
    slice n (store n f start as) start as.length = as := by
  induction as generalizing f start with
  | nil => rfl
  | cons a as ih =>
    simp only [List.length_cons] at h
    rw [List.length_cons, slice_cons, store, ih _ _ (by omega)]
    congr 1
    rw [store_of_forall_ne _ _ as fun j hj => ?_, Function.update_self]
    rw [Nat.add_assoc]
    exact (add_mod_ne (i := 0) (by omega) (by omega)).symm

end MqttDevice.Ring
