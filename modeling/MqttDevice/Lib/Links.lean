import Mathlib.Tactic

/-!
# Singly linked lists

`LinksTo next p l`: from the pointer `p` on, the pointers `next` lead through the cells `l`, and
end there.

* `LinksTo.congr`: what happens to other cells does not matter;
* `LinksTo.snoc`, `LinksTo.insert`: a cell is hung behind the last one, or behind any one;
* `LinksTo.unlink`, `LinksTo.dropBehind`: a cell is taken out behind another one, or at the front;
* `LinksTo.walk_eq`: the cells are read off.
-/

namespace MqttDevice.Links

variable {κ : Type*} {next next' : κ → Option κ}

def LinksTo (next : κ → Option κ) : Option κ → List κ → Prop
  | p, [] => p = none
  | p, i :: l => p = some i ∧ LinksTo next (next i) l

theorem LinksTo.congr {p : Option κ} {l : List κ} (h : LinksTo next p l)
    (hnext : ∀ i ∈ l, next' i = next i) : LinksTo next' p l := by
  induction l generalizing p with
  | nil => exact h
  | cons i l ih =>
    obtain ⟨hi, hl⟩ := List.forall_mem_cons.mp hnext
    refine ⟨h.1, ?_⟩
    rw [hi]
    exact ih h.2 hl

/-- The cells behind a cell. -/
theorem LinksTo.tail {p : Option κ} {xs ys : List κ} {i : κ} (h : LinksTo next p (xs ++ i :: ys)) :
    LinksTo next (next i) ys := by
  induction xs generalizing p with
  | nil => exact h.2
  | cons x xs ih => exact ih h.2

/-- No cell of the list points to itself. -/
theorem LinksTo.ne_self {p : Option κ} {l : List κ} (h : LinksTo next p l) (hl : l.Nodup) {i : κ}
    (hi : i ∈ l) : next i ≠ some i := by
  obtain ⟨xs, ys, rfl⟩ := List.append_of_mem hi
  intro hself
  have htail := h.tail
  rw [hself] at htail
  cases ys with
  | nil => cases htail
  | cons y ys =>
    obtain rfl := Option.some.inj htail.1
    have hcons := (List.nodup_append.mp hl).2.1
    exact (List.nodup_cons.mp hcons).1 List.mem_cons_self

variable [DecidableEq κ]

/-- The pointer of a cell is changed. -/
theorem LinksTo.relink {p q : Option κ} {xs ys zs : List κ} {i : κ}
    (h : LinksTo next p (xs ++ i :: ys)) (hi : i ∉ xs)
    (hz : LinksTo (Function.update next i q) q zs) :
    LinksTo (Function.update next i q) p (xs ++ i :: zs) := by
  induction xs generalizing p with
  | nil =>
    refine ⟨h.1, ?_⟩
    rw [Function.update_self]
    exact hz
  | cons x xs ih =>
    have hne : x ≠ i := fun hx => hi (hx ▸ List.mem_cons_self)
    refine ⟨h.1, ?_⟩
    rw [Function.update_of_ne hne]
    exact ih h.2 fun hxs => hi (List.mem_cons_of_mem x hxs)

/-- **A cell behind the last one.** -/
theorem LinksTo.snoc {p : Option κ} {xs : List κ} {i j : κ} (h : LinksTo next p (xs ++ [i]))
    (hi : i ∉ xs) (hij : j ≠ i) (hj : next j = none) :
    LinksTo (Function.update next i (some j)) p (xs ++ [i, j]) := by
  refine h.relink hi ⟨rfl, ?_⟩
  rw [Function.update_of_ne hij]
  exact hj

/-- **A cell is hung in.** -/
theorem LinksTo.insert {p : Option κ} {xs ys : List κ} {i j : κ}
    (h : LinksTo next p (xs ++ i :: ys)) (hl : (xs ++ i :: ys).Nodup) (hj : j ∉ xs ++ i :: ys) :
    LinksTo (Function.update (Function.update next j (next i)) i (some j)) p
      (xs ++ i :: j :: ys) := by
  obtain ⟨-, hcons, hdisj⟩ := List.nodup_append.mp hl
  have hxs : i ∉ xs := fun hi => hdisj i hi i List.mem_cons_self rfl
  have hys : i ∉ ys := (List.nodup_cons.mp hcons).1
  have hne : ∀ k ∈ xs ++ i :: ys, k ≠ j := fun k hk hkj => hj (hkj ▸ hk)
  have hji : j ≠ i := (hne i (by simp)).symm
  refine (h.congr fun k hk => Function.update_of_ne (hne k hk) ..).relink hxs ⟨rfl, ?_⟩
  rw [Function.update_of_ne hji, Function.update_self]
  refine h.tail.congr fun k hk => ?_
  have hki : k ≠ i := fun hki => hys (hki ▸ hk)
  rw [Function.update_of_ne hki, Function.update_of_ne (hne k (by simp [hk]))]

/-- **A cell is taken out.** -/
theorem LinksTo.unlink {p : Option κ} {xs ys : List κ} {i j : κ}
    (h : LinksTo next p (xs ++ i :: j :: ys)) (hi : i ∉ xs) (hiy : i ∉ ys) :
    LinksTo (Function.update next i (next j)) p (xs ++ i :: ys) := by
  have htail : LinksTo next (next j) ys := h.tail.2
  refine h.relink hi (htail.congr fun k hk => Function.update_of_ne ?_ ..)
  rintro rfl
  exact hiy hk

/-- The pointer to a cell is led past it. -/
theorem LinksTo.dropBehind {p : Option κ} {xs ys : List κ} {i : κ}
    (h : LinksTo next p (xs ++ i :: ys)) (hl : (xs ++ i :: ys).Nodup) :
    (xs = [] ∧ LinksTo next (next i) ys) ∨
      ∃ prev, xs.getLast? = some prev ∧ prev ∈ xs ∧
        LinksTo (Function.update next prev (next i)) p (xs ++ ys) := by
  cases hlast : xs.getLast? with
  | none => exact .inl ⟨List.getLast?_eq_none_iff.mp hlast, h.tail⟩
  | some prev =>
    obtain ⟨xs, rfl⟩ := List.getLast?_eq_some_iff.mp hlast
    rw [List.append_assoc, List.singleton_append] at h hl
    obtain ⟨-, hcons, hdisj⟩ := List.nodup_append.mp hl
    have hxs : prev ∉ xs := fun hmem => hdisj prev hmem prev List.mem_cons_self rfl
    have hys : prev ∉ ys := fun hmem =>
      (List.nodup_cons.mp hcons).1 (List.mem_cons_of_mem i hmem)
    refine .inr ⟨prev, rfl, by simp, ?_⟩
    rw [List.append_assoc, List.singleton_append]
    exact h.unlink hxs hys

/-- The cells that the pointers lead through, `n` at most. -/
def walk (next : κ → Option κ) : Nat → Option κ → List κ
  | n + 1, some i => i :: walk next n (next i)
  | _, _ => []

omit [DecidableEq κ] in
theorem LinksTo.walk_eq {p : Option κ} {l : List κ} (h : LinksTo next p l) {n : Nat}
    (hn : l.length ≤ n) : walk next n p = l := by
  induction l generalizing p n with
  | nil =>
    have hp : p = none := h
    rw [hp]
    cases n <;> rfl
  | cons i l ih =>
    obtain ⟨rfl, hrest⟩ := h
    obtain ⟨n, rfl⟩ := Nat.exists_eq_succ_of_ne_zero (Nat.ne_zero_of_lt hn)
    rw [walk, ih hrest (Nat.le_of_succ_le_succ hn)]

end MqttDevice.Links
