import Mathlib.Tactic

/-!
# Queues with time differences

A queue of elements, each with the time from the element before it. `due` gives the time from
now on for each of them.

* `due_push`: an element is put at the end, so that it is due at a given time;
* `due_remove`: an element is taken out, and its time goes to the next one; the others are due
  when they were;
* `due_elapse`: time goes by. Of several elements that are due at the same time only the first
  is removed, if it is due at the very moment.
-/

namespace MqttDevice.DeltaList

variable {α β : Type*}

/-- All elements are due `n` later. -/
def delay (n : Nat) (l : List (α × Nat)) : List (α × Nat) := l.map fun x => (x.1, x.2 + n)

/-- All elements are due `n` earlier. -/
def advance (n : Nat) (l : List (α × Nat)) : List (α × Nat) := l.map fun x => (x.1, x.2 - n)

/-- When the elements are due. -/
def due : List (α × Nat) → List (α × Nat)
  | [] => []
  | (a, d) :: q => (a, d) :: delay d (due q)

/-- When the last element is due. -/
def total (q : List (α × Nat)) : Nat := (q.map Prod.snd).sum

/-- Put at the end. -/
def push (time : Nat) (a : α) (q : List (α × Nat)) : List (α × Nat) := q ++ [(a, time - total q)]

/-- The time of an element that was taken out goes to the next one. -/
def addHead (n : Nat) : List (α × Nat) → List (α × Nat)
  | [] => []
  | (a, d) :: q => (a, d + n) :: q

/-- Take out the first element with the property. -/
def remove (p : α → Bool) : List (α × Nat) → Option (α × List (α × Nat))
  | [] => none
  | (a, d) :: q =>
    if p a then some (a, addHead d q) else (remove p q).map fun r => (r.1, (a, d) :: r.2)

/-- The time `t` goes by: the elements that are removed, and the queue. -/
def elapse : Nat → List (α × Nat) → List α × List (α × Nat)
  | _, [] => ([], [])
  | 0, q => ([], q)
  | t + 1, (a, d) :: q =>
    if d ≤ t + 1 then (a :: (elapse (t + 1 - d) q).1, (elapse (t + 1 - d) q).2)
    else ([], (a, d - (t + 1)) :: q)

/-- The same by the times at which the elements are due. -/
def expire (t : Nat) : List (α × Nat) → List α × List (α × Nat)
  | [] => ([], [])
  | (a, n) :: l =>
    if n < t then (a :: (expire t l).1, (expire t l).2)
    else if n = t then ([a], advance t l)
    else ([], advance t ((a, n) :: l))

/-! ## Rules -/

@[simp] theorem delay_zero (l : List (α × Nat)) : delay 0 l = l := by simp [delay]

theorem delay_delay (m n : Nat) (l : List (α × Nat)) : delay m (delay n l) = delay (n + m) l := by
  simp [delay, Nat.add_assoc]

theorem delay_append (n : Nat) (l m : List (α × Nat)) :
    delay n (l ++ m) = delay n l ++ delay n m := List.map_append

theorem advance_delay {d t : Nat} (h : d ≤ t) (l : List (α × Nat)) :
    advance t (delay d l) = advance (t - d) l := by
  rw [advance, delay, List.map_map]
  refine List.map_congr_left fun x _ => ?_
  simp only [Function.comp, Prod.mk.injEq, true_and]
  omega

theorem advance_delay_of_le {d t : Nat} (h : t ≤ d) (l : List (α × Nat)) :
    advance t (delay d l) = delay (d - t) l := by
  rw [advance, delay, List.map_map]
  refine List.map_congr_left fun x _ => ?_
  simp only [Function.comp, Prod.mk.injEq, true_and]
  omega

@[simp] theorem advance_zero (l : List (α × Nat)) : advance 0 l = l := by simp [advance]

theorem total_cons (a : α) (d : Nat) (q : List (α × Nat)) : total ((a, d) :: q) = d + total q :=
  List.sum_cons

@[simp] theorem elapse_nil (t : Nat) : elapse t ([] : List (α × Nat)) = ([], []) := by
  cases t <;> rfl

/-- No time has gone by. -/
theorem elapse_zero (q : List (α × Nat)) : elapse 0 q = ([], q) := by
  cases q <;> rfl

/-- The last element is due after all others. -/
theorem total_le_iff {n : Nat} (q : List (α × Nat)) : total q ≤ n ↔ ∀ x ∈ due q, x.2 ≤ n := by
  induction q generalizing n with
  | nil => simp [total, due]
  | cons x q ih =>
    obtain ⟨a, d⟩ := x
    rw [total_cons, due, List.forall_mem_cons]
    constructor
    · intro h
      have hq := ih.mp (by omega : total q ≤ n - d)
      refine ⟨by omega, fun x hx => ?_⟩
      obtain ⟨y, hy, rfl⟩ := List.mem_map.mp hx
      have hle := hq y hy
      dsimp only
      omega
    · rintro ⟨hd, hq⟩
      have hle : total q ≤ n - d := ih.mpr fun y hy => by
        have hyd := hq (y.1, y.2 + d) (List.mem_map_of_mem hy)
        dsimp only at hyd
        omega
      omega

/-- An element is never due before its own time. -/
theorem le_total {x : α × Nat} {q : List (α × Nat)} (h : x ∈ q) : x.2 ≤ total q :=
  List.le_sum_of_mem (List.mem_map_of_mem h)

theorem length_due (q : List (α × Nat)) : (due q).length = q.length := by
  induction q with
  | nil => rfl
  | cons x q ih => simp [due, delay, ih]

theorem map_due (q : List (α × Nat)) : (due q).map Prod.fst = q.map Prod.fst := by
  induction q with
  | nil => rfl
  | cons x q ih =>
    obtain ⟨a, d⟩ := x
    simp only [due, delay, List.map_cons, List.map_map, ← ih]
    rfl

theorem due_append (q : List (α × Nat)) (a : α) (d : Nat) :
    due (q ++ [(a, d)]) = due q ++ [(a, total q + d)] := by
  induction q with
  | nil => simp [due, delay, total]
  | cons x q ih =>
    obtain ⟨b, e⟩ := x
    rw [List.cons_append, due, ih, due, delay_append, List.cons_append, total_cons,
      show e + total q + d = total q + d + e by omega]
    rfl

/-- **An element at the end** is due when it should be. -/
theorem due_push {time : Nat} (a : α) {q : List (α × Nat)} (h : total q ≤ time) :
    due (push time a q) = due q ++ [(a, time)] := by
  rw [push, due_append, Nat.add_sub_cancel' h]

theorem due_addHead (n : Nat) (q : List (α × Nat)) : due (addHead n q) = delay n (due q) := by
  cases q with
  | nil => rfl
  | cons x q =>
    obtain ⟨a, d⟩ := x
    rw [addHead, due, due, ← delay_delay]
    rfl

/-- **An element is taken out**: the others are due when they were. -/
theorem due_remove {p : α → Bool} {q q' : List (α × Nat)} {a : α} (h : remove p q = some (a, q')) :
    ∃ xs n ys, due q = xs ++ (a, n) :: ys ∧ due q' = xs ++ ys ∧ p a = true ∧
      ∀ x ∈ xs, p x.1 = false := by
  induction q generalizing q' with
  | nil => cases h
  | cons x q ih =>
    obtain ⟨b, d⟩ := x
    rw [remove] at h
    split at h
    · rename_i hb
      cases h
      exact ⟨[], d, _, rfl, due_addHead d q, hb, List.forall_mem_nil _⟩
    · rename_i hb
      obtain ⟨⟨a', r⟩, hr, heq⟩ := Option.map_eq_some_iff.mp h
      cases heq
      obtain ⟨xs, n, ys, hq, hr', ha, hxs⟩ := ih hr
      refine ⟨(b, d) :: delay d xs, n + d, delay d ys, ?_, ?_, ha, ?_⟩
      · rw [due, hq, delay_append]
        rfl
      · rw [due, hr', delay_append]
        rfl
      · refine List.forall_mem_cons.mpr ⟨by simpa using hb, fun x hx => ?_⟩
        obtain ⟨y, hy, rfl⟩ := List.mem_map.mp hx
        exact hxs y hy

theorem remove_append {p : α → Bool} {xs : List (α × Nat)} (hxs : ∀ x ∈ xs, p x.1 = false) {a : α}
    (ha : p a = true) (d : Nat) (ys : List (α × Nat)) :
    remove p (xs ++ (a, d) :: ys) = some (a, xs ++ addHead d ys) := by
  induction xs with
  | nil => rw [List.nil_append, remove, if_pos ha, List.nil_append]
  | cons x xs ih =>
    obtain ⟨b, e⟩ := x
    obtain ⟨hb, hrest⟩ := List.forall_mem_cons.mp hxs
    rw [List.cons_append, remove, if_neg (by simp [hb]), ih hrest]
    rfl

theorem expire_delay {t d : Nat} (h : d ≤ t) (l : List (α × Nat)) :
    expire t (delay d l) = expire (t - d) l := by
  induction l with
  | nil => rfl
  | cons x l ih =>
    obtain ⟨a, n⟩ := x
    have hcons : delay d ((a, n) :: l) = (a, n + d) :: delay d l := rfl
    rw [hcons, expire, expire, ih, ← hcons, advance_delay h, advance_delay h]
    have hlt : n + d < t ↔ n < t - d := by omega
    have heq : n + d = t ↔ n = t - d := by omega
    simp only [hlt, heq]

/-- **Time goes by**: what is removed, and when the others are due. -/
theorem due_elapse {t : Nat} (ht : 0 < t) (q : List (α × Nat)) :
    (elapse t q).1 = (expire t (due q)).1 ∧ due (elapse t q).2 = (expire t (due q)).2 := by
  induction q generalizing t with
  | nil => cases t <;> exact ⟨rfl, rfl⟩
  | cons x q ih =>
    obtain ⟨a, d⟩ := x
    obtain ⟨t, rfl⟩ := Nat.exists_eq_succ_of_ne_zero (by omega : t ≠ 0)
    rw [elapse, due, expire]
    rcases Nat.lt_trichotomy d (t + 1) with hlt | heq | hgt
    · obtain ⟨hout, hrest⟩ := ih (t := t + 1 - d) (by omega)
      rw [if_pos hlt.le, if_pos hlt, expire_delay hlt.le]
      exact ⟨congrArg (a :: ·) hout, hrest⟩
    · rw [if_pos heq.le, if_neg (by omega), if_pos heq, heq, Nat.sub_self, elapse_zero,
        advance_delay le_rfl, Nat.sub_self, advance_zero]
      exact ⟨rfl, rfl⟩
    · rw [if_neg (by omega), if_neg (by omega), if_neg (by omega)]
      refine ⟨rfl, ?_⟩
      rw [due, ← advance_delay_of_le hgt.le]
      rfl

end MqttDevice.DeltaList
