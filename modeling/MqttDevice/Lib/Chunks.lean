import Mathlib.Tactic

/-!
# Lists in pieces

`pieces n start l` is the list `l`, which begins at position `start` of something longer,
cut into pieces of `n` elements; the last one may be shorter.

* `pieces_cons`: the first piece and the rest;
* `mem_pieces`: how long the pieces are, and where they lie.
-/

namespace MqttDevice.Chunks

variable {α : Type*}

/-- A piece and the position at which it begins. -/
structure Piece (α : Type*) where
  start : Nat
  data : List α

/-- The position behind the piece. -/
def Piece.stop (q : Piece α) : Nat := q.start + q.data.length

def pieces (n start : Nat) (l : List α) : List (Piece α) :=
  if l = [] ∨ n = 0 then [] else ⟨start, l.take n⟩ :: pieces n (start + n) (l.drop n)
termination_by l.length
decreasing_by
  rename_i h
  have hpos : 0 < l.length := List.length_pos_iff.mpr fun hl => h (.inl hl)
  rw [List.length_drop]
  omega

@[simp] theorem pieces_nil (n start : Nat) : pieces n start ([] : List α) = [] := by
  rw [pieces, if_pos (.inl rfl)]

theorem pieces_cons {n : Nat} (hn : 0 < n) (start : Nat) {l : List α} (hl : l ≠ []) :
    pieces n start l = ⟨start, l.take n⟩ :: pieces n (start + n) (l.drop n) := by
  rw [pieces, if_neg]
  rintro (h | h)
  · exact hl h
  · omega

/-- The pieces are not empty, have at most `n` elements and lie in the list. -/
theorem mem_pieces {n start : Nat} {l : List α} {q : Piece α} (h : q ∈ pieces n start l) :
    q.data ≠ [] ∧ q.data.length ≤ n ∧ start ≤ q.start ∧ q.stop ≤ start + l.length := by
  induction hk : l.length using Nat.strong_induction_on generalizing start l with
  | _ k ih =>
    by_cases hl : l = [] ∨ n = 0
    · rw [pieces, if_pos hl] at h
      cases h
    · rw [pieces, if_neg hl] at h
      obtain ⟨hne, hn⟩ := not_or.mp hl
      have hpos := List.length_pos_iff.mpr hne
      rcases List.mem_cons.mp h with rfl | h
      · have hlen : (l.take n).length = min n l.length := List.length_take
        refine ⟨List.length_pos_iff.mp ?_, ?_, le_rfl, ?_⟩
        · dsimp only
          omega
        · dsimp only
          omega
        · dsimp only [Piece.stop]
          omega
      · have hlen : (l.drop n).length = l.length - n := List.length_drop
        obtain ⟨hdata, hle, hstart, hstop⟩ := ih _ (by omega) h rfl
        refine ⟨hdata, hle, by omega, ?_⟩
        by_cases hlast : n ≤ l.length
        · omega
        · rw [List.drop_of_length_le (by omega), pieces_nil] at h
          cases h

end MqttDevice.Chunks
