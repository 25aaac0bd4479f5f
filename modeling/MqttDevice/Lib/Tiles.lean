import Mathlib.Tactic

/-!
# Tilings

A stretch of memory is cut into blocks that lie one behind the other, each held by an owner or free.
Two free blocks never lie next to each other, a block has at least `least` bytes, and an owner has
what it needs and less than `least` more.

* `alloc`, `release`, `shrink`: the operations, with `Tiled.alloc`, `Tiled.release`,
  `Tiled.shrink`: they keep this;
* `held_alloc`, `held_release`, `held_shrink`: what they do to what is held;
* `Tiled.pairwise_held`: owners do not overlap;
* `Tiled.total_le`, `Tiled.total_le_of_alloc`: when an owner finds no place, that much is held;
* `Tiled.eq_singleton`: when nothing is held, there is one block.
-/

namespace MqttDevice.Tiles

variable {ν : Type*}

structure Block (ν : Type*) where
  size : Nat
  owner : Option ν

def total (bs : List (Block ν)) : Nat := (bs.map Block.size).sum

/-- The owners, with the places of their blocks. -/
def held : Nat → List (Block ν) → List (Nat × ν)
  | _, [] => []
  | o, b :: bs => (b.owner.toList.map fun v => (o, v)) ++ held (o + b.size) bs

/-- The place of the first free block, or the end. -/
def firstFree : Nat → List (Block ν) → Nat
  | o, [] => o
  | o, b :: bs => if b.owner.isSome then firstFree (o + b.size) bs else o

/-- A block in front; two free blocks become one. -/
def push (b : Block ν) : List (Block ν) → List (Block ν)
  | [] => [b]
  | c :: bs =>
    if b.owner.isSome ∨ c.owner.isSome then b :: c :: bs else ⟨b.size + c.size, none⟩ :: bs

/-- What an owner does not need of a block stays free, if it is large enough. -/
def cut (least : Nat) (need : ν → Nat) (v : ν) (b : Block ν) (bs : List (Block ν)) :
    List (Block ν) :=
  if need v + least ≤ b.size then ⟨need v, some v⟩ :: push ⟨b.size - need v, none⟩ bs
  else ⟨b.size, some v⟩ :: bs

/-- The block is free and large enough. -/
def Fits (need : ν → Nat) (v : ν) (b : Block ν) : Prop := b.owner = none ∧ need v ≤ b.size

/-- The owner takes the first block that fits. -/
def alloc (least : Nat) (need : ν → Nat) (v : ν) :
    Nat → List (Block ν) → Option (Nat × List (Block ν))
  | _, [] => none
  | o, b :: bs =>
    if b.owner.isNone ∧ need v ≤ b.size then some (o, cut least need v b bs)
    else (alloc least need v (o + b.size) bs).map fun x => (x.1, b :: x.2)

/-- The block at `t` is freed. -/
def release (t : Nat) : Nat → List (Block ν) → List (Block ν)
  | _, [] => []
  | o, b :: bs => if o = t then push ⟨b.size, none⟩ bs else push b (release t (o + b.size) bs)

/-- What is left of a block that shrinks goes to the free block behind it, or becomes one, if it is
large enough. -/
def shrunk (least : Nat) (need : ν → Nat) (v : ν) (b : Block ν) : List (Block ν) → List (Block ν)
  | ⟨n, none⟩ :: bs => ⟨need v, some v⟩ :: ⟨b.size - need v + n, none⟩ :: bs
  | bs => cut least need v b bs

/-- The owner of the block at `t` is now `v`, if it needs no more than it has. -/
def shrink (least : Nat) (need : ν → Nat) (v : ν) (t : Nat) :
    Nat → List (Block ν) → Option (List (Block ν))
  | _, [] => none
  | o, b :: bs =>
    if o = t then (if need v ≤ b.size then some (shrunk least need v b bs) else none)
    else (shrink least need v t (o + b.size) bs).map (b :: ·)

/-- Not both are free. -/
def Apart (b c : Block ν) : Prop := b.owner.isSome ∨ c.owner.isSome

structure Tiled (least : Nat) (need : ν → Nat) (bs : List (Block ν)) : Prop where
  large : ∀ b ∈ bs, least ≤ b.size
  fitted : ∀ b ∈ bs, ∀ v ∈ b.owner, need v ≤ b.size ∧ b.size < need v + least
  apart : bs.IsChain Apart

variable {least t o : Nat} {need : ν → Nat} {v : ν} {b c : Block ν} {as bs cs : List (Block ν)}

@[simp] theorem total_nil : total ([] : List (Block ν)) = 0 := rfl

@[simp] theorem total_cons (b : Block ν) (bs : List (Block ν)) :
    total (b :: bs) = b.size + total bs := rfl

@[simp] theorem total_append (as bs : List (Block ν)) :
    total (as ++ bs) = total as + total bs := by
  rw [total, List.map_append, List.sum_append]
  rfl

/-! ## What is held -/

theorem held_append (o : Nat) (as bs : List (Block ν)) :
    held o (as ++ bs) = held o as ++ held (o + total as) bs := by
  induction as generalizing o with
  | nil => rfl
  | cons a as ih =>
    rw [List.cons_append, held, ih, held, total_cons, Nat.add_assoc, List.append_assoc]

theorem held_used (o s : Nat) (v : ν) (bs : List (Block ν)) :
    held o (⟨s, some v⟩ :: bs) = (o, v) :: held (o + s) bs := rfl

theorem held_free (o s : Nat) (bs : List (Block ν)) :
    held o (⟨s, none⟩ :: bs) = held (o + s) bs := rfl

/-- Where an owner's block lies. -/
theorem split_of_mem_held {x : Nat × ν} (hx : x ∈ held o bs) :
    ∃ as s cs, bs = as ++ ⟨s, some x.2⟩ :: cs ∧ x.1 = o + total as := by
  induction bs generalizing o with
  | nil => cases hx
  | cons b bs ih =>
    rw [held, List.mem_append] at hx
    rcases hx with hx | hx
    · obtain ⟨v, hv, rfl⟩ := List.mem_map.mp hx
      have hb : b = ⟨b.size, some v⟩ := by
        rw [← Option.mem_toList.mp hv]
      exact ⟨[], b.size, bs, by rw [List.nil_append, ← hb], rfl⟩
    · obtain ⟨as, s, cs, rfl, hat⟩ := ih hx
      exact ⟨b :: as, s, cs, rfl, by rw [hat, total_cons, Nat.add_assoc]⟩

/-- Where the first free block lies. -/
theorem firstFree_split (o : Nat) (bs : List (Block ν)) :
    ∃ as cs, bs = as ++ cs ∧ firstFree o bs = o + total as ∧ (∀ a ∈ as, a.owner.isSome) ∧
      ∀ c ∈ cs.head?, c.owner = none := by
  induction bs generalizing o with
  | nil => exact ⟨[], [], rfl, rfl, by simp, by simp⟩
  | cons b bs ih =>
    rw [firstFree]
    split
    · rename_i hb
      obtain ⟨as, cs, rfl, hat, has, hcs⟩ := ih (o + b.size)
      refine ⟨b :: as, cs, rfl, ?_, List.forall_mem_cons.mpr ⟨hb, has⟩, hcs⟩
      rw [hat, total_cons, Nat.add_assoc]
    · rename_i hb
      refine ⟨[], b :: bs, rfl, rfl, by simp, ?_⟩
      rintro _ ⟨⟩
      exact Option.not_isSome_iff_eq_none.mp hb

theorem firstFree_append (h : ∀ a ∈ as, a.owner.isSome) (o : Nat) :
    firstFree o (as ++ bs) = firstFree (o + total as) bs := by
  induction as generalizing o with
  | nil => rfl
  | cons a as ih =>
    obtain ⟨ha, has⟩ := List.forall_mem_cons.mp h
    rw [List.cons_append, firstFree, if_pos ha, ih has, total_cons, Nat.add_assoc]

theorem le_of_mem_held {x : Nat × ν} (hx : x ∈ held o bs) : o ≤ x.1 := by
  obtain ⟨as, s, cs, -, hat⟩ := split_of_mem_held hx
  rw [hat]
  exact Nat.le_add_right _ _

theorem lt_of_mem_held (hpos : ∀ b ∈ bs, 0 < b.size) {x : Nat × ν} (hx : x ∈ held o bs) :
    x.1 < o + total bs := by
  obtain ⟨as, s, cs, rfl, hat⟩ := split_of_mem_held hx
  have hs := hpos ⟨s, some x.2⟩ (by simp)
  rw [hat, total_append, total_cons]
  dsimp only at hs ⊢
  omega

theorem firstFree_append_of_free (h : ∃ a ∈ as, a.owner = none) (o : Nat) :
    firstFree o (as ++ bs) = firstFree o as := by
  induction as generalizing o with
  | nil =>
    obtain ⟨a, ha, -⟩ := h
    cases ha
  | cons a as ih =>
    rw [List.cons_append, firstFree, firstFree]
    split
    · rename_i ha
      refine ih ?_ _
      obtain ⟨c, hc, hfree⟩ := h
      rcases List.mem_cons.mp hc with rfl | hc
      · rw [hfree] at ha
        cases ha
      · exact ⟨c, hc, hfree⟩
    · rfl

theorem le_firstFree (o : Nat) (bs : List (Block ν)) : o ≤ firstFree o bs := by
  obtain ⟨as, cs, -, hat, -⟩ := firstFree_split o bs
  rw [hat]
  exact Nat.le_add_right _ _

theorem firstFree_le_of_free (hb : b.owner = none) (o : Nat) (as bs : List (Block ν)) :
    firstFree o (as ++ b :: bs) ≤ o + total as := by
  induction as generalizing o with
  | nil =>
    rw [List.nil_append, firstFree, hb]
    exact Nat.le_refl _
  | cons a as ih =>
    rw [List.cons_append, firstFree, total_cons, ← Nat.add_assoc]
    split
    · exact ih _
    · omega

theorem firstFree_le_total (o : Nat) (bs : List (Block ν)) : firstFree o bs ≤ o + total bs := by
  obtain ⟨as, cs, rfl, hat, -⟩ := firstFree_split o bs
  rw [hat, total_append]
  omega

/-- Behind the blocks only what is free among them matters. -/
theorem min_firstFree_append (hpos : ∀ a ∈ as, 0 < a.size) (o : Nat) (bs : List (Block ν)) :
    min (firstFree o (as ++ bs)) (o + total as) = firstFree o as := by
  induction as generalizing o with
  | nil => exact Nat.min_eq_right (le_firstFree o bs)
  | cons a as ih =>
    obtain ⟨-, has⟩ := List.forall_mem_cons.mp hpos
    rw [List.cons_append, firstFree, firstFree, total_cons, ← Nat.add_assoc]
    split
    · exact ih has _
    · omega

theorem firstFree_lt_of_free (hpos : ∀ a ∈ as, 0 < a.size) (h : ∃ a ∈ as, a.owner = none)
    (o : Nat) : firstFree o as < o + total as := by
  induction as generalizing o with
  | nil =>
    obtain ⟨a, ha, -⟩ := h
    cases ha
  | cons a as ih =>
    obtain ⟨ha, has⟩ := List.forall_mem_cons.mp hpos
    rw [firstFree, total_cons, ← Nat.add_assoc]
    split
    · rename_i hused
      refine ih has ?_ _
      obtain ⟨c, hc, hfree⟩ := h
      rcases List.mem_cons.mp hc with rfl | hc
      · rw [hfree] at hused
        cases hused
      · exact ⟨c, hc, hfree⟩
    · omega

/-- What is behind some blocks matters for the first free block only when all of them are held. -/
theorem firstFree_append_cases (hpos : ∀ a ∈ as, 0 < a.size) (o : Nat) :
    (∀ bs, firstFree o (as ++ bs) = firstFree (o + total as) bs) ∨
      ∃ f < o + total as, ∀ bs, firstFree o (as ++ bs) = f := by
  by_cases hused : ∀ a ∈ as, a.owner.isSome
  · exact .inl fun bs => firstFree_append hused o
  · have hfree : ∃ a ∈ as, a.owner = none := by simpa using hused
    exact .inr ⟨_, firstFree_lt_of_free hpos hfree o, fun bs => firstFree_append_of_free hfree o⟩

theorem firstFree_retag (hpos : ∀ a ∈ as, 0 < a.size) (s o : Nat) (v w : ν) :
    firstFree o (as ++ ⟨s, some v⟩ :: bs) = firstFree o (as ++ ⟨s, some w⟩ :: bs) := by
  rcases firstFree_append_cases hpos o with hall | ⟨f, -, hall⟩
  · rw [hall, hall]
    rfl
  · rw [hall, hall]

/-- The end of a block becomes free. -/
theorem firstFree_divide {n s : Nat} (hpos : ∀ a ∈ as, 0 < a.size) (h : n ≤ s) (m o : Nat) (v w : ν) :
    firstFree o (as ++ ⟨n, some v⟩ :: ⟨m, none⟩ :: bs) =
      min (firstFree o (as ++ ⟨s, some w⟩ :: cs)) (o + total as + n) := by
  rcases firstFree_append_cases hpos o with hall | ⟨f, hf, hall⟩
  · have hle := le_firstFree (o + total as + s) cs
    have hbefore : firstFree (o + total as) (⟨s, some w⟩ :: cs) =
        firstFree (o + total as + s) cs := rfl
    have hafter : firstFree (o + total as) (⟨n, some v⟩ :: ⟨m, none⟩ :: bs) = o + total as + n := rfl
    rw [hall, hall, hbefore, hafter]
    exact (Nat.min_eq_right (by omega)).symm
  · rw [hall, hall]
    exact (Nat.min_eq_left (by omega)).symm

/-- The end of a block goes to the free block behind it. -/
theorem firstFree_move {s : Nat} (hpos : ∀ a ∈ as, 0 < a.size) (n m k o : Nat) (v w : ν) :
    firstFree o (as ++ ⟨n, some v⟩ :: ⟨m, none⟩ :: bs) =
      if firstFree o (as ++ ⟨s, some w⟩ :: ⟨k, none⟩ :: bs) = o + total as + s then o + total as + n
      else firstFree o (as ++ ⟨s, some w⟩ :: ⟨k, none⟩ :: bs) := by
  rcases firstFree_append_cases hpos o with hall | ⟨f, hf, hall⟩
  · rw [hall, hall]
    exact (if_pos rfl).symm
  · rw [hall, hall, if_neg (by omega)]

/-! ## A block in front -/

theorem firstFree_push (o : Nat) (b : Block ν) (bs : List (Block ν)) :
    firstFree o (push b bs) = firstFree o (b :: bs) := by
  cases bs with
  | nil => rfl
  | cons c bs =>
    rw [push]
    split
    · rfl
    · rename_i hfree
      rw [firstFree, firstFree, if_neg fun hb => hfree (.inl hb)]
      rfl

theorem held_push (o : Nat) (b : Block ν) (bs : List (Block ν)) :
    held o (push b bs) = held o (b :: bs) := by
  cases bs with
  | nil => rfl
  | cons c bs =>
    rw [push]
    split
    · rfl
    · rename_i hfree
      have hb : b.owner = none := Option.not_isSome_iff_eq_none.mp fun h => hfree (.inl h)
      have hc : c.owner = none := Option.not_isSome_iff_eq_none.mp fun h => hfree (.inr h)
      rw [held, held, held, hb, hc, Nat.add_assoc]
      rfl

theorem push_of_apart (h : ∀ c ∈ bs.head?, Apart b c) : push b bs = b :: bs := by
  cases bs with
  | nil => rfl
  | cons c bs => exact if_pos (h c rfl)

theorem push_free_eq_cons (n : Nat) (bs : List (Block ν)) :
    ∃ m cs, push ⟨n, none⟩ bs = ⟨m, none⟩ :: cs := by
  cases bs with
  | nil => exact ⟨n, [], rfl⟩
  | cons c bs =>
    rw [push]
    split
    · exact ⟨n, c :: bs, rfl⟩
    · exact ⟨n + c.size, bs, rfl⟩

theorem held_foldr_push (o : Nat) (as bs : List (Block ν)) :
    held o (as.foldr push bs) = held o (as ++ bs) := by
  induction as generalizing o with
  | nil => rfl
  | cons a as ih => rw [List.foldr_cons, held_push, List.cons_append, held, held, ih]

theorem head?_push (b : Block ν) (bs : List (Block ν)) :
    ∃ c, (push b bs).head? = some c ∧ c.owner = b.owner := by
  cases bs with
  | nil => exact ⟨b, rfl, rfl⟩
  | cons c bs =>
    rw [push]
    split
    · exact ⟨b, rfl, rfl⟩
    · rename_i hfree
      exact ⟨_, rfl, (Option.not_isSome_iff_eq_none.mp fun h => hfree (.inl h)).symm⟩

/-- In front of blocks of which no two are free and adjacent, nothing is joined. -/
theorem foldr_push (h : (as ++ [b]).IsChain Apart) (bs : List (Block ν)) :
    as.foldr push (push b bs) = as ++ push b bs := by
  induction as with
  | nil => rfl
  | cons a as ih =>
    rw [List.foldr_cons, ih h.tail, List.cons_append]
    refine push_of_apart fun c hc => ?_
    cases as with
    | nil =>
      obtain ⟨d, hd, howner⟩ := head?_push b bs
      rw [List.nil_append, hd] at hc
      obtain rfl := Option.some.inj hc
      have hab : Apart a b := (List.isChain_cons_cons.mp h).1
      rw [Apart, howner]
      exact hab
    | cons a' as =>
      obtain rfl := Option.some.inj hc
      exact (List.isChain_cons_cons.mp h).1

/-! ## The operations -/

/-- **The first block that fits** is taken. -/
theorem alloc_eq_some {bs' : List (Block ν)} (h : alloc least need v o bs = some (t, bs')) :
    ∃ as b cs, bs = as ++ b :: cs ∧ t = o + total as ∧ (∀ a ∈ as, ¬Fits need v a) ∧
      Fits need v b ∧ bs' = as ++ cut least need v b cs := by
  induction bs generalizing o bs' with
  | nil => cases h
  | cons b bs ih =>
    rw [alloc] at h
    split at h
    · rename_i hfits
      cases h
      exact ⟨[], b, bs, rfl, rfl, by simp, ⟨Option.isNone_iff_eq_none.mp hfits.1, hfits.2⟩, rfl⟩
    · rename_i hfits
      obtain ⟨⟨t', bs''⟩, hx, hpair⟩ := Option.map_eq_some_iff.mp h
      cases hpair
      obtain ⟨as, c, cs, rfl, rfl, has, hc, rfl⟩ := ih hx
      refine ⟨b :: as, c, cs, rfl, ?_, List.forall_mem_cons.mpr ⟨?_, has⟩, hc, rfl⟩
      · rw [total_cons, Nat.add_assoc]
      · exact fun hb => hfits ⟨Option.isNone_iff_eq_none.mpr hb.1, hb.2⟩

theorem alloc_eq_none (h : alloc least need v o bs = none) : ∀ b ∈ bs, ¬Fits need v b := by
  induction bs generalizing o with
  | nil => simp
  | cons b bs ih =>
    rw [alloc] at h
    split at h
    · cases h
    · rename_i hfits
      refine List.forall_mem_cons.mpr ⟨fun hb => ?_, ih (Option.map_eq_none_iff.mp h)⟩
      exact hfits ⟨Option.isNone_iff_eq_none.mpr hb.1, hb.2⟩

theorem alloc_eq_none_of_total (h : total bs < need v) (o : Nat) :
    alloc least need v o bs = none := by
  induction bs generalizing o with
  | nil => rfl
  | cons b bs ih =>
    rw [total_cons] at h
    have hsmall : ¬(b.owner.isNone ∧ need v ≤ b.size) := by omega
    rw [alloc, if_neg hsmall, ih (by omega)]
    rfl

/-- Blocks that are held are passed over. -/
theorem alloc_append (h : ∀ a ∈ as, a.owner.isSome) (o : Nat) :
    (alloc least need v o (as ++ bs)).map Prod.fst =
      (alloc least need v (o + total as) bs).map Prod.fst := by
  induction as generalizing o with
  | nil => rfl
  | cons a as ih =>
    obtain ⟨ha, has⟩ := List.forall_mem_cons.mp h
    have hused : ¬(a.owner.isNone ∧ need v ≤ a.size) := by
      rintro ⟨hnone, -⟩
      rw [Option.isNone_iff_eq_none.mp hnone] at ha
      cases ha
    rw [List.cons_append, alloc, if_neg hused, Option.map_map, total_cons, ← Nat.add_assoc,
      ← ih has]
    rfl

theorem release_append (hpos : ∀ a ∈ as, 0 < a.size) :
    release (o + total as) o (as ++ b :: bs) = as.foldr push (push ⟨b.size, none⟩ bs) := by
  induction as generalizing o with
  | nil => exact if_pos rfl
  | cons a as ih =>
    obtain ⟨ha, has⟩ := List.forall_mem_cons.mp hpos
    have hne : o ≠ o + total (a :: as) := by
      rw [total_cons]
      omega
    rw [List.cons_append, release, if_neg hne, total_cons, ← Nat.add_assoc, ih has]
    rfl

theorem shrink_append (hpos : ∀ a ∈ as, 0 < a.size) :
    shrink least need v (o + total as) o (as ++ b :: bs) =
      if need v ≤ b.size then some (as ++ shrunk least need v b bs) else none := by
  induction as generalizing o with
  | nil => exact if_pos rfl
  | cons a as ih =>
    obtain ⟨ha, has⟩ := List.forall_mem_cons.mp hpos
    have hne : o ≠ o + total (a :: as) := by
      rw [total_cons]
      omega
    rw [List.cons_append, shrink, if_neg hne, total_cons, ← Nat.add_assoc, ih has]
    split <;> rfl

theorem shrunk_of_held (h : ∀ c ∈ bs.head?, c.owner.isSome) :
    shrunk least need v b bs = cut least need v b bs := by
  unfold shrunk
  split
  · exact absurd (h _ rfl) Bool.false_ne_true
  · rfl

/-- Nothing is left over. -/
theorem shrunk_of_eq (hpos : 0 < least) (h : need v = b.size) :
    shrunk least need v b bs = ⟨b.size, some v⟩ :: bs := by
  unfold shrunk
  split
  · rw [h, Nat.sub_self, Nat.zero_add]
  · exact if_neg (by omega)

/-- **Freeing** a block lowers the first free place to its own. -/
theorem firstFree_release (hpos : ∀ a ∈ as, 0 < a.size) (o : Nat) :
    firstFree o (release (o + total as) o (as ++ b :: bs)) = firstFree o as := by
  induction as generalizing o with
  | nil =>
    rw [List.nil_append, total_nil, Nat.add_zero, release, if_pos rfl, firstFree_push]
    rfl
  | cons a as ih =>
    obtain ⟨ha, has⟩ := List.forall_mem_cons.mp hpos
    have hne : o ≠ o + total (a :: as) := by
      rw [total_cons]
      omega
    rw [List.cons_append, release, if_neg hne, firstFree_push, firstFree, firstFree, total_cons,
      ← Nat.add_assoc, ih has]

theorem held_cut (o : Nat) (v : ν) (b : Block ν) (bs : List (Block ν)) :
    held o (cut least need v b bs) = (o, v) :: held (o + b.size) bs := by
  unfold cut
  split
  · rename_i hroom
    have hsize : o + need v + (b.size - need v) = o + b.size := by omega
    rw [held_used, held_push, held_free, hsize]
  · exact held_used ..

theorem held_shrunk (h : need v ≤ b.size) (o : Nat) (bs : List (Block ν)) :
    held o (shrunk least need v b bs) = (o, v) :: held (o + b.size) bs := by
  unfold shrunk
  split
  · rename_i n bs
    have hsize : o + need v + (b.size - need v + n) = o + b.size + n := by omega
    rw [held_used, held_free, held_free, hsize]
  · exact held_cut ..

/-- **A new owner.** -/
theorem held_alloc {bs' : List (Block ν)} (h : alloc least need v o bs = some (t, bs')) :
    (held o bs').Perm ((t, v) :: held o bs) := by
  obtain ⟨as, b, cs, rfl, rfl, -, ⟨hfree, -⟩, rfl⟩ := alloc_eq_some h
  rw [held_append, held_append, held_cut, held, hfree]
  exact List.perm_middle

/-- **An owner less.** -/
theorem held_release (hpos : ∀ b ∈ bs, 0 < b.size) (t o : Nat) :
    held o (release t o bs) = (held o bs).filter fun x => x.1 ≠ t := by
  induction bs generalizing o with
  | nil => rfl
  | cons b bs ih =>
    obtain ⟨hb, hbs⟩ := List.forall_mem_cons.mp hpos
    rw [release, held, List.filter_append]
    split
    · rename_i hot
      have hrest : ∀ x ∈ held (o + b.size) bs, decide (x.1 ≠ t) = true := fun x hx => by
        have hle := le_of_mem_held hx
        exact decide_eq_true (by omega)
      rw [held_push, held_free, List.filter_eq_self.mpr hrest, hot]
      cases b.owner <;> simp
    · rename_i hot
      rw [held_push, held, ih hbs]
      cases b.owner <;> simp [hot]

/-- **Another owner.** -/
theorem held_shrink {s : Nat} {w : ν} (hpos : ∀ b ∈ as ++ ⟨s, some w⟩ :: bs, 0 < b.size)
    (hneed : need v ≤ s) (o : Nat) :
    held o (as ++ shrunk least need v ⟨s, some w⟩ bs) =
      (held o (as ++ ⟨s, some w⟩ :: bs)).map fun x =>
        if x.1 = o + total as then (x.1, v) else x := by
  obtain ⟨has, hbs⟩ := List.forall_mem_append.mp hpos
  obtain ⟨hs, -⟩ := List.forall_mem_cons.mp hbs
  have hbefore : ∀ x ∈ held o as, (if x.1 = o + total as then (x.1, v) else x) = x := fun x hx => by
    have hlt := lt_of_mem_held has hx
    exact if_neg hlt.ne
  have hbehind : ∀ x ∈ held (o + total as + s) bs,
      (if x.1 = o + total as then (x.1, v) else x) = x := fun x hx => by
    have hle := le_of_mem_held hx
    dsimp only at hs
    exact if_neg (by omega)
  rw [held_append, held_shrunk hneed, held_append, held_used, List.map_append, List.map_cons,
    List.map_congr_left hbefore, List.map_congr_left hbehind, if_pos rfl, List.map_id',
    List.map_id']

/-! ## What they keep -/

theorem Tiled.pos (h : Tiled least need bs) (hleast : 0 < least) : ∀ b ∈ bs, 0 < b.size :=
  fun b hb => hleast.trans_le (h.large b hb)

theorem Tiled.tail (h : Tiled least need (b :: bs)) : Tiled least need bs :=
  ⟨fun c hc => h.large c (List.mem_cons_of_mem _ hc),
    fun c hc => h.fitted c (List.mem_cons_of_mem _ hc), h.apart.tail⟩

theorem Tiled.right (h : Tiled least need (as ++ bs)) : Tiled least need bs :=
  ⟨fun c hc => h.large c (List.mem_append_right _ hc),
    fun c hc => h.fitted c (List.mem_append_right _ hc), h.apart.right_of_append⟩

theorem tiled_cons : Tiled least need (b :: bs) ↔
    (least ≤ b.size ∧ (∀ v ∈ b.owner, need v ≤ b.size ∧ b.size < need v + least) ∧
      ∀ c ∈ bs.head?, Apart b c) ∧ Tiled least need bs := by
  constructor
  · exact fun h => ⟨⟨h.large b List.mem_cons_self, h.fitted b List.mem_cons_self,
      (List.isChain_cons.mp h.apart).1⟩, h.tail⟩
  · rintro ⟨⟨hlarge, hfitted, hapart⟩, h⟩
    exact ⟨List.forall_mem_cons.mpr ⟨hlarge, h.large⟩, List.forall_mem_cons.mpr ⟨hfitted, h.fitted⟩,
      List.isChain_cons.mpr ⟨hapart, h.apart⟩⟩

/-- Blocks whose first one is held come in place of others. -/
theorem Tiled.replace (h : Tiled least need (as ++ bs)) (hcs : Tiled least need cs)
    (hheld : ∀ c ∈ cs.head?, c.owner.isSome) : Tiled least need (as ++ cs) := by
  refine ⟨fun b hb => ?_, fun b hb => ?_, List.isChain_append.mpr ⟨h.apart.left_of_append,
    hcs.apart, fun a _ c hc => .inr (hheld c hc)⟩⟩
  · rcases List.mem_append.mp hb with hb | hb
    · exact h.large b (List.mem_append_left _ hb)
    · exact hcs.large b hb
  · rcases List.mem_append.mp hb with hb | hb
    · exact h.fitted b (List.mem_append_left _ hb)
    · exact hcs.fitted b hb

theorem Tiled.push (h : Tiled least need bs) (hb : least ≤ b.size)
    (hfit : ∀ v ∈ b.owner, need v ≤ b.size ∧ b.size < need v + least) :
    Tiled least need (push b bs) := by
  cases bs with
  | nil => exact tiled_cons.mpr ⟨⟨hb, hfit, by simp⟩, h⟩
  | cons c bs =>
    rw [Tiles.push]
    split
    · rename_i hapart
      refine tiled_cons.mpr ⟨⟨hb, hfit, ?_⟩, h⟩
      rintro _ ⟨⟩
      exact hapart
    · rename_i hfree
      obtain ⟨⟨-, -, hapart⟩, hrest⟩ := tiled_cons.mp h
      refine tiled_cons.mpr ⟨⟨hb.trans (Nat.le_add_right _ _), by simp, fun d hd => .inr ?_⟩, hrest⟩
      rcases hapart d hd with hc | hd
      · exact absurd (.inr hc) hfree
      · exact hd

theorem Tiled.cut (h : Tiled least need (b :: bs)) (hpos : 0 < least) (hleast : least ≤ need v)
    (hneed : need v ≤ b.size) : Tiled least need (cut least need v b bs) := by
  obtain ⟨⟨hb, -, -⟩, hrest⟩ := tiled_cons.mp h
  unfold Tiles.cut
  split
  · rename_i hroom
    refine tiled_cons.mpr ⟨⟨hleast, ?_, fun c _ => .inl rfl⟩, hrest.push ?_ (by simp)⟩
    · rintro _ ⟨⟩
      exact ⟨Nat.le_refl _, by dsimp only; omega⟩
    · exact Nat.le_sub_of_add_le (by rw [Nat.add_comm]; exact hroom)
  · rename_i hroom
    refine tiled_cons.mpr ⟨⟨hb, ?_, fun c _ => .inl rfl⟩, hrest⟩
    rintro _ ⟨⟩
    exact ⟨hneed, Nat.lt_of_not_le hroom⟩

theorem Tiled.shrunk (h : Tiled least need (b :: bs)) (hpos : 0 < least)
    (hleast : least ≤ need v) (hneed : need v ≤ b.size) :
    Tiled least need (shrunk least need v b bs) := by
  unfold Tiles.shrunk
  split
  · rename_i n bs
    obtain ⟨-, hrest⟩ := tiled_cons.mp h
    obtain ⟨⟨hn, -, hapart⟩, hrest⟩ := tiled_cons.mp hrest
    refine tiled_cons.mpr
      ⟨⟨hleast, ?_, fun c _ => .inl rfl⟩, tiled_cons.mpr ⟨⟨?_, by simp, ?_⟩, hrest⟩⟩
    · rintro _ ⟨⟩
      exact ⟨Nat.le_refl _, by dsimp only; omega⟩
    · exact hn.trans (Nat.le_add_left _ _)
    · exact hapart
  · exact h.cut hpos hleast hneed

/-- **Taking a block** keeps the tiling. -/
theorem Tiled.alloc {bs' : List (Block ν)} (h : Tiled least need bs) (hpos : 0 < least)
    (hleast : least ≤ need v) (halloc : alloc least need v o bs = some (t, bs')) :
    Tiled least need bs' := by
  obtain ⟨as, b, cs, rfl, -, -, ⟨-, hneed⟩, rfl⟩ := alloc_eq_some halloc
  refine h.replace (h.right.cut hpos hleast hneed) ?_
  unfold Tiles.cut
  split <;> (rintro _ ⟨⟩; rfl)

/-- **Freeing a block** does. -/
theorem Tiled.release (h : Tiled least need bs) (t o : Nat) :
    Tiled least need (release t o bs) := by
  induction bs generalizing o with
  | nil => exact h
  | cons b bs ih =>
    obtain ⟨⟨hb, hfit, -⟩, hrest⟩ := tiled_cons.mp h
    rw [Tiles.release]
    split
    · exact hrest.push hb (by simp)
    · exact (ih hrest _).push hb hfit

/-- **Shrinking a block** does. -/
theorem Tiled.shrink {s : Nat} {w : ν} (h : Tiled least need (as ++ ⟨s, some w⟩ :: bs))
    (hpos : 0 < least) (hleast : least ≤ need v) (hneed : need v ≤ s) :
    Tiled least need (as ++ Tiles.shrunk least need v ⟨s, some w⟩ bs) := by
  refine h.replace (h.right.shrunk hpos hleast hneed) ?_
  unfold Tiles.shrunk Tiles.cut
  split
  · rintro _ ⟨⟩
    rfl
  · split <;> (rintro _ ⟨⟩; rfl)

/-! ## Owners -/

/-- **Owners do not overlap.** -/
theorem Tiled.pairwise_held (h : Tiled least need bs) (o : Nat) :
    (held o bs).Pairwise fun x y => x.1 + need x.2 ≤ y.1 := by
  induction bs generalizing o with
  | nil => exact .nil
  | cons b bs ih =>
    obtain ⟨⟨-, hfit, -⟩, hrest⟩ := tiled_cons.mp h
    refine List.pairwise_append.mpr ⟨?_, ih hrest _, fun x hx y hy => ?_⟩
    · cases b.owner with
      | none => exact .nil
      | some v => exact List.pairwise_singleton ..
    · obtain ⟨v, hv, rfl⟩ := List.mem_map.mp hx
      have hneed := (hfit v (Option.mem_toList.mp hv)).1
      have hle := le_of_mem_held hy
      dsimp only
      omega

/-- The same in any order. -/
theorem Tiled.apart_of_perm (h : Tiled least need bs) {l : List (Nat × ν)}
    (hl : (held o bs).Perm l) :
    l.Pairwise fun x y => x.1 + need x.2 ≤ y.1 ∨ y.1 + need y.2 ≤ x.1 :=
  hl.pairwise ((h.pairwise_held o).imp .inl) fun hxy => hxy.symm

/-- An owner's block lies inside. -/
theorem Tiled.held_le (h : Tiled least need bs) {x : Nat × ν} (hx : x ∈ held o bs) :
    x.1 + need x.2 ≤ o + total bs := by
  obtain ⟨as, s, cs, rfl, hat⟩ := split_of_mem_held hx
  have hneed := (h.fitted ⟨s, some x.2⟩ (by simp) x.2 rfl).1
  rw [hat, total_append, total_cons]
  dsimp only at hneed ⊢
  omega

/-- Free blocks are between those that are held, before the first one or behind the last one. -/
theorem Tiled.total_le (h : Tiled least need bs) {m : Nat}
    (hfree : ∀ b ∈ bs, b.owner = none → b.size ≤ m) (o : Nat) :
    total bs ≤ ((held o bs).length + 1) * m + ((held o bs).map fun x => need x.2 + least).sum ∧
      ((∀ b ∈ bs.head?, b.owner.isSome) →
        total bs ≤ (held o bs).length * m + ((held o bs).map fun x => need x.2 + least).sum) := by
  induction bs generalizing o with
  | nil => exact ⟨Nat.zero_le _, fun _ => Nat.zero_le _⟩
  | cons b bs ih =>
    obtain ⟨⟨-, hfit, hapart⟩, hrest⟩ := tiled_cons.mp h
    obtain ⟨hb, hbs⟩ := List.forall_mem_cons.mp hfree
    obtain ⟨n, owner⟩ := b
    obtain ⟨hany, hheld⟩ := ih hrest hbs (o + n)
    cases owner with
    | none =>
      have hn : n ≤ m := hb rfl
      have htotal := hheld fun c hc => (hapart c hc).resolve_left Bool.false_ne_true
      refine ⟨?_, fun hhead => absurd (hhead _ rfl) Bool.false_ne_true⟩
      rw [total_cons, held_free, Nat.add_mul]
      dsimp only
      omega
    | some v =>
      have hn : n < need v + least := (hfit v rfl).2
      have hused : total (⟨n, some v⟩ :: bs) ≤ (held o (⟨n, some v⟩ :: bs)).length * m +
          ((held o (⟨n, some v⟩ :: bs)).map fun x => need x.2 + least).sum := by
        rw [total_cons, held_used, List.length_cons, List.map_cons, List.sum_cons]
        dsimp only
        omega
      refine ⟨hused.trans ?_, fun _ => hused⟩
      rw [Nat.add_mul]
      omega

/-- **When an owner finds no place**, others hold that much. -/
theorem Tiled.total_le_of_alloc (h : Tiled least need bs)
    (hnone : Tiles.alloc least need v o bs = none) :
    total bs ≤ ((held o bs).length + 1) * (need v - 1) +
      ((held o bs).map fun x => need x.2 + least).sum := by
  refine (h.total_le (fun b hb hfree => ?_) o).1
  have hsmall : ¬need v ≤ b.size := fun hneed => alloc_eq_none hnone b hb ⟨hfree, hneed⟩
  exact Nat.le_sub_one_of_lt (Nat.lt_of_not_le hsmall)

theorem owner_eq_none (hnone : held o (b :: bs) = []) : b.owner = none := by
  have hb := (List.append_eq_nil_iff.mp hnone).1
  exact Option.toList_eq_nil_iff.mp (List.map_eq_nil_iff.mp hb)

/-- **When nothing is held**, there is one block. -/
theorem Tiled.eq_singleton (h : Tiled least need bs) (hnone : held o bs = []) (hne : bs ≠ []) :
    bs = [⟨total bs, none⟩] := by
  cases bs with
  | nil => exact absurd rfl hne
  | cons b bs =>
    have hb := owner_eq_none hnone
    obtain ⟨⟨-, -, hapart⟩, -⟩ := tiled_cons.mp h
    cases bs with
    | nil =>
      obtain ⟨n, owner⟩ := b
      obtain rfl : owner = none := hb
      rfl
    | cons c bs =>
      have hc : c.owner = none := owner_eq_none (List.append_eq_nil_iff.mp hnone).2
      rcases hapart c rfl with hu | hu
      · rw [hb] at hu
        cases hu
      · rw [hc] at hu
        cases hu

end MqttDevice.Tiles
