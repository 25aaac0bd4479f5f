import Mathlib.Data.List.Perm.Basic
import Mathlib.Data.List.Range
import Mathlib.Logic.Function.Basic

/-!
# Blocks from an allocator that may refuse

A heap counts the requests, numbers the blocks that it gives out, and keeps the list of
those that were given back. Which requests are granted is a parameter.

* `Held`: the blocks that were given out and not given back, each of them once, with a
  rule for every operation;
* `count_freed_iff`: everything has been given back exactly once if and only if nothing
  is held.
-/

namespace MqttDevice.Blocks

variable {α : Type*}

/-- The state of the allocator, and what is stored in the blocks. -/
structure Heap (α : Type*) where
  requests : Nat
  blocks : Nat
  freed : List Nat
  cell : Nat → α

namespace Heap

/-- Nothing has been asked for. -/
def start (a : α) : Heap α := ⟨0, 0, [], fun _ => a⟩

/-- The next request, granted or not. -/
def malloc (ok : Nat → Bool) (h : Heap α) : Option Nat × Heap α :=
  if ok h.requests then
    (some h.blocks, { h with requests := h.requests + 1, blocks := h.blocks + 1 })
  else (none, { h with requests := h.requests + 1 })

def free (h : Heap α) (b : Nat) : Heap α := { h with freed := h.freed ++ [b] }

/-- A null pointer is not given back. -/
def freeOption (h : Heap α) : Option Nat → Heap α
  | some b => h.free b
  | none => h

/-- The old block goes when the request is granted. -/
def realloc (ok : Nat → Bool) (h : Heap α) (b : Nat) : Option Nat × Heap α :=
  match h.malloc ok with
  | (some b', h) => (some b', h.free b)
  | (none, h) => (none, h)

def store (h : Heap α) (b : Nat) (a : α) : Heap α := { h with cell := Function.update h.cell b a }

@[simp] theorem store_cell_self (h : Heap α) (b : Nat) (a : α) : (h.store b a).cell b = a :=
  Function.update_self ..

theorem store_cell_of_ne (h : Heap α) {b c : Nat} (a : α) (hne : c ≠ b) :
    (h.store b a).cell c = h.cell c :=
  Function.update_of_ne hne ..

@[simp] theorem free_requests (h : Heap α) (b : Nat) : (h.free b).requests = h.requests := rfl

theorem malloc_of_ok {ok : Nat → Bool} {h : Heap α} (hok : ok h.requests = true) :
    h.malloc ok = (some h.blocks, { h with requests := h.requests + 1, blocks := h.blocks + 1 }) :=
  if_pos hok

theorem malloc_of_not {ok : Nat → Bool} {h : Heap α} (hok : ok h.requests = false) :
    h.malloc ok = (none, { h with requests := h.requests + 1 }) := by
  rw [malloc, hok]
  rfl

/-! ## Blocks that are held -/

/-- The blocks that were given out are those that were given back and those in the
list, each of them once. -/
def Held (h : Heap α) (bs : List Nat) : Prop := (h.freed ++ bs).Perm (List.range h.blocks)

theorem held_start (a : α) : (start a).Held [] := List.Perm.refl []

theorem Held.perm {h : Heap α} {bs bs' : List Nat} (hH : h.Held bs) (hp : bs.Perm bs') :
    h.Held bs' :=
  (hp.symm.append_left h.freed).trans hH

theorem Held.congr {h h' : Heap α} {bs : List Nat} (hH : h.Held bs) (hb : h'.blocks = h.blocks)
    (hf : h'.freed = h.freed) : h'.Held bs := by
  rw [Held, hb, hf]
  exact hH

/-- A block that is held was given out. -/
theorem Held.lt {h : Heap α} {bs : List Nat} (hH : h.Held bs) {b : Nat} (hb : b ∈ bs) :
    b < h.blocks :=
  List.mem_range.mp (hH.mem_iff.mp (List.mem_append_right _ hb))

/-- No block is held twice. -/
theorem Held.nodup {h : Heap α} {bs : List Nat} (hH : h.Held bs) : bs.Nodup :=
  (List.nodup_append.mp (hH.nodup_iff.mpr List.nodup_range)).2.1

/-- A request that is granted: one block more. -/
theorem Held.grant {h : Heap α} {bs : List Nat} (hH : h.Held bs) (r : Nat) :
    Held { h with requests := r, blocks := h.blocks + 1 } (h.blocks :: bs) := by
  rw [Held, List.range_succ]
  exact List.perm_middle.trans ((List.Perm.cons _ hH).trans (List.perm_append_singleton _ _).symm)

theorem Held.free {h : Heap α} {bs : List Nat} {b : Nat} (hH : h.Held (b :: bs)) :
    (h.free b).Held bs := by
  rw [Held, Heap.free, List.append_assoc]
  exact hH

theorem Held.freeOption {h : Heap α} {bs : List Nat} {o : Option Nat}
    (hH : h.Held (o.toList ++ bs)) : (h.freeOption o).Held bs := by
  cases o with
  | none => exact hH
  | some b => exact hH.free

/-- A block that was moved. -/
def moved (h : Heap α) (b : Nat) : Heap α :=
  ({ h with requests := h.requests + 1, blocks := h.blocks + 1 } : Heap α).free b

theorem realloc_of_ok {ok : Nat → Bool} {h : Heap α} (b : Nat) (hok : ok h.requests = true) :
    h.realloc ok b = (some h.blocks, h.moved b) := by
  rw [realloc, malloc_of_ok hok]
  rfl

theorem realloc_of_not {ok : Nat → Bool} {h : Heap α} (b : Nat) (hok : ok h.requests = false) :
    h.realloc ok b = (none, { h with requests := h.requests + 1 }) := by
  rw [realloc, malloc_of_not hok]

theorem Held.moved {h : Heap α} {bs : List Nat} {b : Nat} (hH : h.Held (b :: bs)) :
    (h.moved b).Held (h.blocks :: bs) :=
  ((hH.grant (h.requests + 1)).perm (List.Perm.swap b h.blocks bs)).free

/-- **All blocks have been given back once**, if and only if none is held. -/
theorem count_freed_iff {h : Heap α} {bs : List Nat} (hH : h.Held bs) :
    (∀ b < h.blocks, h.freed.count b = 1) ↔ bs = [] := by
  have hcount (b : Nat) (hb : b < h.blocks) : h.freed.count b + bs.count b = 1 := by
    rw [← List.count_append, hH.count_eq]
    rw [List.Nodup.count List.nodup_range, if_pos (List.mem_range.mpr hb)]
  constructor
  · intro hall
    by_contra hne
    obtain ⟨b, hb⟩ := List.exists_mem_of_ne_nil bs hne
    have hlt := hH.lt hb
    have hpos := List.count_pos_iff.mpr hb
    have hone := hcount b hlt
    rw [hall b hlt] at hone
    omega
  · rintro rfl b hb
    simpa using hcount b hb

end Heap

end MqttDevice.Blocks
