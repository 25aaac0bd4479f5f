import MqttDevice.Lib.Machine
import MqttDevice.Lwip.MemOps

/-!
# Runs of the heap

The callers of `mem.c` allocate, free and shrink, and store in what they hold, in any order. They
free and shrink only what they hold; nothing else is asked of them.

* `Client`: what the callers know from the answers alone;
* `heap_refines`: the heap does what a list of blocks does;
* `heap_disjoint`: allocations do not overlap, and no header lies in one;
* `heap_contents`: what is stored in an allocation stays there;
* `malloc_succeeds`: when an allocation cannot fail;
* `heap_recovers`: when all is given back, the heap is as it was.
-/

namespace MqttDevice.Lwip

open MqttDevice.Memory MqttDevice.Tiles MqttDevice.Machine

inductive MemEvent where
  | malloc (size : Nat)
  | calloc (count size : Nat)
  | free (p : Option Nat)
  | trim (p newSize : Nat)
  /-- A caller stores a byte. -/
  | store (a : Nat) (v : BitVec 8)
  deriving DecidableEq

def memStep (h : MemHeap) : MemEvent → Option (Option Nat × MemHeap)
  | .malloc size => memMalloc size h
  | .calloc count size => memCalloc count size h
  | .free p => some (none, memFree p h)
  | .trim p newSize => some (memTrim p newSize h)
  | .store a v => some (none, { h with ram := Function.update h.ram a v })

/-- The same on a list of blocks. -/
def arenaStep (bs : List (Block Nat)) : MemEvent → Option Nat × List (Block Nat)
  | .malloc size => arenaMalloc size bs
  | .calloc count size => arenaMalloc (count * size) bs
  | .free (some p) => (none, release (p - sizeofStructMem) 0 bs)
  | .free none => (none, bs)
  | .trim p newSize => arenaTrim p newSize bs
  | .store _ _ => (none, bs)

/-! ## The callers -/

/-- The pointers that are held, with the sizes asked for, and the bytes that are known. -/
structure Client where
  held : List (Nat × Nat)
  contents : Nat → Option (BitVec 8)

namespace Client

/-- The byte belongs to an allocation. -/
def Covers (l : List (Nat × Nat)) (a : Nat) : Prop := ∃ x ∈ l, x.1 ≤ a ∧ a < x.1 + x.2

instance (l : List (Nat × Nat)) (a : Nat) : Decidable (Covers l a) :=
  inferInstanceAs (Decidable (∃ x ∈ l, _))

def heldAfter (l : List (Nat × Nat)) : MemEvent × Option Nat → List (Nat × Nat)
  | (.malloc size, some p) => (p, size) :: l
  | (.calloc count size, some p) => (p, count * size) :: l
  | (.free (some p), _) => l.filter fun x => x.1 ≠ p
  | (.trim p newSize, some _) => l.map fun x => if x.1 = p then (x.1, newSize) else x
  | _ => l

/-- A byte is known that was stored or cleared. -/
def written (m : Nat → Option (BitVec 8)) : MemEvent × Option Nat → Nat → Option (BitVec 8)
  | (.calloc count size, some p), a => if p ≤ a ∧ a < p + count * size then some 0 else m a
  | (.store b v, _), a => if a = b then some v else m a
  | _, a => m a

/-- What is not held any more is not known. -/
def after (c : Client) (x : MemEvent × Option Nat) : Client where
  held := heldAfter c.held x
  contents a := if Covers (heldAfter c.held x) a then written c.contents x a else none

def start : Client := ⟨[], fun _ => none⟩

/-- What is known after a log. -/
def ofLog (log : List (MemEvent × Option Nat)) : Client := log.foldl after start

end Client

/-- Only what is held is freed, shrunk or written. -/
def Legal (l : List (Nat × Nat)) : MemEvent → Prop
  | .free (some p) => p ∈ l.map Prod.fst
  | .trim p _ => p ∈ l.map Prod.fst
  | .store a _ => Client.Covers l a
  | _ => True

instance (l : List (Nat × Nat)) : (e : MemEvent) → Decidable (Legal l e)
  | .malloc _ => .isTrue trivial
  | .calloc _ _ => .isTrue trivial
  | .free none => .isTrue trivial
  | .free (some p) => inferInstanceAs (Decidable (p ∈ l.map Prod.fst))
  | .trim p _ => inferInstanceAs (Decidable (p ∈ l.map Prod.fst))
  | .store a _ => inferInstanceAs (Decidable (Client.Covers l a))

/-- The callers keep to this, as far as they can tell from the answers. -/
def LegalRun (ram : Mem) (es : List MemEvent) : Prop :=
  Along memStep (fun log e => Legal (Client.ofLog log).held e) [] (memInit ram) es

/-! ## What the callers know is so -/

/-- The allocations of the blocks, as the callers see them. -/
def allocations (bs : List (Block Nat)) : List (Nat × Nat) :=
  (held 0 bs).map fun x => (x.1 + sizeofStructMem, x.2)

structure Tracks (c : Client) (h : MemHeap) (bs : List (Block Nat)) : Prop where
  holds : Holds h bs
  held : c.held.Perm (allocations bs)
  known : ∀ a, ∀ v ∈ c.contents a, Client.Covers c.held a ∧ h.ram a = v

variable {c : Client} {h h' : MemHeap} {bs bs' : List (Block Nat)} {l : List (Nat × Nat)}
variable {a p n : Nat} {e : MemEvent} {x : MemEvent × Option Nat}

theorem mem_allocations : (p, n) ∈ allocations bs ↔ ∃ t, p = t + 6 ∧ (t, n) ∈ held 0 bs := by
  rw [allocations, List.mem_map]
  constructor
  · rintro ⟨⟨t, m⟩, ht, hp⟩
    cases hp
    exact ⟨t, rfl, ht⟩
  · rintro ⟨t, rfl, ht⟩
    exact ⟨(t, n), ht, rfl⟩

theorem owned_of_covers (hl : l.Perm (allocations bs)) (h : Client.Covers l a) : Owned 0 bs a := by
  obtain ⟨⟨p, n⟩, hx, hlo, hhi⟩ := h
  obtain ⟨t, rfl, ht⟩ := mem_allocations.mp (hl.mem_iff.mp hx)
  refine ⟨(t, n), ht, hlo, ?_⟩
  rw [memNeed_eq]
  dsimp only at hhi ⊢
  omega

/-- A pointer that is held. -/
theorem Tracks.held_of_legal (ht : Tracks c h bs) (hp : p ∈ c.held.map Prod.fst) :
    ∃ x ∈ Tiles.held 0 bs, p = x.1 + sizeofStructMem := by
  obtain ⟨⟨q, n⟩, hx, rfl⟩ := List.mem_map.mp hp
  obtain ⟨t, rfl, ht⟩ := mem_allocations.mp (ht.held.mem_iff.mp hx)
  exact ⟨(t, n), ht, rfl⟩

/-- The rule for a step that writes nothing into the allocations. -/
theorem Tracks.next (ht : Tracks c h bs) (hh : Holds h' bs')
    (hheld : (Client.heldAfter c.held x).Perm (allocations bs'))
    (hsame : ∀ a, Owned 0 bs a → Owned 0 bs' a → h'.ram a = h.ram a)
    (hwritten : ∀ a, Client.Covers (Client.heldAfter c.held x) a →
      Client.written c.contents x a = c.contents a ∨
        Client.written c.contents x a = some (h'.ram a)) :
    Tracks (c.after x) h' bs' := by
  refine ⟨hh, hheld, fun a v hv => ?_⟩
  dsimp only [Client.after] at hv ⊢
  split at hv
  · rename_i hcovers
    refine ⟨hcovers, ?_⟩
    rcases hwritten a hcovers with hkeep | hnew
    · rw [hkeep] at hv
      obtain ⟨hbefore, hram⟩ := ht.known a v hv
      rw [hsame a (owned_of_covers ht.held hbefore) (owned_of_covers hheld hcovers), hram]
    · rw [hnew] at hv
      exact Option.some.inj hv
  · cases hv

theorem arenaMalloc_eq_none {size : Nat} (h : (arenaMalloc size bs).1 = none) :
    (arenaMalloc size bs).2 = bs := by
  unfold arenaMalloc at h ⊢
  split
  · rfl
  · rename_i hsize
    rw [if_neg hsize] at h
    cases halloc : alloc minBlock memNeed size 0 bs with
    | none => rfl
    | some x =>
      rw [halloc] at h
      cases h

theorem arenaMalloc_eq_none_iff {size : Nat} (hzero : 0 < size) (hsize : size ≤ memSizeAligned) :
    (arenaMalloc size bs).1 = none ↔ alloc minBlock memNeed size 0 bs = none := by
  rw [arenaMalloc, if_neg (by omega)]
  cases alloc minBlock memNeed size 0 bs <;> simp

theorem allocations_arenaMalloc {size : Nat} (hp : (arenaMalloc size bs).1 = some p) :
    (allocations (arenaMalloc size bs).2).Perm ((p, size) :: allocations bs) := by
  obtain ⟨t, rfl, hheld⟩ := held_arenaMalloc hp
  exact hheld.map _

theorem allocations_release (hpos : ∀ b ∈ bs, 0 < b.size) (t : Nat) :
    allocations (release t 0 bs) = (allocations bs).filter fun x => x.1 ≠ t + sizeofStructMem := by
  rw [allocations, held_release hpos, allocations, List.filter_map]
  congr 2
  funext y
  simp

theorem allocations_arenaTrim (hpos : ∀ b ∈ bs, 0 < b.size) {x : Nat × Nat}
    (hx : x ∈ held 0 bs) (newSize : Nat) :
    ((arenaTrim (x.1 + sizeofStructMem) newSize bs).1 = none ∧
        (arenaTrim (x.1 + sizeofStructMem) newSize bs).2 = bs) ∨
      ((arenaTrim (x.1 + sizeofStructMem) newSize bs).1 = some (x.1 + sizeofStructMem) ∧
        allocations (arenaTrim (x.1 + sizeofStructMem) newSize bs).2 =
          (allocations bs).map fun y =>
            if y.1 = x.1 + sizeofStructMem then (y.1, newSize) else y) := by
  unfold arenaTrim
  split
  · exact .inl ⟨rfl, rfl⟩
  obtain ⟨as, s, cs, rfl, hat⟩ := split_of_mem_held hx
  have has : ∀ b ∈ as, 0 < b.size := fun b hb => hpos b (List.mem_append_left _ hb)
  rw [hat, Nat.add_sub_cancel, shrink_append has]
  dsimp only
  by_cases hneed : memNeed newSize ≤ s
  · rw [if_pos hneed]
    refine .inr ⟨rfl, ?_⟩
    rw [allocations, held_shrink hpos hneed, allocations, List.map_map, List.map_map]
    refine List.map_congr_left fun y _ => ?_
    have hiff : y.1 + sizeofStructMem = 0 + total as + sizeofStructMem ↔ y.1 = 0 + total as :=
      Nat.add_right_cancel_iff
    simp only [Function.comp, hiff]
    split <;> rfl
  · rw [if_neg hneed]
    exact .inl ⟨rfl, rfl⟩

/-- What is held after an allocation. -/
theorem held_after_malloc (hl : l.Perm (allocations bs)) (size : Nat) :
    ((arenaMalloc size bs).1.elim l fun p => (p, size) :: l).Perm
      (allocations (arenaMalloc size bs).2) := by
  cases hp : (arenaMalloc size bs).1 with
  | none =>
    rw [arenaMalloc_eq_none hp]
    exact hl
  | some p => exact (hl.cons _).trans (allocations_arenaMalloc hp).symm

theorem heldAfter_malloc (l : List (Nat × Nat)) (size : Nat) (r : Option Nat) :
    Client.heldAfter l (.malloc size, r) = r.elim l fun p => (p, size) :: l := by
  cases r <;> rfl

theorem heldAfter_calloc (l : List (Nat × Nat)) (count size : Nat) (r : Option Nat) :
    Client.heldAfter l (.calloc count size, r) = r.elim l fun p => (p, count * size) :: l := by
  cases r <;> rfl

theorem Tracks.calloc (ht : Tracks c h bs) (count size : Nat) :
    ∃ h', memCalloc count size h = some ((arenaMalloc (count * size) bs).1, h') ∧
      Tracks (c.after (.calloc count size, (arenaMalloc (count * size) bs).1)) h'
        (arenaMalloc (count * size) bs).2 := by
  obtain ⟨h', hrun, hh', hsame, hzero⟩ := ht.holds.memCalloc count size
  refine ⟨h', hrun, ht.next hh' ?_ hsame fun a _ => ?_⟩
  · rw [heldAfter_calloc]
    exact held_after_malloc ht.held _
  · cases hp : (arenaMalloc (count * size) bs).1 with
    | none => exact .inl rfl
    | some p =>
      rw [Client.written]
      split
      · rename_i hin
        obtain ⟨k, rfl⟩ := Nat.exists_eq_add_of_le hin.1
        rw [hzero p hp k (by omega)]
        exact .inr rfl
      · exact .inl rfl

theorem Tracks.store (ht : Tracks c h bs) {b : Nat} (hb : Client.Covers c.held b) (v : BitVec 8) :
    Tracks (c.after (.store b v, none)) { h with ram := Function.update h.ram b v } bs := by
  have hown := owned_of_covers ht.held hb
  have hh' : Holds { h with ram := Function.update h.ram b v } bs := by
    refine ht.holds.congr fun a hfree => Function.update_of_ne ?_ ..
    rintro rfl
    exact hfree hown
  refine ⟨hh', ht.held, fun a w hw => ?_⟩
  dsimp only [Client.after] at hw
  split at hw
  · rename_i hcovers
    refine ⟨hcovers, ?_⟩
    rw [Client.written] at hw
    dsimp only
    split at hw
    · rename_i hab
      rw [hab, Function.update_self]
      exact Option.some.inj hw
    · rename_i hab
      rw [Function.update_of_ne hab]
      exact (ht.known a w hw).2
  · cases hw

/-- **A step**: the heap does what the blocks do, and what the callers know stays so. -/
theorem Tracks.step (ht : Tracks c h bs) (he : Legal c.held e) :
    ∃ h', memStep h e = some ((arenaStep bs e).1, h') ∧
      Tracks (c.after (e, (arenaStep bs e).1)) h' (arenaStep bs e).2 := by
  cases e with
  | malloc size =>
    obtain ⟨h', hrun, hh', hedit⟩ := ht.holds.memMalloc size
    refine ⟨h', hrun, ht.next hh' ?_ hedit.same fun a _ => .inl rfl⟩
    rw [heldAfter_malloc]
    exact held_after_malloc ht.held size
  | calloc count size => exact ht.calloc count size
  | free p =>
    cases p with
    | none => exact ⟨h, rfl, ht.next ht.holds ht.held (fun _ _ _ => rfl) fun a _ => .inl rfl⟩
    | some p =>
      obtain ⟨x, hx, rfl⟩ := ht.held_of_legal he
      obtain ⟨hh', hedit⟩ := ht.holds.memFree hx
      refine ⟨_, rfl, ?_⟩
      dsimp only [arenaStep]
      rw [Nat.add_sub_cancel]
      refine ht.next hh' ?_ hedit.same fun a _ => .inl rfl
      rw [allocations_release ht.holds.pos]
      exact ht.held.filter _
  | trim p newSize =>
    obtain ⟨x, hx, rfl⟩ := ht.held_of_legal he
    obtain ⟨hanswer, hh', hedit⟩ := ht.holds.memTrim hx newSize
    refine ⟨(memTrim (x.1 + sizeofStructMem) newSize h).2, ?_,
      ht.next hh' ?_ hedit.same fun a _ => .inl rfl⟩
    · rw [memStep, arenaStep, ← hanswer]
    · dsimp only [arenaStep]
      rcases allocations_arenaTrim ht.holds.pos hx newSize with ⟨hnone, hbs⟩ | ⟨hsome, hbs⟩
      · rw [hnone, hbs]
        exact ht.held
      · rw [hsome, hbs]
        exact ht.held.map _
  | store b v => exact ⟨_, rfl, ht.store he v⟩

/-! ## Whole runs -/

/-- When `mem_init` has run. -/
def startBlocks : List (Block Nat) := [⟨memSizeAligned, none⟩]

theorem tracks_memInit (ram : Mem) : Tracks Client.start (memInit ram) startBlocks :=
  ⟨holds_memInit ram, .refl _, by rintro a v ⟨⟩⟩

theorem ofLog_snoc (log : List (MemEvent × Option Nat)) (x : MemEvent × Option Nat) :
    Client.ofLog (log ++ [x]) = (Client.ofLog log).after x := by
  rw [Client.ofLog, List.foldl_append]
  rfl

/-- What holds after every legal run. -/
theorem legal_run {ram : Mem} {es : List MemEvent} (hes : LegalRun ram es) :
    ∃ h, run memStep (memInit ram) es = some ((specRun arenaStep startBlocks es).1, h) ∧
      Tracks (Client.ofLog (specRun arenaStep startBlocks es).1) h
        (specRun arenaStep startBlocks es).2 := by
  -- the log is that of the blocks
  let I (log : List (MemEvent × Option Nat)) (h : MemHeap) : Prop :=
    (specRun arenaStep startBlocks (log.map Prod.fst)).1 = log ∧
      Tracks (Client.ofLog log) h (specRun arenaStep startBlocks (log.map Prod.fst)).2
  have hstep : ∀ log h e, I log h → Legal (Client.ofLog log).held e →
      ∃ o t, memStep h e = some (o, t) ∧ I (log ++ [(e, o)]) t := by
    rintro log h e ⟨hlog, ht⟩ he
    obtain ⟨h', hrun, ht'⟩ := ht.step he
    refine ⟨_, h', hrun, ?_, ?_⟩
    · rw [List.map_append, specRun_append, hlog]
      rfl
    · rw [ofLog_snoc, List.map_append, specRun_append]
      exact ht'
  have hstart : I [] (memInit ram) := ⟨rfl, tracks_memInit ram⟩
  obtain ⟨log, h, hrun, hlog, ht⟩ := run_inv_along hstep hstart hes
  rw [List.nil_append] at hlog ht
  rw [run_events hrun] at hlog ht
  rw [hlog]
  exact ⟨h, hrun, ht⟩

variable {ram : Mem} {es : List MemEvent} {log : List (MemEvent × Option Nat)}

/-- What is known after a given run. -/
theorem tracks_of_run (hes : LegalRun ram es)
    (hrun : run memStep (memInit ram) es = some (log, h)) :
    ∃ bs, Tracks (Client.ofLog log) h bs := by
  obtain ⟨h', hrun', ht⟩ := legal_run hes
  rw [hrun] at hrun'
  cases hrun'
  exact ⟨_, ht⟩

/-- Allocations, clearings and a byte that is stored; the first block is freed, and the second one
shrinks. -/
def shareAndShrink : List MemEvent :=
  [.malloc 100, .calloc 3 20, .store 113 0x2a, .malloc 8, .free (some 6), .trim 112 30, .malloc 90]

theorem legalRun_shareAndShrink : LegalRun (fun _ => 0) shareAndShrink := by
  unfold LegalRun
  decide +kernel

theorem log_shareAndShrink
    (hrun : run memStep (memInit fun _ => 0) shareAndShrink = some (log, h)) :
    log = shareAndShrink.zip [some 6, some 112, none, some 178, none, some 112, some 6] := by
  have hlog : (run memStep (memInit fun _ => 0) shareAndShrink).map Prod.fst =
      some (shareAndShrink.zip [some 6, some 112, none, some 178, none, some 112, some 6]) := by
    decide +kernel
  rw [hrun] at hlog
  exact Option.some.inj hlog

/-- **The heap does what a list of blocks does**: it gives the same answers, and its headers and
`lfree` are those of the blocks. -/
theorem heap_refines (hes : LegalRun ram es) :
    ∃ h, run memStep (memInit ram) es = some ((specRun arenaStep startBlocks es).1, h) ∧
      Holds h (specRun arenaStep startBlocks es).2 := by
  obtain ⟨h, hrun, ht⟩ := legal_run hes
  exact ⟨h, hrun, ht.holds⟩

theorem heap_refines_shareAndShrink :
    ∃ h, run memStep (memInit fun _ => 0) shareAndShrink =
        some ((specRun arenaStep startBlocks shareAndShrink).1, h) ∧
      Holds h (specRun arenaStep startBlocks shareAndShrink).2 :=
  heap_refines legalRun_shareAndShrink

/-- **Allocations do not overlap**, and between two of them there is room for a header. -/
theorem heap_disjoint (hes : LegalRun ram es) :
    ∃ log h, run memStep (memInit ram) es = some (log, h) ∧
      ((Client.ofLog log).held.Pairwise fun x y =>
        x.1 + x.2 + sizeofStructMem ≤ y.1 ∨ y.1 + y.2 + sizeofStructMem ≤ x.1) ∧
      ∀ x ∈ (Client.ofLog log).held, sizeofStructMem ≤ x.1 ∧ x.1 + x.2 ≤ memSizeAligned := by
  obtain ⟨h, hrun, ht⟩ := legal_run hes
  have hneed (n : Nat) : n + 6 ≤ memNeed n := by
    rw [memNeed_eq]
    omega
  refine ⟨_, h, hrun, ?_, fun x hx => ?_⟩
  · refine ht.held.symm.pairwise ?_ fun hxy => hxy.symm
    refine List.pairwise_map.mpr ((ht.holds.tiled.pairwise_held 0).imp fun {x y} hxy => .inl ?_)
    have hx := hneed x.2
    rw [sizeofStructMem_eq]
    dsimp only
    omega
  · obtain ⟨p, n⟩ := x
    obtain ⟨t, rfl, hmem⟩ := mem_allocations.mp (ht.held.mem_iff.mp hx)
    have hle := ht.holds.tiled.held_le hmem
    have hn := hneed n
    rw [ht.holds.linked.whole] at hle
    dsimp only at hle ⊢
    rw [sizeofStructMem_eq]
    omega

theorem heap_disjoint_shareAndShrink :
    ∃ log h, run memStep (memInit fun _ => 0) shareAndShrink = some (log, h) ∧
      ((Client.ofLog log).held.Pairwise fun x y =>
        x.1 + x.2 + sizeofStructMem ≤ y.1 ∨ y.1 + y.2 + sizeofStructMem ≤ x.1) ∧
      ∀ x ∈ (Client.ofLog log).held, sizeofStructMem ≤ x.1 ∧ x.1 + x.2 ≤ memSizeAligned :=
  heap_disjoint legalRun_shareAndShrink

/-- **What is stored in an allocation stays there**, whatever is allocated, freed and shrunk. -/
theorem heap_contents (hes : LegalRun ram es) :
    ∃ log h, run memStep (memInit ram) es = some (log, h) ∧
      ∀ a, ∀ v ∈ (Client.ofLog log).contents a, h.ram a = v := by
  obtain ⟨h, hrun, ht⟩ := legal_run hes
  exact ⟨_, h, hrun, fun a v hv => (ht.known a v hv).2⟩

theorem heap_contents_shareAndShrink :
    ∃ log h, run memStep (memInit fun _ => 0) shareAndShrink = some (log, h) ∧
      h.ram 112 = 0 ∧ h.ram 113 = 0x2a := by
  obtain ⟨log, h, hrun, hcontents⟩ := heap_contents legalRun_shareAndShrink
  obtain rfl := log_shareAndShrink hrun
  exact ⟨_, h, hrun, hcontents 112 0 (by decide +kernel), hcontents 113 0x2a (by decide +kernel)⟩

/-- **An allocation does not fail** when the gaps between the others are large enough in all. -/
theorem malloc_succeeds (hes : LegalRun ram es)
    (hrun : run memStep (memInit ram) es = some (log, h)) (hn : 0 < n)
    (hroom : ((Client.ofLog log).held.length + 1) * (5 + max n 12) +
      ((Client.ofLog log).held.map fun x => 24 + max x.2 12).sum < memSizeAligned) :
    ∃ p h', memMalloc n h = some (some p, h') := by
  obtain ⟨bs, ht⟩ := tracks_of_run hes hrun
  obtain ⟨h', hmalloc, -⟩ := ht.holds.memMalloc n
  cases hp : (arenaMalloc n bs).1 with
  | some p => exact ⟨p, h', by rw [hmalloc, hp]⟩
  | none =>
    exfalso
    have hlength : (Client.ofLog log).held.length = (held 0 bs).length := by
      rw [ht.held.length_eq, allocations, List.length_map]
    have hsum : ((Client.ofLog log).held.map fun x => 24 + max x.2 12).sum =
        ((held 0 bs).map fun x => memNeed x.2 + minBlock).sum := by
      rw [(ht.held.map _).sum_eq, allocations, List.map_map]
      refine congrArg List.sum (List.map_congr_left fun x _ => ?_)
      rw [Function.comp, memNeed_eq, minBlock_eq]
      dsimp only
      omega
    have hneed : memNeed n - 1 = 5 + max n 12 := by
      rw [memNeed_eq]
      omega
    have hle : 5 + max n 12 ≤ ((Client.ofLog log).held.length + 1) * (5 + max n 12) :=
      Nat.le_mul_of_pos_left _ (Nat.succ_pos _)
    rw [arenaMalloc_eq_none_iff hn (by omega)] at hp
    have htotal := ht.holds.tiled.total_le_of_alloc hp
    rw [ht.holds.linked.whole, hneed, ← hlength, ← hsum] at htotal
    omega

theorem malloc_succeeds_shareAndShrink :
    ∃ log h p h', run memStep (memInit fun _ => 0) shareAndShrink = some (log, h) ∧
      memMalloc 1000 h = some (some p, h') := by
  obtain ⟨h, hrun, -⟩ := legal_run legalRun_shareAndShrink
  obtain ⟨p, h', hmalloc⟩ := malloc_succeeds (n := 1000) legalRun_shareAndShrink hrun (by decide)
    (by rw [log_shareAndShrink hrun]; decide +kernel)
  exact ⟨_, h, p, h', hrun, hmalloc⟩

/-- **When all is given back**, the heap is one free block again. -/
theorem heap_recovers (hes : LegalRun ram es)
    (hrun : run memStep (memInit ram) es = some (log, h)) (hnone : (Client.ofLog log).held = []) :
    h.lfree = 0 ∧ structMem h.ram 0 = structMem (memInit ram).ram 0 ∧
      ∀ n, 0 < n → n + sizeofStructMem ≤ memSizeAligned →
        ∃ h', memMalloc n h = some (some sizeofStructMem, h') := by
  obtain ⟨bs, ht⟩ := tracks_of_run hes hrun
  have hheld : held 0 bs = [] := by
    have hnil := ht.held
    rw [hnone] at hnil
    exact List.map_eq_nil_iff.mp hnil.nil_eq.symm
  have hne : bs ≠ [] := by
    rintro rfl
    cases ht.holds.linked.whole
  obtain rfl : bs = startBlocks := by
    rw [ht.holds.tiled.eq_singleton hheld hne, ht.holds.linked.whole]
    rfl
  refine ⟨ht.holds.lfree, ?_, fun n hn hsize => ?_⟩
  · rw [ht.holds.linked.seg.1, (holds_memInit ram).linked.seg.1]
  · obtain ⟨h', hmalloc, -⟩ := ht.holds.memMalloc n
    rw [sizeofStructMem_eq, memSizeAligned_eq] at hsize
    have hneed : memNeed n ≤ memSizeAligned := by
      rw [memNeed_eq, memSizeAligned_eq]
      omega
    have hsmall : ¬(n = 0 ∨ memSizeAligned < n) := by
      rw [memSizeAligned_eq]
      omega
    have hanswer : (arenaMalloc n startBlocks).1 = some sizeofStructMem := by
      rw [arenaMalloc, if_neg hsmall, startBlocks, alloc, if_pos ⟨rfl, hneed⟩]
      rfl
    exact ⟨h', by rw [hmalloc, hanswer]⟩

theorem heap_recovers_twoFreed :
    ∃ log h, run memStep (memInit fun _ => 0)
        [.malloc 100, .malloc 3000, .free (some 6), .free (some 112)] = some (log, h) ∧
      h.lfree = 0 ∧ ∃ h', memMalloc 5114 h = some (some 6, h') := by
  have hes : LegalRun (fun _ => 0)
      [.malloc 100, .malloc 3000, .free (some 6), .free (some 112)] := by
    unfold LegalRun
    decide +kernel
  obtain ⟨h, hrun, -⟩ := legal_run hes
  obtain ⟨hlow, -, hmalloc⟩ := heap_recovers hes hrun (by decide +kernel)
  exact ⟨_, h, hrun, hlow, hmalloc 5114 (by decide) (by decide)⟩

end MqttDevice.Lwip
