import MqttDevice.Lib.Memory
import MqttDevice.Lib.Tiles

/-!
# The heap (`mem.c`)

The heap is an array of bytes. Every block begins with a `struct mem` that says where the next and
the previous one lie and whether it is used; `lfree` is the place of the lowest free block.

* `Linked`: the headers in the array are those of a list of blocks;
* `Linked.edit`, `Linked.mark`: some blocks are replaced by others;
* `Linked.search`, `Linked.nextFree`: the loops of `mem_malloc`.
-/

namespace MqttDevice.Lwip

open MqttDevice.Memory MqttDevice.Tiles

/-! ## The program -/

/-- `MEM_ALIGNMENT` -/
def memAlignment : Nat := 1

/-- `LWIP_MEM_ALIGN_SIZE` -/
def lwipMemAlignSize (size : Nat) : Nat := (size + memAlignment - 1) / memAlignment * memAlignment

/-- `MEM_SIZE_ALIGNED` -/
def memSizeAligned : Nat := lwipMemAlignSize (5 * 1024)

/-- `SIZEOF_STRUCT_MEM` -/
def sizeofStructMem : Nat := lwipMemAlignSize 6

/-- `MIN_SIZE_ALIGNED` -/
def minSizeAligned : Nat := lwipMemAlignSize 12

structure StructMem where
  next : Nat
  prev : Nat
  used : Bool

/-- The `struct mem` at a place. -/
def structMem (ram : Mem) (i : Nat) : StructMem :=
  ⟨load16 ram i, load16 ram (i + 2), ram (i + 4) != 0⟩

def setNext (ram : Mem) (i n : Nat) : Mem := store16 ram i n

def setPrev (ram : Mem) (i n : Nat) : Mem := store16 ram (i + 2) n

def setUsed (ram : Mem) (i : Nat) (used : Bool) : Mem :=
  Function.update ram (i + 4) (if used then 1 else 0)

/-- The variables `ram` and `lfree`; `ram_end` is at `MEM_SIZE_ALIGNED`. -/
structure MemHeap where
  ram : Mem
  lfree : Nat

/-- The header behind a block points back to it, if there is one. -/
def linkBack (ram : Mem) (next i : Nat) : Mem :=
  if next ≠ memSizeAligned then setPrev ram next i else ram

/-- `plug_holes`, forward. -/
def plugForward (mem : Nat) (h : MemHeap) : MemHeap :=
  let nmem := (structMem h.ram mem).next
  if mem ≠ nmem ∧ (structMem h.ram nmem).used = false ∧ nmem ≠ memSizeAligned then
    let ram := setNext h.ram mem (structMem h.ram nmem).next
    { ram := linkBack ram (structMem ram nmem).next mem
      lfree := if h.lfree = nmem then mem else h.lfree }
  else h

/-- `plug_holes`, backward. -/
def plugBackward (mem : Nat) (h : MemHeap) : MemHeap :=
  let pmem := (structMem h.ram mem).prev
  if pmem ≠ mem ∧ (structMem h.ram pmem).used = false then
    let ram := setNext h.ram pmem (structMem h.ram mem).next
    { ram := linkBack ram (structMem ram mem).next pmem
      lfree := if h.lfree = mem then pmem else h.lfree }
  else h

/-- `plug_holes` -/
def plugHoles (mem : Nat) (h : MemHeap) : MemHeap := plugBackward mem (plugForward mem h)

/-- `mem_init` -/
def memInit (ram : Mem) : MemHeap :=
  let ram := setUsed (setPrev (setNext ram 0 memSizeAligned) 0 0) 0 false
  let ram := setUsed ram memSizeAligned true
  ⟨setPrev (setNext ram memSizeAligned memSizeAligned) memSizeAligned memSizeAligned, 0⟩

/-- `mem_link_valid` -/
def memLinkValid (ram : Mem) (mem : Nat) : Bool :=
  let next := (structMem ram mem).next
  let prev := (structMem ram mem).prev
  ¬(next > memSizeAligned ∨ prev > memSizeAligned ∨
    prev ≠ mem ∧ (structMem ram prev).next ≠ mem ∨
    next ≠ memSizeAligned ∧ (structMem ram next).prev ≠ mem)

/-- `mem_free`; pointers are offsets into `ram`. -/
def memFree : Option Nat → MemHeap → MemHeap
  | none, h => h
  | some rmem, h =>
    let mem := rmem - sizeofStructMem
    if rmem % memAlignment ≠ 0 then h
    else if rmem < sizeofStructMem ∨ rmem + minSizeAligned > memSizeAligned then h
    else if (structMem h.ram mem).used = false then h
    else if memLinkValid h.ram mem = false then h
    else plugHoles mem ⟨setUsed h.ram mem false, if mem < h.lfree then mem else h.lfree⟩

/-- The size that `mem_malloc` and `mem_trim` work with. -/
def expandSize (size : Nat) : Nat :=
  if lwipMemAlignSize size < minSizeAligned then minSizeAligned else lwipMemAlignSize size

/-- A free `struct mem` at `ptr2`, behind the one at `ptr`. -/
def putBehind (ram : Mem) (ptr ptr2 next : Nat) : Mem :=
  setNext (setPrev (setNext (setUsed ram ptr2 false) ptr2 next) ptr2 ptr) ptr ptr2

/-- `mem_trim` -/
def memTrim (rmem newSize : Nat) (h : MemHeap) : Option Nat × MemHeap :=
  let newsize := expandSize newSize
  if newsize > memSizeAligned ∨ newsize < newSize then (none, h)
  else if rmem ≥ memSizeAligned then (some rmem, h)
  else
    let ptr := rmem - sizeofStructMem
    let next := (structMem h.ram ptr).next
    let size := ((next + 2 ^ 16 - ptr) % 2 ^ 16 + 2 ^ 16 - sizeofStructMem) % 2 ^ 16
    let ptr2 := (ptr + sizeofStructMem + newsize) % 2 ^ 16
    if newsize > size then (none, h)
    else if newsize = size then (some rmem, h)
    else if (structMem h.ram next).used = false then
      let ram := putBehind h.ram ptr ptr2 (structMem h.ram next).next
      (some rmem,
        { ram := linkBack ram (structMem ram ptr2).next ptr2
          lfree := if h.lfree = next then ptr2 else h.lfree })
    else if newsize + sizeofStructMem + minSizeAligned ≤ size then
      let ram := putBehind h.ram ptr ptr2 next
      (some rmem,
        { ram := linkBack ram (structMem ram ptr2).next ptr2
          lfree := if ptr2 < h.lfree then ptr2 else h.lfree })
    else (some rmem, h)

/-- `mem->next - (ptr + SIZEOF_STRUCT_MEM)` -/
def userSize (ram : Mem) (ptr : Nat) : Nat :=
  ((structMem ram ptr).next + 2 ^ 32 - (ptr + sizeofStructMem)) % 2 ^ 32

/-- The search of `mem_malloc` for a block that is big enough; `none` if it goes on. -/
def search (size : Nat) (ram : Mem) : Nat → Nat → Option (Option Nat)
  | 0, _ => none
  | fuel + 1, ptr =>
    if ptr < memSizeAligned - size then
      if (structMem ram ptr).used = false ∧ size ≤ userSize ram ptr then some (some ptr)
      else search size ram fuel (structMem ram ptr).next
    else some none

/-- The next free block, for `lfree`. -/
def nextFree (ram : Mem) : Nat → Nat → Option Nat
  | 0, _ => none
  | fuel + 1, cur =>
    if (structMem ram cur).used ∧ cur ≠ memSizeAligned then
      nextFree ram fuel (structMem ram cur).next
    else some cur

/-- The block at `ptr` is taken, and split if it is large. -/
def take (size ptr : Nat) (ram : Mem) : Mem :=
  if userSize ram ptr ≥ size + sizeofStructMem + minSizeAligned then
    let ptr2 := (ptr + sizeofStructMem + size) % 2 ^ 16
    let ram := setUsed (putBehind ram ptr ptr2 (structMem ram ptr).next) ptr true
    linkBack ram (structMem ram ptr2).next ptr2
  else setUsed ram ptr true

/-- `mem_malloc` -/
def memMalloc (sizeIn : Nat) (h : MemHeap) : Option (Option Nat × MemHeap) :=
  if sizeIn = 0 then some (none, h)
  else
    let size := expandSize sizeIn
    if size > memSizeAligned ∨ size < sizeIn then some (none, h)
    else
      (search size h.ram (memSizeAligned + 1) h.lfree).bind fun found =>
        match found with
        | none => some (none, h)
        | some ptr =>
          let ram := take size ptr h.ram
          if ptr = h.lfree then
            (nextFree ram (memSizeAligned + 1) h.lfree).map fun cur =>
              (some (ptr + sizeofStructMem), ⟨ram, cur⟩)
          else some (some (ptr + sizeofStructMem), ⟨ram, h.lfree⟩)

/-- `mem_calloc` -/
def memCalloc (count size : Nat) (h : MemHeap) : Option (Option Nat × MemHeap) :=
  let allocSize := count * size
  if allocSize % 2 ^ 16 ≠ allocSize then some (none, h)
  else
    (memMalloc allocSize h).map fun (p, h) =>
      match p with
      | none => (none, h)
      | some p => (some p, { h with ram := memcpy h.ram p (fun _ => 0) allocSize })

@[simp] theorem lwipMemAlignSize_eq (size : Nat) : lwipMemAlignSize size = size := by
  rw [lwipMemAlignSize, memAlignment, Nat.mul_one, Nat.div_one, Nat.add_sub_cancel]

@[simp] theorem memSizeAligned_eq : memSizeAligned = 5120 := rfl

@[simp] theorem sizeofStructMem_eq : sizeofStructMem = 6 := rfl

@[simp] theorem minSizeAligned_eq : minSizeAligned = 12 := rfl

theorem expandSize_eq (size : Nat) : expandSize size = max size 12 := by
  rw [expandSize, lwipMemAlignSize_eq, minSizeAligned_eq]
  split <;> omega

/-! ## Headers -/

variable {ram ram' : Mem} {i j n : Nat}

theorem structMem_congr (h : ∀ k < 6, ram' (i + k) = ram (i + k)) :
    structMem ram' i = structMem ram i := by
  have hnext : load16 ram' i = load16 ram i := load16_congr fun k hk => h k (by omega)
  have hprev : load16 ram' (i + 2) = load16 ram (i + 2) := load16_congr fun k hk => by
    rw [Nat.add_assoc]
    exact h (2 + k) (by omega)
  rw [structMem, structMem, hnext, hprev, h 4 (by decide)]

theorem setNext_outside (ram : Mem) {a : Nat} (n : Nat) (h : a < i ∨ i + 6 ≤ a) :
    setNext ram i n a = ram a := store16_outside ram n (by omega)

theorem setPrev_outside (ram : Mem) {a : Nat} (n : Nat) (h : a < i ∨ i + 6 ≤ a) :
    setPrev ram i n a = ram a := store16_outside ram n (by omega)

theorem setUsed_outside (ram : Mem) {a : Nat} (used : Bool) (h : a < i ∨ i + 6 ≤ a) :
    setUsed ram i used a = ram a := Function.update_of_ne (by omega) ..

theorem structMem_setNext (ram : Mem) (i : Nat) (h : n < 65536) :
    structMem (setNext ram i n) i = { structMem ram i with next := n } := by
  have hnext : load16 (setNext ram i n) i = n := by
    rw [setNext, load16_store16, Nat.mod_eq_of_lt h]
  have hprev : load16 (setNext ram i n) (i + 2) = load16 ram (i + 2) :=
    load16_congr fun k _ => store16_outside ram n (by omega)
  have hused : setNext ram i n (i + 4) = ram (i + 4) := store16_outside ram n (by omega)
  rw [structMem, hnext, hprev, hused]
  rfl

theorem structMem_setPrev (ram : Mem) (i : Nat) (h : n < 65536) :
    structMem (setPrev ram i n) i = { structMem ram i with prev := n } := by
  have hnext : load16 (setPrev ram i n) i = load16 ram i :=
    load16_congr fun k _ => store16_outside ram n (by omega)
  have hprev : load16 (setPrev ram i n) (i + 2) = n := by
    rw [setPrev, load16_store16, Nat.mod_eq_of_lt h]
  have hused : setPrev ram i n (i + 4) = ram (i + 4) := store16_outside ram n (by omega)
  rw [structMem, hnext, hprev, hused]
  rfl

theorem structMem_setUsed (ram : Mem) (i : Nat) (used : Bool) :
    structMem (setUsed ram i used) i = { structMem ram i with used := used } := by
  have hnext : load16 (setUsed ram i used) i = load16 ram i :=
    load16_congr fun k _ => Function.update_of_ne (by omega) ..
  have hprev : load16 (setUsed ram i used) (i + 2) = load16 ram (i + 2) :=
    load16_congr fun k _ => Function.update_of_ne (by omega) ..
  have hused : (setUsed ram i used (i + 4) != 0) = used := by
    rw [setUsed, Function.update_self]
    cases used <;> decide
  rw [structMem, hnext, hprev, hused]
  rfl

theorem structMem_setNext_of_apart (ram : Mem) (n : Nat) (h : i + 6 ≤ j ∨ j + 6 ≤ i) :
    structMem (setNext ram i n) j = structMem ram j :=
  structMem_congr fun k _ => setNext_outside ram n (by omega)

theorem structMem_setPrev_of_apart (ram : Mem) (n : Nat) (h : i + 6 ≤ j ∨ j + 6 ≤ i) :
    structMem (setPrev ram i n) j = structMem ram j :=
  structMem_congr fun k _ => setPrev_outside ram n (by omega)

theorem structMem_setUsed_of_apart (ram : Mem) (used : Bool) (h : i + 6 ≤ j ∨ j + 6 ≤ i) :
    structMem (setUsed ram i used) j = structMem ram j :=
  structMem_congr fun k _ => setUsed_outside ram used (by omega)

theorem linkBack_outside (ram : Mem) {a : Nat} (n : Nat) (h : a < i ∨ i + 6 ≤ a) :
    linkBack ram i n a = ram a := by
  unfold linkBack
  split
  · exact setPrev_outside ram n h
  · rfl

section putBehind

variable {ptr ptr2 next : Nat} (hapart : ptr + 6 ≤ ptr2)
include hapart

theorem putBehind_outside (ram : Mem) {a : Nat}
    (h : a < ptr ∨ ptr + 6 ≤ a ∧ a < ptr2 ∨ ptr2 + 6 ≤ a) :
    putBehind ram ptr ptr2 next a = ram a := by
  rw [putBehind, setNext_outside _ _ (by omega), setPrev_outside _ _ (by omega),
    setNext_outside _ _ (by omega), setUsed_outside _ _ (by omega)]

theorem structMem_putBehind_front (ram : Mem) (h : ptr2 < 65536) :
    structMem (putBehind ram ptr ptr2 next) ptr = { structMem ram ptr with next := ptr2 } := by
  rw [putBehind, structMem_setNext _ _ h, structMem_setPrev_of_apart _ _ (.inr hapart),
    structMem_setNext_of_apart _ _ (.inr hapart), structMem_setUsed_of_apart _ _ (.inr hapart)]

theorem structMem_putBehind_behind (ram : Mem) (h : ptr2 < 65536) (hnext : next < 65536) :
    structMem (putBehind ram ptr ptr2 next) ptr2 = ⟨next, ptr, false⟩ := by
  rw [putBehind, structMem_setNext_of_apart _ _ (.inl hapart), structMem_setPrev _ _ (by omega),
    structMem_setNext _ _ hnext, structMem_setUsed]

end putBehind

/-! ## The blocks -/

/-- What an allocation takes of the heap, with its header. -/
def memNeed (size : Nat) : Nat := sizeofStructMem + expandSize size

/-- The smallest block. -/
def minBlock : Nat := sizeofStructMem + minSizeAligned

theorem memNeed_eq (size : Nat) : memNeed size = 6 + max size 12 := by
  rw [memNeed, sizeofStructMem_eq, expandSize_eq]

@[simp] theorem minBlock_eq : minBlock = 18 := rfl

theorem minBlock_le_memNeed (size : Nat) : minBlock ≤ memNeed size := by
  rw [memNeed_eq, minBlock_eq]
  omega

/-- The block is not too small. -/
def Roomy (b : Block Nat) : Prop := minBlock ≤ b.size ∧ ∀ v ∈ b.owner, memNeed v ≤ b.size

/-- The headers of the blocks from `o` on; the block before begins at `prev`. -/
def Seg (ram : Mem) : Nat → Nat → List (Block Nat) → Prop
  | _, _, [] => True
  | prev, o, b :: bs =>
    structMem ram o = ⟨o + b.size, prev, b.owner.isSome⟩ ∧ Seg ram o (o + b.size) bs

/-- Where the last block begins. -/
def lastPlace : Nat → Nat → List (Block Nat) → Nat
  | prev, _, [] => prev
  | _, o, b :: bs => lastPlace o (o + b.size) bs

/-- The byte belongs to an allocation. -/
def Owned (o : Nat) (bs : List (Block Nat)) (a : Nat) : Prop :=
  ∃ x ∈ held o bs, x.1 + sizeofStructMem ≤ a ∧ a < x.1 + memNeed x.2

variable {prev o a : Nat} {b : Block Nat} {as bs cs : List (Block Nat)}

theorem lastPlace_snoc (prev o : Nat) (as : List (Block Nat)) (b : Block Nat) :
    lastPlace prev o (as ++ [b]) = o + total as := by
  induction as generalizing prev o with
  | nil => rfl
  | cons a as ih => rw [List.cons_append, lastPlace, ih, total_cons, Nat.add_assoc]

theorem seg_append : Seg ram prev o (as ++ bs) ↔
    Seg ram prev o as ∧ Seg ram (lastPlace prev o as) (o + total as) bs := by
  induction as generalizing prev o with
  | nil => exact ⟨fun h => ⟨trivial, h⟩, And.right⟩
  | cons a as ih =>
    rw [List.cons_append, Seg, ih, ← and_assoc, total_cons, ← Nat.add_assoc]
    rfl

/-- What is elsewhere does not matter. -/
theorem Seg.congr (h : Seg ram prev o bs) (hroomy : ∀ b ∈ bs, Roomy b)
    (hsame : ∀ a, o ≤ a → a < o + total bs → ram' a = ram a) : Seg ram' prev o bs := by
  induction bs generalizing prev o with
  | nil => trivial
  | cons b bs ih =>
    obtain ⟨⟨hb, -⟩, hbs⟩ := List.forall_mem_cons.mp hroomy
    rw [minBlock_eq] at hb
    rw [total_cons] at hsame
    refine ⟨(structMem_congr fun k hk => hsame _ (by omega) (by omega)).trans h.1, ?_⟩
    exact ih h.2 hbs fun a hlo hhi => hsame a (by omega) (by omega)

theorem owned_append : Owned o (as ++ bs) a ↔ Owned o as a ∨ Owned (o + total as) bs a := by
  simp only [Owned, held_append, List.mem_append, or_and_right, exists_or]

theorem owned_cons : Owned o (b :: bs) a ↔ Owned o [b] a ∨ Owned (o + b.size) bs a := by
  rw [← List.singleton_append, owned_append]
  rfl

theorem Owned.bounds (h : Owned o bs a) (hroomy : ∀ b ∈ bs, Roomy b) :
    o + 6 ≤ a ∧ a < o + total bs := by
  obtain ⟨x, hx, hlo, hhi⟩ := h
  obtain ⟨as, s, cs, rfl, hat⟩ := split_of_mem_held hx
  have hneed := (hroomy ⟨s, some x.2⟩ (by simp)).2 x.2 rfl
  rw [total_append, total_cons]
  rw [sizeofStructMem_eq] at hlo
  dsimp only at hneed ⊢
  omega

/-- The header at a place gets another pointer back. -/
theorem Seg.relink (h : Seg ram prev o bs) (hroomy : ∀ b ∈ bs, Roomy b)
    (hend : o + total bs = memSizeAligned) (hn : n < 65536) : Seg (linkBack ram o n) n o bs := by
  cases bs with
  | nil => trivial
  | cons b bs =>
    obtain ⟨⟨hb, -⟩, hbs⟩ := List.forall_mem_cons.mp hroomy
    rw [minBlock_eq] at hb
    rw [total_cons] at hend
    have hne : o ≠ memSizeAligned := by omega
    refine ⟨?_, h.2.congr hbs fun a hlo _ => linkBack_outside ram n (by omega)⟩
    rw [linkBack, if_pos hne, structMem_setPrev _ _ hn, h.1]

/-- The headers in the array are those of the blocks. -/
structure Linked (ram : Mem) (bs : List (Block Nat)) : Prop where
  seg : Seg ram 0 0 bs
  whole : total bs = memSizeAligned
  ramEnd : structMem ram memSizeAligned = ⟨memSizeAligned, memSizeAligned, true⟩
  roomy : ∀ b ∈ bs, Roomy b

/-- The blocks change, and what the allocations hold before and after does not. -/
structure Edit (ram ram' : Mem) (bs bs' : List (Block Nat)) : Prop where
  linked : Linked ram' bs'
  same : ∀ a, Owned 0 bs a → Owned 0 bs' a → ram' a = ram a

/-- The header of a block. -/
theorem Linked.header (h : Linked ram (as ++ b :: bs)) :
    structMem ram (total as) =
      ⟨total as + b.size, lastPlace 0 0 as, b.owner.isSome⟩ := by
  have hb := (seg_append.mp h.seg).2.1
  rw [Nat.zero_add] at hb
  exact hb

theorem Linked.size_le (h : Linked ram (as ++ b :: bs)) :
    18 ≤ b.size ∧ total as + b.size + total bs = 5120 := by
  have htotal := h.whole
  rw [total_append, total_cons, memSizeAligned_eq, ← Nat.add_assoc] at htotal
  exact ⟨(h.roomy b (by simp)).1, htotal⟩

/-- Some blocks are replaced by others. -/
theorem Linked.replace (ms ms' : List (Block Nat)) (h : Linked ram (as ++ (ms ++ bs)))
    (htotal : total ms' = total ms) (hroomy : ∀ b ∈ ms', Roomy b)
    (hkeep : ∀ a, a < total as ∨ total as + total ms + 6 ≤ a → ram' a = ram a)
    (hramEnd : structMem ram' memSizeAligned = structMem ram memSizeAligned)
    (hmid : Seg ram' (lastPlace 0 0 as) (total as) ms')
    (hrest : Seg ram' (lastPlace (lastPlace 0 0 as) (total as) ms')
      (total as + total ms) bs)
    (hsame : ∀ a, Owned (total as) ms a → Owned (total as) ms' a → ram' a = ram a) :
    Edit ram ram' (as ++ (ms ++ bs)) (as ++ (ms' ++ bs)) := by
  obtain ⟨has, hall⟩ := List.forall_mem_append.mp h.roomy
  obtain ⟨hms, hbs⟩ := List.forall_mem_append.mp hall
  constructor
  · refine ⟨?_, ?_, hramEnd.trans h.ramEnd, ?_⟩
    · have hbefore := (seg_append.mp h.seg).1
      refine seg_append.mpr ⟨hbefore.congr has fun a _ ha => hkeep a (by omega), ?_⟩
      rw [Nat.zero_add]
      refine seg_append.mpr ⟨hmid, ?_⟩
      rw [htotal]
      exact hrest
    · rw [← h.whole, total_append, total_append, total_append, total_append, htotal]
    · exact List.forall_mem_append.mpr ⟨has, List.forall_mem_append.mpr ⟨hroomy, hbs⟩⟩
  · intro a hbefore hafter
    rcases owned_append.mp hbefore with hown | hbefore
    · have hbounds := hown.bounds has
      exact hkeep a (by omega)
    rw [Nat.zero_add] at hbefore
    rcases owned_append.mp hbefore with hown | hown
    · have hbounds := hown.bounds hms
      refine hsame a hown ?_
      rcases owned_append.mp hafter with hown' | hafter
      · have hbounds' := hown'.bounds has
        omega
      rw [Nat.zero_add] at hafter
      rcases owned_append.mp hafter with hown' | hown'
      · exact hown'
      · have hbounds' := hown'.bounds hbs
        omega
    · have hbounds := hown.bounds hbs
      exact hkeep a (by omega)

/-- **Some blocks are replaced**, and the next one points back to the last of them. -/
theorem Linked.edit (ms ms' : List (Block Nat)) (h : Linked ram (as ++ (ms ++ bs)))
    (htotal : total ms' = total ms) (hroomy : ∀ b ∈ ms', Roomy b)
    (hout : ∀ a, a < total as ∨ total as + total ms ≤ a → ram' a = ram a)
    (hmid : Seg ram' (lastPlace 0 0 as) (total as) ms')
    (hsame : ∀ a, Owned (total as) ms a → Owned (total as) ms' a → ram' a = ram a)
    (hlast : lastPlace (lastPlace 0 0 as) (total as) ms' = n) (hn : n < 65536) :
    Edit ram (linkBack ram' (total as + total ms) n)
      (as ++ (ms ++ bs)) (as ++ (ms' ++ bs)) := by
  have hms : ∀ b ∈ ms, Roomy b := fun b hb => h.roomy b (by simp [hb])
  have hbs : ∀ b ∈ bs, Roomy b := fun b hb => h.roomy b (by simp [hb])
  have hsegbs := (seg_append.mp (seg_append.mp h.seg).2).2
  have hend := h.whole
  rw [Nat.zero_add] at hsegbs
  rw [total_append, total_append, ← Nat.add_assoc] at hend
  have hkeep : ∀ a, a < total as ∨ total as + total ms + 6 ≤ a →
      linkBack ram' (total as + total ms) n a = ram a := fun a ha => by
    rw [linkBack_outside ram' n (by omega), hout a (by omega)]
  refine h.replace ms ms' htotal hroomy hkeep ?_ ?_ ?_ fun a hbefore hafter => ?_
  · refine structMem_congr fun k hk => ?_
    cases bs with
    | nil =>
      rw [total_nil, Nat.add_zero] at hend
      rw [linkBack, if_neg (not_not_intro hend), hout _ (by omega)]
    | cons b bs =>
      have hb := (List.forall_mem_cons.mp hbs).1.1
      rw [minBlock_eq] at hb
      rw [total_cons] at hend
      exact hkeep _ (by omega)
  · refine hmid.congr hroomy fun a _ ha => linkBack_outside ram' n (.inl ?_)
    rw [← htotal]
    exact ha
  · rw [hlast]
    exact (hsegbs.congr hbs fun a ha _ => hout a (.inr ha)).relink hbs hend hn
  · have hbounds := hbefore.bounds hms
    rw [linkBack_outside ram' n (by omega)]
    exact hsame a hbefore hafter

/-- **A block changes** that stays where it is. -/
theorem Linked.mark {c : Block Nat} (h : Linked ram (as ++ b :: bs)) (hsize : c.size = b.size)
    (hroomy : Roomy c)
    (hout : ∀ a, a < total as ∨ total as + b.size ≤ a → ram' a = ram a)
    (hheader : structMem ram' (total as) =
      ⟨total as + c.size, lastPlace 0 0 as, c.owner.isSome⟩)
    (hsame : ∀ a, Owned (total as) [b] a → Owned (total as) [c] a → ram' a = ram a) :
    Edit ram ram' (as ++ b :: bs) (as ++ c :: bs) := by
  have hbs : ∀ b ∈ bs, Roomy b := fun b hb => h.roomy b (by simp [hb])
  have hsegbs := (seg_append.mp h.seg).2.2
  have hend := h.size_le.2
  rw [Nat.zero_add] at hsegbs
  refine Linked.replace [b] [c] h (by simp [hsize]) (by simpa using hroomy)
    (fun a ha => hout a ?_) ?_ ⟨hheader, trivial⟩ ?_ hsame
  · rw [total_cons, total_nil] at ha
    omega
  · refine structMem_congr fun k hk => hout _ (.inr ?_)
    rw [memSizeAligned_eq]
    omega
  · exact hsegbs.congr hbs fun a ha _ => hout a (.inr ha)

theorem Seg.congr_owned (h : Seg ram prev o bs) (hroomy : ∀ b ∈ bs, Roomy b)
    (hsame : ∀ a, o ≤ a → ¬Owned o bs a → ram' a = ram a) : Seg ram' prev o bs := by
  induction bs generalizing prev o with
  | nil => trivial
  | cons b bs ih =>
    obtain ⟨hb, hbs⟩ := List.forall_mem_cons.mp hroomy
    have hbounds {a : Nat} (hown : Owned o [b] a) : o + 6 ≤ a ∧ a < o + b.size := by
      have hbounds := hown.bounds (List.forall_mem_singleton.mpr hb)
      rwa [total_cons, total_nil, Nat.add_zero] at hbounds
    have hlarge := hb.1
    rw [minBlock_eq] at hlarge
    refine ⟨(structMem_congr fun k hk => hsame _ (Nat.le_add_right _ _) fun hown => ?_).trans h.1,
      ih h.2 hbs fun a hle hown => hsame a (by omega) fun hown' => ?_⟩
    · rcases owned_cons.mp hown with hown | hown
      · have hlo := (hbounds hown).1
        omega
      · have hlo := (hown.bounds hbs).1
        omega
    · rcases owned_cons.mp hown' with hown' | hown'
      · have hhi := (hbounds hown').2
        omega
      · exact hown hown'

/-- **What the owners store** does not matter. -/
theorem Linked.congr (h : Linked ram bs) (hsame : ∀ a, ¬Owned 0 bs a → ram' a = ram a) :
    Linked ram' bs := by
  refine ⟨h.seg.congr_owned h.roomy fun a _ hown => hsame a hown, h.whole, ?_, h.roomy⟩
  rw [← h.ramEnd]
  refine structMem_congr fun k hk => hsame _ fun hown => ?_
  have hhi := (hown.bounds h.roomy).2
  rw [h.whole] at hhi
  omega

/-! ## The loops -/

theorem Linked.suffix (h : Linked ram (as ++ bs)) :
    Seg ram (lastPlace 0 0 as) (total as) bs ∧ (∀ b ∈ bs, Roomy b) ∧
      total as + total bs = memSizeAligned := by
  have hseg := (seg_append.mp h.seg).2
  have htotal := h.whole
  rw [Nat.zero_add] at hseg
  rw [total_append] at htotal
  exact ⟨hseg, (List.forall_mem_append.mp h.roomy).2, htotal⟩

/-- There are not many blocks. -/
theorem length_le_total (hroomy : ∀ b ∈ bs, Roomy b) : bs.length ≤ total bs := by
  induction bs with
  | nil => exact Nat.le_refl _
  | cons b bs ih =>
    obtain ⟨⟨hb, -⟩, hbs⟩ := List.forall_mem_cons.mp hroomy
    have hrest := ih hbs
    rw [minBlock_eq] at hb
    rw [List.length_cons, total_cons]
    omega

theorem userSize_eq {s : Nat} {used : Bool} (h : structMem ram o = ⟨o + s, prev, used⟩)
    (hs : 18 ≤ s) (hend : o + s ≤ 5120) : userSize ram o = s - 6 := by
  rw [userSize, h, sizeofStructMem_eq]
  dsimp only
  omega

/-- **The search finds the first block that fits.** -/
theorem Seg.search_eq {size fuel : Nat} (h : Seg ram prev o bs) (hroomy : ∀ b ∈ bs, Roomy b)
    (hend : o + total bs = memSizeAligned) (hsize : expandSize size ≤ memSizeAligned)
    (hfuel : bs.length < fuel) :
    search (expandSize size) ram fuel o =
      some ((alloc minBlock memNeed size o bs).map Prod.fst) := by
  rw [memSizeAligned_eq] at hend
  induction bs generalizing prev o fuel with
  | nil =>
    obtain ⟨fuel, rfl⟩ := Nat.exists_eq_succ_of_ne_zero (Nat.ne_zero_of_lt hfuel)
    rw [total_nil, Nat.add_zero] at hend
    rw [search, if_neg (by rw [memSizeAligned_eq]; omega)]
    rfl
  | cons b bs ih =>
    obtain ⟨fuel, rfl⟩ := Nat.exists_eq_succ_of_ne_zero (Nat.ne_zero_of_lt hfuel)
    obtain ⟨hheader, hrest⟩ := h
    obtain ⟨⟨hb, -⟩, hbs⟩ := List.forall_mem_cons.mp hroomy
    have hend' := hend
    rw [total_cons] at hend'
    rw [minBlock_eq] at hb
    rw [search]
    split
    · rw [userSize_eq hheader hb (by omega), hheader, alloc]
      have hneed : expandSize size ≤ b.size - 6 ↔ memNeed size ≤ b.size := by
        rw [memNeed, sizeofStructMem_eq]
        omega
      have hfree : b.owner.isSome = false ↔ b.owner.isNone = true := by
        cases b.owner <;> simp
      simp only [hneed, hfree]
      split
      · rfl
      · rw [ih hrest hbs (by omega) (Nat.lt_of_succ_lt_succ hfuel), Option.map_map]
        rfl
    · rename_i hfar
      have hsmall : total (b :: bs) < memNeed size := by
        rw [memSizeAligned_eq] at hfar hsize
        rw [memNeed, sizeofStructMem_eq, total_cons]
        omega
      rw [alloc_eq_none_of_total hsmall]
      rfl

/-- **The next free block** is found. -/
theorem Seg.nextFree_eq {fuel : Nat} (h : Seg ram prev o bs) (hroomy : ∀ b ∈ bs, Roomy b)
    (hend : o + total bs = memSizeAligned) (hfuel : bs.length < fuel) :
    nextFree ram fuel o = some (firstFree o bs) := by
  induction bs generalizing prev o fuel with
  | nil =>
    obtain ⟨fuel, rfl⟩ := Nat.exists_eq_succ_of_ne_zero (Nat.ne_zero_of_lt hfuel)
    rw [total_nil, Nat.add_zero] at hend
    rw [nextFree, if_neg fun h => h.2 hend]
    rfl
  | cons b bs ih =>
    obtain ⟨fuel, rfl⟩ := Nat.exists_eq_succ_of_ne_zero (Nat.ne_zero_of_lt hfuel)
    obtain ⟨hheader, hrest⟩ := h
    obtain ⟨⟨hb, -⟩, hbs⟩ := List.forall_mem_cons.mp hroomy
    rw [total_cons, ← Nat.add_assoc] at hend
    rw [minBlock_eq] at hb
    have hne : o ≠ memSizeAligned := by omega
    rw [nextFree, hheader, firstFree]
    split
    · rename_i hused
      rw [if_pos hused.1]
      exact ih hrest hbs hend (Nat.lt_of_succ_lt_succ hfuel)
    · rename_i hused
      rw [if_neg fun hb => hused ⟨hb, hne⟩]

end MqttDevice.Lwip
