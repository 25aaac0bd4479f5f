import MqttDevice.Lwip.Mem

/-!
# The heap as a tiling

`mem_malloc`, `mem_free` and `mem_trim` do to the headers in the array what the operations of
tilings do to a list of blocks, and leave the bytes of the allocations alone.

* `Linked.join`, `Linked.split`: two free blocks become one, and a block is divided;
* `Holds`: the heap is in order;
* `Holds.memFree`, `Holds.memTrim`, `Holds.memMalloc`, `Holds.memCalloc`: it stays so.
-/

namespace MqttDevice.Lwip

open MqttDevice.Memory MqttDevice.Tiles

variable {ram ram' ram'' : Mem} {a o n s t : Nat} {b c : Block Nat} {v : Option Nat}
variable {as bs bs' bs'' cs ms : List (Block Nat)}

/-! ## Edits -/

theorem Linked.refl (h : Linked ram bs) : Edit ram ram bs bs := ⟨h, fun _ _ _ => rfl⟩

theorem Edit.trans (h : Edit ram ram' bs bs') (h' : Edit ram' ram'' bs' bs'')
    (hheld : held 0 bs'' = held 0 bs') : Edit ram ram'' bs bs'' := by
  refine ⟨h'.linked, fun a hbefore hafter => ?_⟩
  have hown : Owned 0 bs' a := by
    rw [Owned, ← hheld]
    exact hafter
  rw [h'.same a hown hafter, h.same a hbefore hown]

theorem not_owned_free (o s a : Nat) : ¬Owned o [⟨s, none⟩] a := by
  rintro ⟨_, ⟨⟩, -⟩

theorem Linked.header_next (h : Linked ram (as ++ b :: c :: bs)) :
    structMem ram (total as + b.size) =
      ⟨total as + b.size + c.size, total as, c.owner.isSome⟩ := by
  have hc := (seg_append.mp h.seg).2.2.1
  rw [Nat.zero_add] at hc
  exact hc

/-- **Two free blocks become one.** -/
theorem Linked.join (h : Linked ram (as ++ ⟨s, none⟩ :: ⟨n, none⟩ :: bs)) :
    Edit ram (linkBack (setNext ram (total as) (total as + s + n)) (total as + s + n) (total as))
      (as ++ ⟨s, none⟩ :: ⟨n, none⟩ :: bs) (as ++ ⟨s + n, none⟩ :: bs) := by
  obtain ⟨hs, hend⟩ := h.size_le
  have hheader := h.header
  rw [total_cons] at hend
  dsimp only at hs hend hheader
  have he : total as + s + n = total as + total [(⟨s, none⟩ : Block Nat), ⟨n, none⟩] := by
    simp only [total_cons, total_nil]
    omega
  have hlt : total as + total [(⟨s, none⟩ : Block Nat), ⟨n, none⟩] < 65536 := by omega
  rw [he]
  refine Linked.edit [⟨s, none⟩, ⟨n, none⟩] [⟨s + n, none⟩] h ?_ ?_
    (fun a ha => setNext_outside _ _ ?_) ⟨?_, trivial⟩ ?_ rfl (by omega)
  · simp only [total_cons, total_nil]
    omega
  · refine List.forall_mem_singleton.mpr ⟨?_, by simp⟩
    rw [minBlock_eq]
    exact hs.trans (Nat.le_add_right _ _)
  · omega
  · rw [structMem_setNext _ _ hlt, hheader, ← he]
    simp [Nat.add_assoc]
  · exact fun a _ hafter => absurd hafter (not_owned_free _ _ _)

/-- **A block is used or free.** -/
theorem Linked.markUsed {w : Option Nat} (h : Linked ram (as ++ ⟨s, v⟩ :: bs))
    (hw : ∀ x ∈ w, memNeed x ≤ s) :
    Edit ram (setUsed ram (total as) w.isSome) (as ++ ⟨s, v⟩ :: bs) (as ++ ⟨s, w⟩ :: bs) := by
  obtain ⟨hs, -⟩ := h.size_le
  have hroomy := h.roomy ⟨s, v⟩ (by simp)
  dsimp only at hs
  refine h.mark rfl ⟨by rw [minBlock_eq]; exact hs, hw⟩
    (fun a ha => setUsed_outside _ _ ?_) ?_ fun a hbefore _ => setUsed_outside _ _ (.inr ?_)
  · dsimp only at ha
    omega
  · rw [structMem_setUsed, h.header]
  · exact (hbefore.bounds (List.forall_mem_singleton.mpr hroomy)).1

theorem Linked.retag {w w' : Nat} (h : Linked ram (as ++ ⟨s, some w⟩ :: bs)) (hw : memNeed w' ≤ s) :
    Edit ram ram (as ++ ⟨s, some w⟩ :: bs) (as ++ ⟨s, some w'⟩ :: bs) := by
  obtain ⟨hs, -⟩ := h.size_le
  refine h.mark rfl ⟨hs, ?_⟩ (fun _ _ => rfl) h.header fun _ _ _ => rfl
  rintro _ ⟨⟩
  exact hw

/-- **A stretch is divided** into a block and a free one behind it. -/
theorem Linked.split (ms : List (Block Nat)) (h : Linked ram (as ++ (ms ++ bs)))
    (hs : total ms = s) (hlarge : 18 ≤ n) (hroom : n + 18 ≤ s) (hv : ∀ w ∈ v, memNeed w ≤ n)
    (hout : ∀ a, a < total as ∨ total as + 6 ≤ a ∧ a < total as + n ∨ total as + n + 6 ≤ a →
      ram' a = ram a)
    (hfront : structMem ram' (total as) = ⟨total as + n, lastPlace 0 0 as, v.isSome⟩)
    (hbehind : structMem ram' (total as + n) = ⟨total as + s, total as, false⟩) :
    Edit ram (linkBack ram' (total as + s) (total as + n)) (as ++ (ms ++ bs))
      (as ++ ⟨n, v⟩ :: ⟨s - n, none⟩ :: bs) := by
  have htotal := h.whole
  rw [total_append, total_append, memSizeAligned_eq] at htotal
  have hsn : total as + n + (s - n) = total as + s := by omega
  have hlt : total as + n < 65536 := by omega
  have hn : Roomy ⟨n, v⟩ := ⟨by rw [minBlock_eq]; exact hlarge, hv⟩
  obtain rfl := hs
  refine h.edit ms [⟨n, v⟩, ⟨total ms - n, none⟩] ?_ ?_ (fun a ha => hout a ?_)
    ⟨hfront, ?_, trivial⟩ (fun a _ hafter => hout a ?_) rfl hlt
  · simp only [total_cons, total_nil]
    omega
  · refine List.forall_mem_cons.mpr ⟨hn, List.forall_mem_singleton.mpr ⟨?_, by simp⟩⟩
    rw [minBlock_eq]
    exact Nat.le_sub_of_add_le (by omega)
  · omega
  · rw [hbehind, ← hsn]
    rfl
  · rcases owned_cons.mp hafter with hown | hown
    · have hbounds := hown.bounds (List.forall_mem_singleton.mpr hn)
      simp only [total_cons, total_nil, Nat.add_zero] at hbounds
      omega
    · exact absurd hown (not_owned_free _ _ _)

/-! ## Freeing -/

/-- `plug_holes` joins a free block with the one behind it. -/
theorem Linked.plugForward {h : MemHeap} (hl : Linked h.ram (as ++ ⟨s, none⟩ :: bs))
    (hlfree : h.lfree ≤ total as) :
    Edit h.ram (plugForward (total as) h).ram (as ++ ⟨s, none⟩ :: bs)
        (as ++ push ⟨s, none⟩ bs) ∧
      (plugForward (total as) h).lfree = h.lfree := by
  obtain ⟨hs, hend⟩ := hl.size_le
  have hheader := hl.header
  dsimp only at hs hend hheader
  unfold Lwip.plugForward
  simp only [hheader]
  cases bs with
  | nil =>
    rw [total_nil, Nat.add_zero] at hend
    rw [if_neg fun hc => hc.2.2 hend]
    exact ⟨hl.refl, rfl⟩
  | cons c bs =>
    have hnext := hl.header_next
    dsimp only at hnext
    obtain ⟨n, owner⟩ := c
    cases owner with
    | some w =>
      rw [if_neg (by simp [hnext])]
      exact ⟨hl.refl, rfl⟩
    | none =>
      have hne : total as ≠ total as + s := by omega
      have hend' : total as + s ≠ memSizeAligned := by
        have hn := (hl.roomy ⟨n, none⟩ (by simp)).1
        rw [minBlock_eq] at hn
        rw [total_cons] at hend
        rw [memSizeAligned_eq]
        dsimp only at hend hn
        omega
      have hlow : h.lfree ≠ total as + s := by omega
      rw [if_pos ⟨hne, by rw [hnext]; rfl, hend'⟩, if_neg hlow,
        structMem_setNext_of_apart _ _ (.inl (by omega)), hnext]
      exact ⟨hl.join, rfl⟩

/-- `plug_holes` joins a free block with the one before it. -/
theorem Linked.plugBackward {h : MemHeap} (hl : Linked h.ram (as ++ ⟨s, none⟩ :: bs))
    (hapart : as.IsChain Apart) (hlfree : h.lfree = firstFree 0 as) :
    Edit h.ram (plugBackward (total as) h).ram (as ++ ⟨s, none⟩ :: bs)
        (as.foldr push (⟨s, none⟩ :: bs)) ∧
      (plugBackward (total as) h).lfree = h.lfree := by
  obtain ⟨hs, hend⟩ := hl.size_le
  have hheader := hl.header
  dsimp only at hs hend hheader
  unfold Lwip.plugBackward
  simp only [hheader]
  rcases List.eq_nil_or_concat as with rfl | ⟨as, ⟨n, owner⟩, rfl⟩
  · rw [if_neg fun hc => hc.1 rfl]
    exact ⟨hl.refl, rfl⟩
  · rw [List.concat_eq_append] at *
    rw [List.append_assoc] at hl
    have hprev := hl.header
    have htotal : total (as ++ [⟨n, owner⟩]) = total as + n := by
      rw [total_append]
      rfl
    rw [lastPlace_snoc, Nat.zero_add, List.foldr_append, List.foldr_cons, List.foldr_nil,
      foldr_push hapart, htotal, List.append_assoc]
    cases owner with
    | some w =>
      rw [if_neg (by simp [hprev])]
      exact ⟨hl.refl, rfl⟩
    | none =>
      have hn := (hl.roomy ⟨n, none⟩ (by simp)).1
      have hle : firstFree 0 (as ++ [⟨n, none⟩]) ≤ 0 + total as := firstFree_le_of_free rfl 0 as []
      have hnext := hl.header_next
      rw [minBlock_eq] at hn
      dsimp only at hn hnext
      have hne : total as ≠ total as + n := by omega
      have hlow : h.lfree ≠ total as + n := by omega
      rw [if_pos ⟨hne, by rw [hprev]; rfl⟩, if_neg hlow,
        structMem_setNext_of_apart _ _ (.inl (by omega)), hnext]
      exact ⟨hl.join, rfl⟩

/-! ## The functions -/

/-- **The heap is in order**: its headers are those of a tiling, and `lfree` is the first free
block. -/
structure Holds (h : MemHeap) (bs : List (Block Nat)) : Prop where
  linked : Linked h.ram bs
  tiled : Tiled minBlock memNeed bs
  lfree : h.lfree = firstFree 0 bs

theorem Holds.pos {h : MemHeap} (hh : Holds h bs) : ∀ b ∈ bs, 0 < b.size :=
  hh.tiled.pos (by decide)

/-- `mem_init` leaves one free block. -/
theorem holds_memInit (ram : Mem) : Holds (memInit ram) [⟨memSizeAligned, none⟩] := by
  have hlt : memSizeAligned < 65536 := by decide
  have hapart : memSizeAligned + 6 ≤ 0 ∨ 0 + 6 ≤ memSizeAligned := by decide
  have hlarge : minBlock ≤ memSizeAligned := by decide
  refine ⟨⟨⟨?_, trivial⟩, rfl, ?_, ?_⟩, ⟨?_, ?_, List.IsChain.singleton _⟩, rfl⟩
  · rw [memInit, structMem_setPrev_of_apart _ _ hapart, structMem_setNext_of_apart _ _ hapart,
      structMem_setUsed_of_apart _ _ hapart, structMem_setUsed, structMem_setPrev _ _ (by decide),
      structMem_setNext _ _ hlt]
    rfl
  · rw [memInit, structMem_setPrev _ _ hlt, structMem_setNext _ _ hlt, structMem_setUsed]
  · exact List.forall_mem_singleton.mpr ⟨hlarge, by simp⟩
  · exact List.forall_mem_singleton.mpr hlarge
  · exact List.forall_mem_singleton.mpr (by simp)

theorem Linked.memLinkValid (h : Linked ram (as ++ b :: bs)) :
    memLinkValid ram (total as) = true := by
  obtain ⟨hs, hend⟩ := h.size_le
  have hback : lastPlace 0 0 as ≤ total as ∧
      (lastPlace 0 0 as = total as ∨ (structMem ram (lastPlace 0 0 as)).next = total as) := by
    rcases List.eq_nil_or_concat as with rfl | ⟨as, c, rfl⟩
    · exact ⟨Nat.le_refl _, .inl rfl⟩
    · rw [List.concat_eq_append, List.append_assoc] at h
      rw [List.concat_eq_append, lastPlace_snoc, Nat.zero_add, total_append, h.header]
      exact ⟨Nat.le_add_right _ _, .inr rfl⟩
  have hnext : total as + b.size = memSizeAligned ∨
      (structMem ram (total as + b.size)).prev = total as := by
    cases bs with
    | nil => exact .inl hend
    | cons c bs =>
      rw [h.header_next]
      exact .inr rfl
  rw [Lwip.memLinkValid, h.header, decide_eq_true_eq, memSizeAligned_eq]
  rw [memSizeAligned_eq] at hnext
  dsimp only
  omega

/-- **`mem_free`** frees the block of an allocation. -/
theorem Holds.memFree {h : MemHeap} (hh : Holds h bs) {x : Nat × Nat} (hx : x ∈ held 0 bs) :
    Holds (memFree (some (x.1 + sizeofStructMem)) h) (release x.1 0 bs) ∧
      Edit h.ram (memFree (some (x.1 + sizeofStructMem)) h).ram bs (release x.1 0 bs) := by
  obtain ⟨as, s, cs, rfl, hat⟩ := split_of_mem_held hx
  rw [Nat.zero_add] at hat
  have hl := hh.linked
  obtain ⟨hs, hend⟩ := hl.size_le
  have hpos : ∀ a ∈ as, 0 < a.size := fun a ha => hh.pos a (List.mem_append_left _ ha)
  have hapart : as.IsChain Apart := hh.tiled.apart.left_of_append
  dsimp only at hs hend
  -- the program passes its checks
  have hrun : memFree (some (x.1 + sizeofStructMem)) h =
      plugHoles (total as) ⟨setUsed h.ram (total as) false, firstFree 0 as⟩ := by
    have hlow : (if total as < h.lfree then total as else h.lfree) = firstFree 0 as := by
      rw [hh.lfree, ← min_firstFree_append hpos 0 (⟨s, some x.2⟩ :: cs), Nat.zero_add]
      split <;> omega
    rw [hat, Lwip.memFree, Nat.add_sub_cancel, if_neg (by rw [memAlignment, Nat.mod_one]; simp),
      if_neg (by simp only [sizeofStructMem_eq, minSizeAligned_eq, memSizeAligned_eq]; omega),
      hl.header, hl.memLinkValid, hlow]
    rfl
  -- the block is marked and joined with its neighbours
  have hmark : Edit h.ram (setUsed h.ram (total as) false) (as ++ ⟨s, some x.2⟩ :: cs)
      (as ++ ⟨s, none⟩ :: cs) := hl.markUsed (w := none) (by simp)
  obtain ⟨hforward, hlow⟩ := Linked.plugForward
    (h := ⟨setUsed h.ram (total as) false, firstFree 0 as⟩) hmark.linked
    (by simpa using firstFree_le_total 0 as)
  obtain ⟨s', cs', hpush⟩ := push_free_eq_cons s cs
  rw [hpush] at hforward
  obtain ⟨hbackward, hlow'⟩ := Linked.plugBackward hforward.linked hapart hlow
  have hrelease : release x.1 0 (as ++ ⟨s, some x.2⟩ :: cs) =
      as.foldr push (⟨s', none⟩ :: cs') := by
    rw [hat, ← hpush, ← release_append (o := 0) (b := ⟨s, some x.2⟩) hpos, Nat.zero_add]
  have hedit : Edit h.ram (Lwip.memFree (some (x.1 + sizeofStructMem)) h).ram
      (as ++ ⟨s, some x.2⟩ :: cs) (release x.1 0 (as ++ ⟨s, some x.2⟩ :: cs)) := by
    rw [hrun, hrelease]
    refine (hmark.trans hforward ?_).trans hbackward (held_foldr_push 0 as _)
    rw [← hpush, held_append, held_append, held_push]
  refine ⟨⟨hedit.linked, hh.tiled.release _ _, ?_⟩, hedit⟩
  have hfirst : firstFree 0 (release (0 + total as) 0 (as ++ ⟨s, some x.2⟩ :: cs)) =
      firstFree 0 as := firstFree_release hpos 0
  rw [Nat.zero_add] at hfirst
  rw [hrun, hat, hfirst]
  exact hlow'.trans hlow

/-! ## Taking -/

/-- **The block that was found is taken.** -/
theorem Linked.take {v : Nat} (h : Linked ram (as ++ ⟨s, none⟩ :: bs)) (hneed : memNeed v ≤ s)
    (hapart : ∀ c ∈ bs.head?, Apart ⟨s, none⟩ c) :
    Edit ram (take (expandSize v) (total as) ram) (as ++ ⟨s, none⟩ :: bs)
      (as ++ cut minBlock memNeed v ⟨s, none⟩ bs) := by
  obtain ⟨hs, hend⟩ := h.size_le
  have hheader := h.header
  dsimp only at hs hend hheader
  have hlarge := minBlock_le_memNeed v
  rw [minBlock_eq] at hlarge
  have hsize : total as + sizeofStructMem + expandSize v = total as + memNeed v := by
    rw [memNeed, Nat.add_assoc]
  have hroom : userSize ram (total as) ≥ expandSize v + sizeofStructMem + minSizeAligned ↔
      memNeed v + minBlock ≤ s := by
    rw [userSize_eq hheader hs (by omega), memNeed, minBlock, sizeofStructMem_eq,
      minSizeAligned_eq]
    omega
  unfold Lwip.take cut
  simp only [hroom]
  split
  · rename_i hcut
    rw [minBlock_eq] at hcut
    have hfree : push ⟨s - memNeed v, none⟩ bs = ⟨s - memNeed v, none⟩ :: bs :=
      push_of_apart fun c hc => .inr ((hapart c hc).resolve_left Bool.false_ne_true)
    have hplace : (total as + sizeofStructMem + expandSize v) % 2 ^ 16 = total as + memNeed v := by
      rw [hsize, Nat.mod_eq_of_lt (by omega)]
    have hin : total as + 6 ≤ total as + memNeed v := by omega
    have hlt : total as + memNeed v < 65536 := by omega
    have hbehind : structMem (setUsed (putBehind ram (total as) (total as + memNeed v)
        (total as + s)) (total as) true) (total as + memNeed v) =
          ⟨total as + s, total as, false⟩ := by
      rw [structMem_setUsed_of_apart _ _ (.inl hin),
        structMem_putBehind_behind hin _ hlt (by omega)]
    rw [hfree, hplace, hheader, hbehind]
    refine Linked.split [⟨s, none⟩] h rfl hlarge hcut ?_
      (fun a ha => ?_) ?_ hbehind
    · rintro _ ⟨⟩
      exact Nat.le_refl _
    · rw [setUsed_outside _ _ (by omega), putBehind_outside hin _ (by omega)]
    · rw [structMem_setUsed, structMem_putBehind_front hin _ hlt, hheader]
      rfl
  · refine h.markUsed (w := some v) ?_
    rintro _ ⟨⟩
    exact hneed

/-- `mem_malloc` on a list of blocks. -/
def arenaMalloc (size : Nat) (bs : List (Block Nat)) : Option Nat × List (Block Nat) :=
  if size = 0 ∨ memSizeAligned < size then (none, bs)
  else
    match alloc minBlock memNeed size 0 bs with
    | none => (none, bs)
    | some (t, bs') => (some (t + sizeofStructMem), bs')

/-- `mem_trim` on a list of blocks. -/
def arenaTrim (p newSize : Nat) (bs : List (Block Nat)) : Option Nat × List (Block Nat) :=
  if memSizeAligned < newSize then (none, bs)
  else
    match shrink minBlock memNeed newSize (p - sizeofStructMem) 0 bs with
    | none => (none, bs)
    | some bs' => (some p, bs')

theorem expandSize_large (size : Nat) :
    (expandSize size > memSizeAligned ∨ expandSize size < size) ↔ memSizeAligned < size := by
  rw [expandSize_eq, memSizeAligned_eq]
  omega

/-- **`mem_malloc`** takes the first block that fits. -/
theorem Holds.memMalloc {h : MemHeap} (hh : Holds h bs) (size : Nat) :
    ∃ h', memMalloc size h = some ((arenaMalloc size bs).1, h') ∧
      Holds h' (arenaMalloc size bs).2 ∧ Edit h.ram h'.ram bs (arenaMalloc size bs).2 := by
  have hl := hh.linked
  have hsame : ∃ h', some (none, h) = some ((none : Option Nat), h') ∧ Holds h' bs ∧
      Edit h.ram h'.ram bs bs := ⟨h, rfl, hh, hl.refl⟩
  unfold Lwip.memMalloc arenaMalloc
  by_cases hzero : size = 0
  · rw [if_pos hzero, if_pos (.inl hzero)]
    exact hsame
  by_cases hlarge : memSizeAligned < size
  · rw [if_neg hzero, if_pos ((expandSize_large size).mpr hlarge), if_pos (.inr hlarge)]
    exact hsame
  rw [if_neg hzero, if_neg fun hc => hlarge ((expandSize_large size).mp hc),
    if_neg fun hc => hc.elim hzero hlarge]
  -- the search begins at the first free block
  have hsearch : search (expandSize size) h.ram (memSizeAligned + 1) h.lfree =
      some ((alloc minBlock memNeed size 0 bs).map Prod.fst) := by
    obtain ⟨us, rest, rfl, hfirst, hused, -⟩ := firstFree_split 0 bs
    obtain ⟨hseg, hroomy, hend⟩ := hl.suffix
    have hlength := length_le_total hroomy
    rw [hh.lfree, hfirst, alloc_append hused, Nat.zero_add]
    refine hseg.search_eq hroomy hend ?_ (by omega)
    exact Nat.le_of_not_lt fun hc => hlarge ((expandSize_large size).mp (.inl hc))
  rw [hsearch, Option.bind_some]
  cases halloc : alloc minBlock memNeed size 0 bs with
  | none => exact hsame
  | some x =>
    obtain ⟨t, bs'⟩ := x
    have htiled := hh.tiled.alloc (by decide) (minBlock_le_memNeed size) halloc
    obtain ⟨as, ⟨s, owner⟩, cs, rfl, rfl, -, ⟨hfree, hneed⟩, rfl⟩ := alloc_eq_some halloc
    obtain rfl : owner = none := hfree
    have hpos : ∀ a ∈ as, 0 < a.size := fun a ha => hh.pos a (List.mem_append_left _ ha)
    have hedit := hl.take hneed (tiled_cons.mp hh.tiled.right).1.2.2
    dsimp only [Option.map_some]
    rw [Nat.zero_add]
    rcases firstFree_append_cases hpos 0 with hall | ⟨f, hf, hall⟩
    · have hlow : total as = h.lfree := by
        rw [hh.lfree, hall, Nat.zero_add]
        rfl
      obtain ⟨hseg, hroomy, hend⟩ := hedit.linked.suffix
      have hlength := length_le_total hroomy
      rw [← hlow, if_pos rfl, hseg.nextFree_eq hroomy hend (by omega)]
      refine ⟨_, rfl, ⟨hedit.linked, htiled, ?_⟩, hedit⟩
      rw [hall, Nat.zero_add]
    · have hlow : total as ≠ h.lfree := by
        rw [hh.lfree, hall]
        omega
      rw [if_neg hlow]
      refine ⟨_, rfl, ⟨hedit.linked, htiled, ?_⟩, hedit⟩
      rw [hh.lfree, hall, hall]

/-! ## Shrinking -/

/-- **The end of an allocation becomes a free block**, with what is free behind it. -/
theorem Holds.divide {h : MemHeap} {v m lfree : Nat} (ms : List (Block Nat))
    (hh : Holds h (as ++ (ms ++ bs))) (hs : total ms = m) (hroom : memNeed v + 18 ≤ m)
    (hne : ms.head?.any fun b => b.owner.isSome)
    (htiled : Tiled minBlock memNeed (as ++ ⟨memNeed v, some v⟩ :: ⟨m - memNeed v, none⟩ :: bs))
    (hlow : lfree = firstFree 0 (as ++ ⟨memNeed v, some v⟩ :: ⟨m - memNeed v, none⟩ :: bs))
    (hram : ram = putBehind h.ram (total as) (total as + memNeed v) (total as + m)) :
    Holds ⟨linkBack ram (structMem ram (total as + memNeed v)).next (total as + memNeed v), lfree⟩
        (as ++ ⟨memNeed v, some v⟩ :: ⟨m - memNeed v, none⟩ :: bs) ∧
      Edit h.ram (linkBack ram (structMem ram (total as + memNeed v)).next (total as + memNeed v))
        (as ++ (ms ++ bs)) (as ++ ⟨memNeed v, some v⟩ :: ⟨m - memNeed v, none⟩ :: bs) := by
  have hl := hh.linked
  have hwhole := hl.whole
  have hlarge := minBlock_le_memNeed v
  rw [minBlock_eq] at hlarge
  rw [total_append, total_append, hs, memSizeAligned_eq] at hwhole
  have hin : total as + 6 ≤ total as + memNeed v := by omega
  have hlt : total as + memNeed v < 65536 := by omega
  have hbehind : structMem ram (total as + memNeed v) = ⟨total as + m, total as, false⟩ := by
    rw [hram]
    exact structMem_putBehind_behind hin h.ram hlt (by omega)
  have hedit := hl.split (v := some v) (s := m) (n := memNeed v) ms hs hlarge hroom ?_
    (fun a ha => ?_) ?_ hbehind
  · rw [hbehind]
    exact ⟨⟨hedit.linked, htiled, hlow⟩, hedit⟩
  · rintro _ ⟨⟩
    exact Nat.le_refl _
  · rw [hram]
    exact putBehind_outside hin h.ram (by omega)
  · rw [hram, structMem_putBehind_front hin _ hlt]
    cases ms with
    | nil => cases hne
    | cons b ms =>
      have hl' : Linked h.ram (as ++ b :: (ms ++ bs)) := hl
      have hb : b.owner.isSome = true := hne
      rw [hl'.header, hb]
      rfl

theorem Linked.used_next (h : Linked ram (as ++ b :: bs)) :
    (structMem ram (total as + b.size)).used = bs.head?.all fun c => c.owner.isSome := by
  cases bs with
  | nil =>
    have hend : total as + b.size = memSizeAligned := h.size_le.2
    rw [hend, h.ramEnd]
    rfl
  | cons c bs =>
    rw [h.header_next]
    rfl

/-- The block stays as it is, and has another owner. -/
theorem Holds.retag {h : MemHeap} {v w : Nat} (hh : Holds h (as ++ ⟨s, some w⟩ :: bs))
    (hfit : memNeed v ≤ s)
    (htiled : Tiled minBlock memNeed (as ++ shrunk minBlock memNeed v ⟨s, some w⟩ bs))
    (hshrunk : shrunk minBlock memNeed v ⟨s, some w⟩ bs = ⟨s, some v⟩ :: bs) :
    Holds h (as ++ shrunk minBlock memNeed v ⟨s, some w⟩ bs) ∧
      Edit h.ram h.ram (as ++ ⟨s, some w⟩ :: bs)
        (as ++ shrunk minBlock memNeed v ⟨s, some w⟩ bs) := by
  have hpos : ∀ a ∈ as, 0 < a.size := fun a ha => hh.pos a (List.mem_append_left _ ha)
  rw [hshrunk] at htiled ⊢
  have hedit := hh.linked.retag hfit
  exact ⟨⟨hedit.linked, htiled, hh.lfree.trans (firstFree_retag hpos s 0 w v)⟩, hedit⟩

theorem exists_free_head (h : ¬∀ c ∈ bs.head?, c.owner.isSome) :
    ∃ n cs, bs = ⟨n, none⟩ :: cs := by
  cases bs with
  | nil => exact absurd (by simp) h
  | cons c cs =>
    obtain ⟨n, owner⟩ := c
    cases owner with
    | none => exact ⟨n, cs, rfl⟩
    | some u => exact absurd (by simp) h

/-- **`mem_trim`** shrinks the block of an allocation, or refuses to let it grow. -/
theorem Holds.memTrim {h : MemHeap} (hh : Holds h bs) {x : Nat × Nat} (hx : x ∈ held 0 bs)
    (newSize : Nat) :
    (memTrim (x.1 + sizeofStructMem) newSize h).1 =
        (arenaTrim (x.1 + sizeofStructMem) newSize bs).1 ∧
      Holds (memTrim (x.1 + sizeofStructMem) newSize h).2
        (arenaTrim (x.1 + sizeofStructMem) newSize bs).2 ∧
      Edit h.ram (memTrim (x.1 + sizeofStructMem) newSize h).2.ram bs
        (arenaTrim (x.1 + sizeofStructMem) newSize bs).2 := by
  obtain ⟨as, s, cs, rfl, hat⟩ := split_of_mem_held hx
  obtain ⟨t, w⟩ := x
  rw [Nat.zero_add] at hat
  dsimp only at hat
  have hl := hh.linked
  obtain ⟨hs, hend⟩ := hl.size_le
  have hheader := hl.header
  have hnext := hl.used_next
  have hpos : ∀ a ∈ as, 0 < a.size := fun a ha => hh.pos a (List.mem_append_left _ ha)
  have hshrink : shrink minBlock memNeed newSize (0 + total as) 0 (as ++ ⟨s, some w⟩ :: cs) =
      if memNeed newSize ≤ s then some (as ++ shrunk minBlock memNeed newSize ⟨s, some w⟩ cs)
      else none := shrink_append hpos
  have hlarge := minBlock_le_memNeed newSize
  rw [Nat.zero_add] at hshrink
  rw [minBlock_eq] at hlarge
  dsimp only at hs hend hheader hnext hshrink
  have hneed : memNeed newSize = 6 + expandSize newSize := rfl
  have hsize : ((total as + s + 2 ^ 16 - total as) % 2 ^ 16 + 2 ^ 16 - sizeofStructMem) % 2 ^ 16 =
      s - 6 := by
    rw [sizeofStructMem_eq]
    omega
  have hin : ¬total as + sizeofStructMem ≥ memSizeAligned := by
    rw [sizeofStructMem_eq, memSizeAligned_eq]
    omega
  unfold Lwip.memTrim arenaTrim
  simp only [expandSize_large, hat, Nat.add_sub_cancel, hheader, hshrink, hsize]
  by_cases hbig : memSizeAligned < newSize
  · simp only [if_pos hbig]
    exact ⟨trivial, hh, hl.refl⟩
  simp only [if_neg hbig, if_neg hin]
  by_cases hfit : memNeed newSize ≤ s
  swap
  · have hgrow : expandSize newSize > s - 6 := by omega
    simp only [if_pos hgrow, if_neg hfit]
    exact ⟨trivial, hh, hl.refl⟩
  have hgrow : ¬expandSize newSize > s - 6 := by omega
  have htiled := hh.tiled.shrink (by decide) (minBlock_le_memNeed newSize) hfit
  simp only [if_neg hgrow, if_pos hfit]
  by_cases hexact : expandSize newSize = s - 6
  · have hshrunk : shrunk minBlock memNeed newSize ⟨s, some w⟩ cs = ⟨s, some newSize⟩ :: cs :=
      shrunk_of_eq (by decide) (by dsimp only; omega)
    simp only [if_pos hexact]
    exact ⟨trivial, hh.retag hfit htiled hshrunk⟩
  simp only [if_neg hexact]
  have hplace : (total as + sizeofStructMem + expandSize newSize) % 2 ^ 16 =
      total as + memNeed newSize := by
    rw [hneed, sizeofStructMem_eq]
    omega
  rw [hplace]
  by_cases hfree : ∀ c ∈ cs.head?, c.owner.isSome
  · -- the block behind is used
    have hused : (structMem h.ram (total as + s)).used = true := by
      rw [hnext]
      cases cs with
      | nil => rfl
      | cons c cs => exact hfree c rfl
    have hshrunk : shrunk minBlock memNeed newSize ⟨s, some w⟩ cs =
        cut minBlock memNeed newSize ⟨s, some w⟩ cs := shrunk_of_held hfree
    simp only [hused, Bool.true_eq_false, if_false]
    by_cases hroom : expandSize newSize + sizeofStructMem + minSizeAligned ≤ s - 6
    · have hcut : memNeed newSize + 18 ≤ s := by
        rw [sizeofStructMem_eq, minSizeAligned_eq] at hroom
        omega
      have hpush : push ⟨s - memNeed newSize, none⟩ cs = ⟨s - memNeed newSize, none⟩ :: cs :=
        push_of_apart fun c hc => .inr (hfree c hc)
      have hdivided : shrunk minBlock memNeed newSize ⟨s, some w⟩ cs =
          ⟨memNeed newSize, some newSize⟩ :: ⟨s - memNeed newSize, none⟩ :: cs := by
        rw [hshrunk, cut, ← hpush]
        exact if_pos hcut
      rw [hdivided] at htiled ⊢
      simp only [if_pos hroom]
      refine ⟨trivial, Holds.divide [⟨s, some w⟩] hh rfl hcut rfl htiled ?_ rfl⟩
      rw [firstFree_divide hpos hfit _ 0 newSize w, ← hh.lfree, Nat.zero_add]
      split <;> omega
    · have hcut : ¬memNeed newSize + minBlock ≤ s := by
        rw [sizeofStructMem_eq, minSizeAligned_eq] at hroom
        rw [minBlock_eq]
        omega
      simp only [if_neg hroom]
      refine ⟨trivial, hh.retag hfit htiled ?_⟩
      rw [hshrunk, cut, if_neg hcut]
  · -- the block behind is free
    obtain ⟨n, cs, rfl⟩ := exists_free_head hfree
    have hn := (hl.roomy ⟨n, none⟩ (by simp)).1
    have hbehind := hl.header_next
    rw [minBlock_eq] at hn
    dsimp only at hn hbehind
    have hsum : total [(⟨s, some w⟩ : Block Nat), ⟨n, none⟩] = s + n := by
      simp only [total_cons, total_nil, Nat.add_zero]
    have hleft : s - memNeed newSize + n = s + n - memNeed newSize := by omega
    rw [shrunk, hleft] at htiled ⊢
    simp only [hbehind, Option.isSome_none, if_true]
    refine ⟨trivial, Holds.divide [⟨s, some w⟩, ⟨n, none⟩] hh hsum (by omega) rfl htiled ?_ ?_⟩
    · rw [firstFree_move hpos _ _ n 0 newSize w, ← hh.lfree, Nat.zero_add]
    · rw [Nat.add_assoc]

/-! ## Storing -/

/-- What an owner stores leaves the heap in order. -/
theorem Holds.congr {h : MemHeap} (hh : Holds h bs) (hsame : ∀ a, ¬Owned 0 bs a → ram a = h.ram a) :
    Holds { h with ram := ram } bs := ⟨hh.linked.congr hsame, hh.tiled, hh.lfree⟩

theorem held_arenaMalloc {size p : Nat} (h : (arenaMalloc size bs).1 = some p) :
    ∃ t, p = t + 6 ∧ (held 0 (arenaMalloc size bs).2).Perm ((t, size) :: held 0 bs) := by
  unfold arenaMalloc at h ⊢
  split at h
  · cases h
  · rename_i hsize
    rw [if_neg hsize]
    cases halloc : alloc minBlock memNeed size 0 bs with
    | none =>
      rw [halloc] at h
      cases h
    | some x =>
      rw [halloc] at h
      obtain ⟨t, bs'⟩ := x
      exact ⟨t, (Option.some.inj h).symm, held_alloc halloc⟩

/-- **`mem_calloc`** takes a block, unless the size overflows, and clears it. -/
theorem Holds.memCalloc {h : MemHeap} (hh : Holds h bs) (count size : Nat) :
    ∃ h', memCalloc count size h = some ((arenaMalloc (count * size) bs).1, h') ∧
      Holds h' (arenaMalloc (count * size) bs).2 ∧
      (∀ a, Owned 0 bs a → Owned 0 (arenaMalloc (count * size) bs).2 a → h'.ram a = h.ram a) ∧
      ∀ p ∈ (arenaMalloc (count * size) bs).1, ∀ k < count * size, h'.ram (p + k) = 0 := by
  unfold Lwip.memCalloc
  by_cases hlarge : count * size % 2 ^ 16 ≠ count * size
  · have harena : arenaMalloc (count * size) bs = (none, bs) := by
      rw [arenaMalloc, if_pos (.inr (by rw [memSizeAligned_eq]; omega))]
    rw [if_pos hlarge, harena]
    refine ⟨h, rfl, hh, fun _ _ _ => rfl, ?_⟩
    rintro _ ⟨⟩
  rw [if_neg hlarge]
  obtain ⟨h', hrun, hh', hedit⟩ := hh.memMalloc (count * size)
  rw [hrun, Option.map_some]
  cases hp : (arenaMalloc (count * size) bs).1 with
  | none =>
    refine ⟨h', rfl, hh', hedit.same, ?_⟩
    rintro _ ⟨⟩
  | some p =>
    obtain ⟨t, rfl, hheld⟩ := held_arenaMalloc hp
    have hneed : 6 + count * size ≤ memNeed (count * size) := by
      rw [memNeed_eq]
      omega
    have hclear := List.pairwise_cons.mp (hh'.tiled.apart_of_perm hheld)
    refine ⟨_, rfl, hh'.congr fun a hown => memcpy_outside _ _ ?_, fun a hbefore hafter => ?_, ?_⟩
    · by_contra hin
      refine hown ⟨(t, count * size), hheld.mem_iff.mpr List.mem_cons_self, ?_⟩
      rw [sizeofStructMem_eq]
      dsimp only
      omega
    · rw [← hedit.same a hbefore hafter]
      obtain ⟨x, hx, hlo, hhi⟩ := hbefore
      rw [sizeofStructMem_eq] at hlo
      have happart := hclear.1 x hx
      dsimp only at happart
      have hcopy : memcpy h'.ram (t + 6) (fun _ => 0) (count * size) a = h'.ram a :=
        memcpy_outside _ _ (by omega)
      exact hcopy
    · rintro _ ⟨⟩ k hk
      exact memcpy_inside h'.ram (t + 6) (fun _ => 0) hk

end MqttDevice.Lwip
