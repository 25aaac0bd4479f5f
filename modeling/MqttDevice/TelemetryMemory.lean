import MqttDevice.CJson.Heap
import MqttDevice.CJson.PrintMemory
import MqttDevice.Uplink

/-!
# Telemetry when memory runs out (`joson_create_uav_data_send`)

One call with every request for memory that it makes, in its order; `ok` says which of
them are granted, the first one being number 0.

* `RootState`: the tree that has been built, and the blocks that nothing leads to;
* `rootState_addSection`: an object whose name finds no memory is lost;
* `josonCreateUavDataSendMem_safe_iff`: when the call passes on no null pointer and gives
  everything back;
* `josonCreateUavDataSendMem_granted`: with all the memory it asks for, what it publishes.
-/

namespace MqttDevice.Telemetry

open MqttDevice.Ascii MqttDevice.Binary64 MqttDevice.CJson MqttDevice.Command
open MqttDevice.Blocks MqttDevice.Blocks.Heap

/-! ## The program -/

/-- A section of the message: its name and its numbers. -/
abbrev Sec := List Byte × List (List Byte × Double)

section Program

variable (ok : Nat → Bool)

/-- `cJSON_AddItemToObject(root, name, object = cJSON_CreateObject())`, and the numbers for
the object. No result is looked at. -/
def addSection (root : Option Nat) (name : List Byte) (numbers : List (List Byte × Double))
    (h : Heap Node) : Heap Node :=
  let (object, h) := cJsonCreateObject ok h
  let (_, h) := cJsonAddItemToObject ok root name object h
  addNumbers ok object numbers h

/-- What a call leaves, the pointers that it passed to `strlen` and `mqtt_publish`, and the text
behind them. -/
structure Call where
  heap : Heap Node
  strlenArg : Option Nat
  publishArg : Option Nat
  payload : Option (List Byte)

/-- `head` with the static variables counted up, and `data`. -/
def headSec (s : Statics) : Sec :=
  (str "head", headNumbers { msgNum := s.msgNum + 1, timestamp := s.timestamp + 1000 })

def dataSec (cmd : MqttCmd) (rand : Nat) : Sec := (str "data", dataNumbers cmd (rand % 30 : Nat))

def josonCreateUavDataSendMem (s : Statics) (cmd : MqttCmd) (rand : Nat) : Call :=
  let (root, h) := cJsonCreateObject ok (Heap.start zeroNode)
  let h := addSection ok root (headSec s).1 (headSec s).2 h
  let h := addSection ok root (dataSec cmd rand).1 (dataSec cmd rand).2 h
  let (printed, h) := cJsonPrintMem ok (root.map (itemAt h (depthBound h))) h
  -- `mqtt_publish_data` comes before the test for a null pointer
  let pubPayload := printed.map Prod.fst
  let h := h.freeOption pubPayload
  ⟨cJsonDelete root h, pubPayload, pubPayload, printed.map Prod.snd⟩

end Program

/-- No null pointer is passed on, and every block was given back exactly once. -/
structure Safe (c : Call) : Prop where
  strlenArg : c.strlenArg ≠ none
  publishArg : c.publishArg ≠ none
  freed : ∀ b < c.heap.blocks, c.heap.freed.count b = 1

/-! ## The tree while it is built -/

/-- The root `r` with the sections that it has got; `lost` are blocks that are held and
that nothing leads to. -/
structure RootState (h : Heap Node) (r : Nat) (secs : List (Placed × Sec)) (lost : List Nat) :
    Prop where
  root : h.cell r = { objectLeaf with child := secs.map fun x => x.1.node }
  holds : ∀ x ∈ secs, x.1.Holds h x.2.1 x.2.2
  held : h.Held (secs.flatMap (fun x => x.1.blocks) ++ r :: lost)

theorem RootState.lt {h : Heap Node} {r : Nat} {secs : List (Placed × Sec)} {lost : List Nat}
    (hs : RootState h r secs lost) : r < h.blocks :=
  hs.held.lt (by simp)

theorem RootState.congr {h h' : Heap Node} {r : Nat} {secs : List (Placed × Sec)}
    {lost lost' : List Nat} (hs : RootState h r secs lost)
    (hcell : ∀ b < h.blocks, h'.cell b = h.cell b)
    (hheld : h'.Held (secs.flatMap (fun x => x.1.blocks) ++ r :: lost')) :
    RootState h' r secs lost' where
  root := (hcell r hs.lt).trans hs.root
  holds x hx := (hs.holds x hx).congr fun b hb => hcell b
    (hs.held.lt (List.mem_append_left _ (List.mem_flatMap.mpr ⟨x, hx, hb⟩)))
  held := hheld

/-- The number of the next request after a section whose first request is number `k`. -/
def sectionEnd (ok : Nat → Bool) (k n : Nat) : Nat :=
  if ok k then afterNumbers ok true (k + 2) n else afterNumbers ok false (k + 1) n

def sectionMade (ok : Nat → Bool) (k : Nat) (sec : Sec) : List Sec :=
  if ok k && ok (k + 1) then [(sec.1, made ok (k + 2) sec.2)] else []

section Sections

variable {ok : Nat → Bool} {h : Heap Node} {r : Nat} {secs : List (Placed × Sec)}
  {lost : List Nat} (sec : Sec)

/-- How a section changes the tree: some sections more, and some lost blocks more. -/
structure Grown (ok : Nat → Bool) (h h' : Heap Node) (r : Nat) (secs : List (Placed × Sec))
    (lost : List Nat) (sec : Sec) : Prop where
  requests : h'.requests = sectionEnd ok h.requests sec.2.length
  state : ∃ new lost', RootState h' r (secs ++ new) (lost' ++ lost) ∧
    new.map Prod.snd = sectionMade ok h.requests sec ∧
    (lost' = [] ↔ (ok h.requests = true → ok (h.requests + 1) = true))

/-- There is no memory for the object. -/
theorem grown_absent (hs : RootState h r secs lost) (hok : ok h.requests = false) :
    Grown ok h (addSection ok (some r) sec.1 sec.2 h) r secs lost sec := by
  have hnums := @addNumbers_none ok sec.2 { h with requests := h.requests + 1 }
  obtain ⟨hreq, -, hcell, hheld⟩ := hnums
  have hsec : addSection ok (some r) sec.1 sec.2 h =
      addNumbers ok none sec.2 { h with requests := h.requests + 1 } := by
    rw [addSection, createObject_refused hok]
    rfl
  rw [hsec]
  refine ⟨?_, [], [], ?_, ?_, ?_⟩
  · rw [hreq, sectionEnd, hok]
    rfl
  · rw [List.append_nil, List.nil_append]
    exact hs.congr hcell (hheld _ (hs.held.congr rfl rfl))
  · rw [sectionMade, hok]
    rfl
  · simp [hok]

/-- There is no memory for the name of the object: it is filled and lost. -/
theorem grown_lost (hs : RootState h r secs lost) (hok : ok h.requests = true)
    (hno : ok (h.requests + 1) = false) :
    Grown ok h (addSection ok (some r) sec.1 sec.2 h) r secs lost sec := by
  let h₁ : Heap Node := { withNode h objectLeaf with requests := h.requests + 2 }
  have hadd := addItemToObject_refused (h := withNode h objectLeaf) sec.1 hs.lt.ne hno
  have hsec : addSection ok (some r) sec.1 sec.2 h = addNumbers ok (some h.blocks) sec.2 h₁ := by
    rw [addSection, createObject_granted hok]
    simp only [hadd]
    rfl
  have hfill := @addNumbers_some ok _ sec.2 h₁ (Nat.lt_succ_self h.blocks)
  obtain ⟨cs, -, -, -, hheld⟩ := hfill.members
  rw [hsec]
  refine ⟨?_, [], numberBlocks cs ++ [h.blocks], ?_, ?_, ?_⟩
  · rw [hfill.requests, sectionEnd, hok]
    rfl
  · rw [List.append_nil]
    refine hs.congr (fun b hb => ?_) ?_
    · exact (hfill.cell b (Nat.lt_succ_of_lt hb) hb.ne).trans (withNode_cell_of_lt h _ hb)
    · have hnode : h₁.Held (h.blocks :: (secs.flatMap (fun x => x.1.blocks) ++ r :: lost)) :=
        (withNode_held objectLeaf hs.held).congr rfl rfl
      have hmove := List.perm_append_comm_assoc (numberBlocks cs ++ [h.blocks])
        (secs.flatMap fun x => x.1.blocks) (r :: lost)
      refine (hheld _ hnode).perm ?_
      rw [List.append_cons]
      exact hmove.trans (List.perm_middle.append_left _)
  · rw [sectionMade, hok, hno]
    rfl
  · simp [hok, hno]

/-- The object gets its name: it is a section of the tree. -/
theorem grown_added (hs : RootState h r secs lost) (hok : ok h.requests = true)
    (hkey : ok (h.requests + 1) = true) :
    Grown ok h (addSection ok (some r) sec.1 sec.2 h) r secs lost sec := by
  let h₁ : Heap Node := attach (withNode h objectLeaf) r h.blocks sec.1
  have hleaf := withNode_cell_self h objectLeaf
  have hadd := addItemToObject_granted (h := withNode h objectLeaf) sec.1 hs.lt.ne hkey
    (by rw [hleaf]; rfl)
  have hsec : addSection ok (some r) sec.1 sec.2 h = addNumbers ok (some h.blocks) sec.2 h₁ := by
    rw [addSection, createObject_granted hok]
    simp only [hadd]
    rfl
  have hlt : h.blocks < h₁.blocks := Nat.lt_succ_of_lt (Nat.lt_succ_self h.blocks)
  have hfill := @addNumbers_some ok _ sec.2 h₁ hlt
  obtain ⟨cs, hobj, -, hnum, hheld⟩ := hfill.members
  have hframe : ∀ b < h.blocks, b ≠ r →
      (addNumbers ok (some h.blocks) sec.2 h₁).cell b = h.cell b := by
    intro b hb hbr
    have hbn : b ≠ h.blocks := hb.ne
    rw [hfill.cell b (hb.trans hlt) hbn, attach_cell_of_ne _ _ hbr hbn, withNode_cell_of_lt h _ hb]
  have hroot : (addNumbers ok (some h.blocks) sec.2 h₁).cell r =
      { h.cell r with child := (h.cell r).child ++ [h.blocks] } := by
    have hrn : r ≠ h.blocks := hs.lt.ne
    rw [hfill.cell r (hs.lt.trans hlt) hrn, attach_cell_object, withNode_cell_of_lt h _ hs.lt]
  rw [attach_cell_item _ _ hs.lt.ne, hleaf] at hobj
  rw [hsec]
  refine ⟨?_, [(⟨h.blocks, h.blocks + 1, cs⟩, sec.1, made ok (h.requests + 2) sec.2)], [],
    ⟨?_, ?_, ?_⟩,
    ?_, ?_⟩
  · rw [hfill.requests, sectionEnd, hok]
    rfl
  · rw [hroot, hs.root, List.map_append]
    rfl
  · intro x hx
    rcases List.mem_append.mp hx with hx | hx
    · refine (hs.holds x hx).congr fun b hb => ?_
      have hmem : b ∈ secs.flatMap fun x => x.1.blocks := List.mem_flatMap.mpr ⟨x, hx, hb⟩
      have hbr : b ≠ r := by
        rintro rfl
        exact (List.disjoint_of_nodup_append hs.held.nodup) hmem List.mem_cons_self
      exact hframe b (hs.held.lt (List.mem_append_left _ hmem)) hbr
    · rw [List.mem_singleton.mp hx]
      exact ⟨hobj, hnum⟩
  · have hname := attach_held r h.blocks sec.1 (withNode_held objectLeaf hs.held)
    have hmove := List.perm_append_comm_assoc (numberBlocks cs ++ [h.blocks + 1, h.blocks])
      (secs.flatMap fun x => x.1.blocks) (r :: lost)
    have hall := hheld _ hname
    rw [List.flatMap_append, List.append_assoc, List.flatMap_singleton, List.nil_append]
    refine hall.perm ?_
    rw [List.append_assoc] at hmove
    exact hmove
  · rw [sectionMade, hok, hkey]
    rfl
  · simp [hkey]

/-- **One section more**, with the memory there is. -/
theorem rootState_addSection (hs : RootState h r secs lost) :
    Grown ok h (addSection ok (some r) sec.1 sec.2 h) r secs lost sec := by
  cases hok : ok h.requests with
  | false => exact grown_absent sec hs hok
  | true =>
    cases hkey : ok (h.requests + 1) with
    | false => exact grown_lost sec hs hok hkey
    | true => exact grown_added sec hs hok hkey

end Sections

/-! ## The tree that is printed -/

/-- A message with the given sections. -/
def treeOf (secs : List Sec) : Item :=
  { createObject with
    child := secs.map fun sec => { numberObject sec.2 with string := some sec.1 } }

/-- A name without a zero byte, of at most 15 characters. -/
def ShortName (name : List Byte) : Prop :=
  cString name = name ∧ (printStringPtr (some name)).length ≤ 17

instance (name : List Byte) : Decidable (ShortName name) :=
  inferInstanceAs (Decidable (_ ∧ _))

/-- A section of at most 14 numbers with short names. -/
structure ShortSec (sec : Sec) : Prop where
  name : ShortName sec.1
  numbers : ∀ m ∈ sec.2, ShortName m.1
  few : sec.2.length ≤ 14

theorem made_sublist (ok : Nat → Bool) (k : Nat) (numbers : List (List Byte × Double)) :
    (made ok k numbers).Sublist numbers := by
  induction numbers generalizing k with
  | nil => exact .slnil
  | cons m ms ih =>
    rw [made]
    split
    · split
      · exact (ih _).cons_cons m
      · exact (ih _).cons m
    · exact (ih _).cons m

theorem ShortSec.made {sec : Sec} (h : ShortSec sec) (ok : Nat → Bool) (k : Nat) :
    ∀ sec' ∈ sectionMade ok k sec, ShortSec sec' := by
  intro sec' hmem
  rw [sectionMade] at hmem
  split at hmem
  · rw [List.mem_singleton.mp hmem]
    have hsub := made_sublist ok (k + 2) sec.2
    exact ⟨h.name, fun m hm => h.numbers m (hsub.subset hm), hsub.length_le.trans h.few⟩
  · cases hmem

theorem length_sectionMade_le (ok : Nat → Bool) (k : Nat) (sec : Sec) :
    (sectionMade ok k sec).length ≤ 1 := by
  rw [sectionMade]
  split <;> simp

theorem shortSec_head (s : Statics) : ShortSec (headSec s) where
  name := (by decide : ShortName (str "head"))
  numbers m hm := by
    have hnames : ∀ name ∈ headMembers, ShortName name := by decide +kernel
    exact hnames m.1 (headNumbers_names _ ▸ List.mem_map_of_mem hm)
  few := (by decide : 4 ≤ 14)

theorem shortSec_data (cmd : MqttCmd) (rand : Nat) : ShortSec (dataSec cmd rand) where
  name := (by decide : ShortName (str "data"))
  numbers m hm := by
    have hnames : ∀ name ∈ dataMembers, ShortName name := by decide +kernel
    exact hnames m.1 (dataNumbers_names cmd _ ▸ List.mem_map_of_mem hm)
  few := Nat.le_refl 14

theorem length_numberLines_short {numbers : List (List Byte × Double)}
    (h : ∀ m ∈ numbers, ShortName m.1) : (numberLines 2 numbers).length ≤ 48 * numbers.length := by
  induction numbers with
  | nil => exact Nat.le_refl 0
  | cons m ms ih =>
    obtain ⟨hm, hms⟩ := List.forall_mem_cons.mp h
    have hline := length_numberLine_le 2 m.1 m.2 ms.isEmpty
    have htext := length_numberText_le m.2
    have hname := hm.2
    have hrest := ih hms
    rw [numberLines, List.length_append, List.length_cons]
    omega

/-- The lines of a member with the ones that follow. -/
theorem length_member_le (name value rest : List Byte) (last : Bool) :
    (tabs 1 ++ printStringPtr (some name) ++ str ":\t" ++ value ++ (if last then [] else [ch ',']) ++
      [ch '\n'] ++ rest).length ≤
      (printStringPtr (some name)).length + value.length + rest.length + 5 := by
  have hcolon : (str ":\t").length = 2 := by decide
  have hsep : (if last then [] else [ch ',']).length ≤ 1 := by cases last <;> decide
  simp only [List.length_append, List.length_singleton, tabs, List.length_replicate, hcolon]
  omega

/-- Every tree that can be built is printed, and its text is short. -/
theorem print_treeOf {secs : List Sec} (h : ∀ sec ∈ secs, ShortSec sec) :
    ∃ text, cJsonPrint (treeOf secs) = some text ∧ text.length ≤ 700 * secs.length + 3 := by
  have hmembers : ∃ text, printMembers true 1 (treeOf secs).child = some text ∧
      text.length ≤ 700 * secs.length := by
    induction secs with
    | nil => exact ⟨[], rfl, Nat.le_refl 0⟩
    | cons sec secs ih =>
      obtain ⟨hsec, hsecs⟩ := List.forall_mem_cons.mp h
      obtain ⟨rest, hrest, hlen⟩ := ih hsecs
      have hvalue : printValue true 1 { numberObject sec.2 with string := some sec.1 } = some
          (str "\x7b\n" ++ numberLines 2 sec.2 ++ tabs 1 ++ str "\x7d") :=
        printValue_numberObject 1 sec.1 sec.2
      have hlines := length_numberLines_short hsec.numbers
      have hname := hsec.name.2
      have hfew := hsec.few
      have hopen : (str "\x7b\n").length = 2 := by decide
      have hclose : (str "\x7d").length = 1 := by decide
      have hbody : (str "\x7b\n" ++ numberLines 2 sec.2 ++ tabs 1 ++ str "\x7d").length ≤ 676 := by
        simp only [List.length_append, tabs, List.length_replicate, hopen, hclose]
        omega
      refine ⟨_, printMembers_cons hvalue hrest, (length_member_le _ _ _ _).trans ?_⟩
      rw [List.length_cons]
      omega
  obtain ⟨members, hprint, hlen⟩ := hmembers
  refine ⟨_, printValue_object rfl hprint, ?_⟩
  have hopen : (str "\x7b\n").length = 2 := by decide
  simp only [List.length_append, List.length_cons, List.length_nil, tabs, List.length_replicate,
    hopen]
  omega

/-! ## The whole call -/

theorem RootState.item {h : Heap Node} {r : Nat} {secs : List (Placed × Sec)} {lost : List Nat}
    (hs : RootState h r secs lost) (hshort : ∀ x ∈ secs, ShortSec x.2) (depth : Nat) :
    itemAt h (depth + 2) r = treeOf (secs.map Prod.snd) := by
  have hitems : (secs.map fun x => x.1.node).map (itemAt h (depth + 1)) =
      (secs.map Prod.snd).map fun sec => { numberObject sec.2 with string := some sec.1 } := by
    rw [List.map_map, List.map_map]
    refine List.map_congr_left fun x hx => ?_
    have hsec := hshort x hx
    exact (hs.holds x hx).item hsec.name.1 (fun m hm => (hsec.numbers m hm).1) depth
  rw [itemAt, hs.root]
  simp only [hitems]
  rfl

theorem RootState.footprint {h : Heap Node} {r : Nat} {secs : List (Placed × Sec)}
    {lost : List Nat} (hs : RootState h r secs lost) (depth : Nat) :
    CJson.footprint h.cell (depth + 3) r = secs.flatMap (fun x => x.1.blocks) ++ [r] := by
  have hblocks : (secs.map fun x => x.1.node).flatMap (CJson.footprint h.cell (depth + 2)) =
      secs.flatMap fun x => x.1.blocks := by
    rw [List.flatMap_map]
    exact List.flatMap_congr fun x hx => (hs.holds x hx).footprint depth
  rw [CJson.footprint, hs.root]
  simp only [hblocks]
  rfl

/-- The number of the first request for `data`. -/
def dataStart (ok : Nat → Bool) (s : Statics) : Nat := sectionEnd ok 1 (headSec s).2.length

/-- The number of the first request of `cJSON_Print`. -/
def printStart (ok : Nat → Bool) (s : Statics) (cmd : MqttCmd) (rand : Nat) : Nat :=
  sectionEnd ok (dataStart ok s) (dataSec cmd rand).2.length

/-- The tree of the members that find memory. -/
def builtTree (ok : Nat → Bool) (s : Statics) (cmd : MqttCmd) (rand : Nat) : Item :=
  treeOf (sectionMade ok 1 (headSec s) ++ sectionMade ok (dataStart ok s) (dataSec cmd rand))

/-- The root is granted, so are the names of `head` and `data` if their nodes are, and
every request of the print. -/
structure MemoryEnough (ok : Nat → Bool) (s : Statics) (cmd : MqttCmd) (rand : Nat) : Prop where
  root : ok 0 = true
  head : ok 1 = true → ok 2 = true
  data : ok (dataStart ok s) = true → ok (dataStart ok s + 1) = true
  print : ∀ i < printRequests (builtTree ok s cmd rand), ok (printStart ok s cmd rand + i) = true

/-- The end of a call: the tree is printed and deleted, and what was lost stays. -/
theorem finish_spec {ok : Nat → Bool} {h : Heap Node} {r : Nat} {secs : List (Placed × Sec)}
    {lost : List Nat} (hs : RootState h r secs lost) (hshort : ∀ x ∈ secs, ShortSec x.2)
    (hfew : secs.length ≤ 2) :
    let printed := cJsonPrintMem ok (some (itemAt h (depthBound h) r)) h
    (cJsonDelete (some r) (printed.2.freeOption (printed.1.map Prod.fst))).Held lost ∧
      (printed.1.map Prod.fst ≠ none ↔
        Granted ok h (printRequests (treeOf (secs.map Prod.snd)))) ∧
      (Granted ok h (printRequests (treeOf (secs.map Prod.snd))) →
        printed.1.map Prod.snd = cJsonPrint (treeOf (secs.map Prod.snd))) := by
  intro printed
  have hshort' : ∀ sec ∈ secs.map Prod.snd, ShortSec sec := by
    intro sec hsec
    obtain ⟨x, hx, rfl⟩ := List.mem_map.mp hsec
    exact hshort x hx
  obtain ⟨text, htext, hlen⟩ := print_treeOf hshort'
  rw [List.length_map] at hlen
  have hmax : intMaxNat = 2147483647 := rfl
  have hspec := @cJsonPrintMem_spec _ ok _ _ htext (by omega) h
  rw [← hs.item hshort (h.blocks + 1)] at hspec
  obtain ⟨hcell, hheld, hdone, hfailed⟩ := hspec
  have hafter := (hheld _ hs.held).freeOption
  have hcell' : (printed.2.freeOption (printed.1.map Prod.fst)).cell = h.cell := by
    rw [← hcell, freeOption_eq]
    rfl
  refine ⟨cJsonDelete_held ?_, ?_, ?_⟩
  · have hfoot := hs.footprint (printed.2.freeOption (printed.1.map Prod.fst)).blocks
    rw [hcell', depthBound, hfoot, List.append_assoc]
    exact hafter
  · rw [← hs.item hshort (h.blocks + 1)]
    constructor
    · intro hne
      by_contra hno
      exact hne (by rw [show printed.1 = none from hfailed hno]; rfl)
    · intro hg
      obtain ⟨b, hb⟩ := hdone hg
      rw [show printed.1 = some (b, text) from hb]
      exact Option.some_ne_none b
  · rw [← hs.item hshort (h.blocks + 1)]
    intro hg
    obtain ⟨b, hb⟩ := hdone hg
    rw [show printed.1 = some (b, text) from hb, hs.item hshort, htext]
    rfl

/-- Without a root there is no text. -/
theorem payload_of_not_root {ok : Nat → Bool} (hok : ok 0 = false) (s : Statics) (cmd : MqttCmd)
    (rand : Nat) : (josonCreateUavDataSendMem ok s cmd rand).strlenArg = none := by
  have hroot := createObject_refused (h := Heap.start zeroNode) hok
  rw [josonCreateUavDataSendMem, hroot]
  simp only [Option.map_none, (cJsonPrintMem_none _).1]

/-- A call whose root finds memory: what it loses, and when it has a text, and which. -/
theorem call_spec {ok : Nat → Bool} (hok : ok 0 = true) (s : Statics) (cmd : MqttCmd)
    (rand : Nat) :
    ∃ lost, (josonCreateUavDataSendMem ok s cmd rand).heap.Held lost ∧
      (lost = [] ↔ (ok 1 = true → ok 2 = true) ∧
        (ok (dataStart ok s) = true → ok (dataStart ok s + 1) = true)) ∧
      ((josonCreateUavDataSendMem ok s cmd rand).strlenArg ≠ none ↔
        ∀ i < printRequests (builtTree ok s cmd rand),
          ok (printStart ok s cmd rand + i) = true) ∧
      ((∀ i < printRequests (builtTree ok s cmd rand),
          ok (printStart ok s cmd rand + i) = true) →
        (josonCreateUavDataSendMem ok s cmd rand).payload =
          cJsonPrint (builtTree ok s cmd rand)) := by
  let h₀ : Heap Node := withNode (Heap.start zeroNode) objectLeaf
  have hroot : cJsonCreateObject ok (Heap.start zeroNode) = (some 0, h₀) :=
    createObject_granted hok
  have hs₀ : RootState h₀ 0 [] [] :=
    ⟨withNode_cell_self _ _, List.forall_mem_nil _,
      withNode_held objectLeaf (held_start zeroNode)⟩
  let h₁ := addSection ok (some 0) (headSec s).1 (headSec s).2 h₀
  have hhead : Grown ok h₀ h₁ 0 [] [] (headSec s) := rootState_addSection (headSec s) hs₀
  obtain ⟨hreq₁, new₁, lost₁, hs₁, hnew₁, hlost₁⟩ := hhead
  let h₂ := addSection ok (some 0) (dataSec cmd rand).1 (dataSec cmd rand).2 h₁
  have hdata : Grown ok h₁ h₂ 0 ([] ++ new₁) (lost₁ ++ []) (dataSec cmd rand) :=
    rootState_addSection (dataSec cmd rand) hs₁
  obtain ⟨hreq₂, new₂, lost₂, hs₂, hnew₂, hlost₂⟩ := hdata
  have hk₁ : h₁.requests = dataStart ok s := hreq₁
  have hk₂ : h₂.requests = printStart ok s cmd rand := by
    rw [printStart, ← hk₁]
    exact hreq₂
  rw [hk₁] at hnew₂ hlost₂
  have hsecs : ([] ++ new₁ ++ new₂).map Prod.snd =
      sectionMade ok 1 (headSec s) ++ sectionMade ok (dataStart ok s) (dataSec cmd rand) := by
    rw [List.nil_append, List.map_append, hnew₁, hnew₂]
    rfl
  have hshort : ∀ x ∈ [] ++ new₁ ++ new₂, ShortSec x.2 := by
    intro x hx
    have hmem := List.mem_map_of_mem (f := Prod.snd) hx
    rw [hsecs] at hmem
    rcases List.mem_append.mp hmem with hmem | hmem
    · exact (shortSec_head s).made ok 1 _ hmem
    · exact (shortSec_data cmd rand).made ok _ _ hmem
  have hfew : ([] ++ new₁ ++ new₂).length ≤ 2 := by
    have h₁le := length_sectionMade_le ok 1 (headSec s)
    have h₂le := length_sectionMade_le ok (dataStart ok s) (dataSec cmd rand)
    rw [← List.length_map (f := Prod.snd), hsecs, List.length_append]
    omega
  obtain ⟨hheld, hprint, hpayload⟩ := @finish_spec ok _ _ _ _ hs₂ hshort hfew
  have hcall : josonCreateUavDataSendMem ok s cmd rand =
      let printed := cJsonPrintMem ok (some (itemAt h₂ (depthBound h₂) 0)) h₂
      ⟨cJsonDelete (some 0) (printed.2.freeOption (printed.1.map Prod.fst)),
        printed.1.map Prod.fst, printed.1.map Prod.fst, printed.1.map Prod.snd⟩ := by
    rw [josonCreateUavDataSendMem, hroot]
    rfl
  rw [hcall]
  rw [hsecs, Granted, hk₂] at hprint hpayload
  refine ⟨lost₂ ++ (lost₁ ++ []), hheld, ?_, hprint, hpayload⟩
  · rw [List.append_nil, List.append_eq_nil_iff, hlost₂, hlost₁, and_comm]
    rfl

/-- **Telemetry under memory pressure, exactly.** -/
theorem josonCreateUavDataSendMem_safe_iff (ok : Nat → Bool) (s : Statics) (cmd : MqttCmd)
    (rand : Nat) :
    Safe (josonCreateUavDataSendMem ok s cmd rand) ↔ MemoryEnough ok s cmd rand := by
  cases hok : ok 0 with
  | false =>
    constructor
    · intro hsafe
      exact absurd (payload_of_not_root hok s cmd rand) hsafe.strlenArg
    · intro henough
      rw [henough.root] at hok
      cases hok
  | true =>
    obtain ⟨lost, hheld, hlost, htext, -⟩ := call_spec hok s cmd rand
    constructor
    · intro hsafe
      obtain ⟨hhead, hdata⟩ := hlost.mp ((count_freed_iff hheld).mp hsafe.freed)
      exact ⟨hok, hhead, hdata, htext.mp hsafe.strlenArg⟩
    · intro henough
      have htext' := htext.mpr henough.print
      have hnil := hlost.mpr ⟨henough.head, henough.data⟩
      exact ⟨htext', htext', (count_freed_iff hheld).mpr hnil⟩

/-- With no memory at all a null pointer goes to `strlen`; and when only the name of
`head` finds none, its object is never given back. -/
theorem telemetry_unsafe :
    (josonCreateUavDataSendMem (fun _ => false) {} ⟨0, 0, 0, 0⟩ 0).strlenArg = none ∧
      ¬ Safe (josonCreateUavDataSendMem (fun _ => false) {} ⟨0, 0, 0, 0⟩ 0) ∧
      ¬ Safe (josonCreateUavDataSendMem (fun k => k != 2) {} ⟨0, 0, 0, 0⟩ 0) := by
  have hnull := @payload_of_not_root (fun _ => false) rfl {} ⟨0, 0, 0, 0⟩ 0
  refine ⟨hnull, fun hsafe => hsafe.strlenArg hnull, fun hsafe => ?_⟩
  obtain ⟨lost, hheld, hlost, -, -⟩ := @call_spec (fun k => k != 2) rfl {} ⟨0, 0, 0, 0⟩ 0
  have hnil := (count_freed_iff hheld).mp hsafe.freed
  exact absurd ((hlost.mp hnil).1 rfl) (by decide)

/-! ## With all the memory it asks for -/

theorem made_all (k : Nat) (numbers : List (List Byte × Double)) :
    made (fun _ => true) k numbers = numbers := by
  induction numbers generalizing k with
  | nil => rfl
  | cons m ms ih =>
    rw [made, if_pos rfl, if_pos rfl, ih]

/-- Every member of the message is in the tree. -/
theorem builtTree_all (s : Statics) (cmd : MqttCmd) (rand : Nat) :
    builtTree (fun _ => true) s cmd rand =
      uavRoot { msgNum := s.msgNum + 1, timestamp := s.timestamp + 1000 } cmd
        (rand % 30 : Nat) := by
  simp only [builtTree, sectionMade, made_all, Bool.and_self, if_true]
  rfl

/-- **The call with memory is the call without**: when every request is granted, what it
publishes is the text of `josonCreateUavDataSend`. -/
theorem josonCreateUavDataSendMem_granted (s : Statics) (cmd : MqttCmd) (rand : Nat) :
    (josonCreateUavDataSendMem (fun _ => true) s cmd rand).payload =
      (josonCreateUavDataSend s cmd rand).2 := by
  obtain ⟨-, -, -, -, hpayload⟩ := @call_spec (fun _ => true) rfl s cmd rand
  rw [hpayload fun _ _ => rfl, builtTree_all, Int.natCast_mod]
  rfl

end MqttDevice.Telemetry
