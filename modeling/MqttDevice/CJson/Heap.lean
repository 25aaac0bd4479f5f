import MqttDevice.CJson.Print
import MqttDevice.Lib.Blocks

/-!
# cJSON in memory (`cJSON.c`)

The functions that build, delete and print a tree, with every request for memory. `ok`
says which requests are granted; a pointer is the number of a block, `none` where it is
null. No flag of `type` is ever set, and the hooks are `malloc`, `free` and `realloc`.

* `addNumbers_some`: an object gets the numbers whose node and name find memory;
* `cJsonDelete_held`: deleting a tree gives back its `footprint`.
-/

namespace MqttDevice.CJson

open MqttDevice.Ascii MqttDevice.Binary64 MqttDevice.Blocks MqttDevice.Blocks.Heap

/-! ## The program -/

/-- `cJSON`, with the block of each string. `child` is the chain of `next` pointers. -/
structure Node where
  type : ItemType
  valuestring : Option (Nat × List Byte)
  valueint : BitVec 32
  valuedouble : Double
  string : Option (Nat × List Byte)
  child : List Nat

/-- All bytes zero. -/
def zeroNode : Node := ⟨.invalid, none, 0, .finite 0 representable_zero, none, []⟩

section Program

variable (ok : Nat → Bool)

/-- `cJSON_New_Item` -/
def cJsonNewItem (h : Heap Node) : Option Nat × Heap Node :=
  match h.malloc ok with
  | (some node, h) => (some node, h.store node zeroNode)
  | (none, h) => (none, h)

/-- `cJSON_CreateObject` -/
def cJsonCreateObject (h : Heap Node) : Option Nat × Heap Node :=
  match cJsonNewItem ok h with
  | (some item, h) => (some item, h.store item { h.cell item with type := .object })
  | (none, h) => (none, h)

/-- `cJSON_CreateNumber` -/
def cJsonCreateNumber (num : Double) (h : Heap Node) : Option Nat × Heap Node :=
  match cJsonNewItem ok h with
  | (some item, h) =>
    (some item, h.store item { h.cell item with
      type := .number, valuedouble := num, valueint := saturate num })
  | (none, h) => (none, h)

/-- `cJSON_strdup` of a string that is there. -/
def cJsonStrdup (string : List Byte) (h : Heap Node) : Option (Nat × List Byte) × Heap Node :=
  match h.malloc ok with
  | (some copy, h) => (some (copy, cString string), h)
  | (none, h) => (none, h)

/-- `add_item_to_array` -/
def addItemToArray (array item : Option Nat) (h : Heap Node) : Bool × Heap Node :=
  match array, item with
  | some array, some item =>
    if array = item then (false, h)
    else (true, h.store array { h.cell array with child := (h.cell array).child ++ [item] })
  | _, _ => (false, h)

/-- `cJSON_AddItemToObject`; the name is a literal. -/
def cJsonAddItemToObject (object : Option Nat) (string : List Byte) (item : Option Nat)
    (h : Heap Node) : Bool × Heap Node :=
  match object, item with
  | some object, some item =>
    if object = item then (false, h)
    else
      match cJsonStrdup ok string h with
      | (some newKey, h) =>
        let h := h.freeOption ((h.cell item).string.map Prod.fst)
        let h := h.store item { h.cell item with string := some newKey }
        addItemToArray (some object) (some item) h
      | (none, h) => (false, h)
  | _, _ => (false, h)

/-- `cJSON_Delete` of one item, down to a depth. -/
def deleteItem : Nat → Heap Node → Nat → Heap Node
  | 0, h, _ => h
  | depth + 1, h, item =>
    let h := (h.cell item).child.foldl (deleteItem depth) h
    let h := h.freeOption ((h.cell item).valuestring.map Prod.fst)
    let h := h.freeOption ((h.cell item).string.map Prod.fst)
    h.free item

/-- No tree is deeper: it takes a block for every level. -/
def depthBound (h : Heap Node) : Nat := h.blocks + 3

/-- `cJSON_Delete` of an item without neighbours. -/
def cJsonDelete (item : Option Nat) (h : Heap Node) : Heap Node :=
  match item with
  | some item => deleteItem (depthBound h) h item
  | none => h

/-- `cJSON_AddNumberToObject` -/
def cJsonAddNumberToObject (object : Option Nat) (name : List Byte) (number : Double)
    (h : Heap Node) : Option Nat × Heap Node :=
  let (numberItem, h) := cJsonCreateNumber ok number h
  match cJsonAddItemToObject ok object name numberItem h with
  | (true, h) => (numberItem, h)
  | (false, h) => (none, cJsonDelete numberItem h)

/-- Calls of `cJSON_AddNumberToObject` whose results are not looked at. -/
def addNumbers (object : Option Nat) (numbers : List (List Byte × Double)) (h : Heap Node) :
    Heap Node :=
  numbers.foldl (fun h m => (cJsonAddNumberToObject ok object m.1 m.2 h).2) h

end Program

/-- The tree below a block, as it is read. -/
def itemAt (h : Heap Node) : Nat → Nat → Item
  | 0, b => ⟨(h.cell b).type, (h.cell b).valuestring.map Prod.snd, (h.cell b).valueint,
      (h.cell b).valuedouble, (h.cell b).string.map Prod.snd, []⟩
  | depth + 1, b => ⟨(h.cell b).type, (h.cell b).valuestring.map Prod.snd, (h.cell b).valueint,
      (h.cell b).valuedouble, (h.cell b).string.map Prod.snd,
      (h.cell b).child.map (itemAt h depth)⟩

/-! ## Building -/

/-- A number in an object. -/
def numberNode (name : List Byte) (number : Double) (key : Nat) : Node :=
  { zeroNode with
    type := .number, valuedouble := number, valueint := saturate number
    string := some (key, cString name) }

/-- The heap with one block more, which has the given content. -/
def withNode (h : Heap Node) (node : Node) : Heap Node where
  requests := h.requests + 1
  blocks := h.blocks + 1
  freed := h.freed
  cell := Function.update h.cell h.blocks node

theorem withNode_cell_of_lt (h : Heap Node) (node : Node) {b : Nat} (hb : b < h.blocks) :
    (withNode h node).cell b = h.cell b :=
  Function.update_of_ne (by omega) ..

@[simp] theorem withNode_cell_self (h : Heap Node) (node : Node) :
    (withNode h node).cell h.blocks = node :=
  Function.update_self ..

theorem withNode_held {h : Heap Node} (node : Node) {bs : List Nat} (hH : h.Held bs) :
    (withNode h node).Held (h.blocks :: bs) :=
  (hH.grant (h.requests + 1)).congr rfl rfl

/-- An item that has got the block of its name, and its place in an object. -/
def attach (h : Heap Node) (object item : Nat) (name : List Byte) : Heap Node :=
  (Heap.store { h with requests := h.requests + 1, blocks := h.blocks + 1 } item
    { h.cell item with string := some (h.blocks, cString name) }).store object
      { h.cell object with child := (h.cell object).child ++ [item] }

theorem attach_held {h : Heap Node} (object item : Nat) (name : List Byte) {bs : List Nat}
    (hH : h.Held bs) : (attach h object item name).Held (h.blocks :: bs) :=
  (hH.grant (h.requests + 1)).congr rfl rfl

theorem attach_cell_of_ne (h : Heap Node) {object item b : Nat} (name : List Byte)
    (ho : b ≠ object) (hi : b ≠ item) : (attach h object item name).cell b = h.cell b := by
  rw [attach, store_cell_of_ne _ _ ho, store_cell_of_ne _ _ hi]

theorem attach_cell_object (h : Heap Node) (object item : Nat) (name : List Byte) :
    (attach h object item name).cell object =
      { h.cell object with child := (h.cell object).child ++ [item] } :=
  store_cell_self ..

theorem attach_cell_item (h : Heap Node) {object item : Nat} (name : List Byte)
    (hne : object ≠ item) : (attach h object item name).cell item =
      { h.cell item with string := some (h.blocks, cString name) } := by
  rw [attach, store_cell_of_ne _ _ hne.symm, store_cell_self]

section Calls

variable {ok : Nat → Bool} {h : Heap Node}

/-- The node of an object before it gets its name. -/
def objectLeaf : Node := { zeroNode with type := .object }

theorem createObject_granted (hok : ok h.requests = true) :
    cJsonCreateObject ok h = (some h.blocks, withNode h objectLeaf) := by
  rw [cJsonCreateObject, cJsonNewItem, malloc_of_ok hok]
  simp [Heap.store, withNode, objectLeaf]

theorem createObject_refused (hok : ok h.requests = false) :
    cJsonCreateObject ok h = (none, { h with requests := h.requests + 1 }) := by
  rw [cJsonCreateObject, cJsonNewItem, malloc_of_not hok]

theorem addItemToObject_granted {object item : Nat} (name : List Byte) (hne : object ≠ item)
    (hok : ok h.requests = true) (hs : (h.cell item).string = none) :
    cJsonAddItemToObject ok (some object) name (some item) h =
      (true, attach h object item name) := by
  simp only [cJsonAddItemToObject, hne, if_false, cJsonStrdup, malloc_of_ok hok, hs,
    Option.map_none, freeOption, addItemToArray, store_cell_of_ne _ _ hne]
  rfl

theorem addItemToObject_refused {object item : Nat} (name : List Byte) (hne : object ≠ item)
    (hok : ok h.requests = false) :
    cJsonAddItemToObject ok (some object) name (some item) h =
      (false, { h with requests := h.requests + 1 }) := by
  simp only [cJsonAddItemToObject, hne, if_false, cJsonStrdup, malloc_of_not hok]

theorem addItemToObject_none (object : Option Nat) (name : List Byte) :
    cJsonAddItemToObject ok object name none h = (false, h) := by
  cases object <;> rfl

/-- The node of a number before it gets its name. -/
def numberLeaf (number : Double) : Node :=
  { zeroNode with type := .number, valuedouble := number, valueint := saturate number }

theorem createNumber_granted (number : Double) (hok : ok h.requests = true) :
    cJsonCreateNumber ok number h = (some h.blocks, withNode h (numberLeaf number)) := by
  rw [cJsonCreateNumber, cJsonNewItem, malloc_of_ok hok]
  simp [Heap.store, withNode, numberLeaf]

theorem createNumber_refused (number : Double) (hok : ok h.requests = false) :
    cJsonCreateNumber ok number h = (none, { h with requests := h.requests + 1 }) := by
  rw [cJsonCreateNumber, cJsonNewItem, malloc_of_not hok]

/-- A number that no object has taken is given back. -/
theorem cJsonDelete_leaf {number : Double} {b : Nat} (hb : h.cell b = numberLeaf number) :
    cJsonDelete (some b) h = h.free b := by
  rw [cJsonDelete, depthBound, deleteItem, hb]
  simp only [numberLeaf, zeroNode, List.foldl_nil, Option.map_none, freeOption, hb]

/-! ## One number -/

/-- What is left of a number that was not added: the requests for its node and, if there
is an object, for its name. -/
structure Dropped (ok : Nat → Bool) (object : Bool) (h h' : Heap Node) : Prop where
  requests : h'.requests = h.requests + if object && ok h.requests then 2 else 1
  blocks : h.blocks ≤ h'.blocks
  cell : ∀ b < h.blocks, h'.cell b = h.cell b
  held : ∀ bs, h.Held bs → h'.Held bs

/-- What a number in the object `o` changes. -/
structure Added (h h' : Heap Node) (o : Nat) (name : List Byte) (number : Double) : Prop where
  requests : h'.requests = h.requests + 2
  blocks : h'.blocks = h.blocks + 2
  cell : ∀ b < h.blocks, b ≠ o → h'.cell b = h.cell b
  object : h'.cell o = { h.cell o with child := (h.cell o).child ++ [h.blocks] }
  number : h'.cell h.blocks = numberNode name number (h.blocks + 1)
  held : ∀ bs, h.Held bs → h'.Held ((h.blocks + 1) :: h.blocks :: bs)

variable (name : List Byte) (number : Double)

theorem addNumber_refused (object : Option Nat) (hok : ok h.requests = false) :
    Dropped ok object.isSome h (cJsonAddNumberToObject ok object name number h).2 := by
  rw [cJsonAddNumberToObject, createNumber_refused number hok]
  simp only [addItemToObject_none, cJsonDelete]
  exact ⟨by simp [hok], Nat.le_refl _, fun _ _ => rfl, fun _ hH => hH.congr rfl rfl⟩

theorem addNumber_none (hok : ok h.requests = true) :
    Dropped ok false h (cJsonAddNumberToObject ok none name number h).2 := by
  have hdel := cJsonDelete_leaf (withNode_cell_self h (numberLeaf number))
  rw [cJsonAddNumberToObject, createNumber_granted number hok]
  simp only [cJsonAddItemToObject, hdel]
  exact ⟨rfl, Nat.le_succ _, fun b hb => withNode_cell_of_lt h _ hb,
    fun bs hH => (withNode_held _ hH).free⟩

/-- The name finds no memory: the node is given back. -/
theorem addNumber_nameless {o : Nat} (ho : o < h.blocks) (hok : ok h.requests = true)
    (hno : ok (h.requests + 1) = false) :
    Dropped ok true h (cJsonAddNumberToObject ok (some o) name number h).2 := by
  have hadd := addItemToObject_refused (h := withNode h (numberLeaf number)) name ho.ne hno
  have hdel := cJsonDelete_leaf (h := { withNode h (numberLeaf number) with
    requests := h.requests + 2 }) (withNode_cell_self h (numberLeaf number))
  have hheap : (cJsonAddNumberToObject ok (some o) name number h).2 =
      Heap.free { withNode h (numberLeaf number) with requests := h.requests + 2 } h.blocks := by
    rw [cJsonAddNumberToObject, createNumber_granted number hok]
    simp only [hadd]
    exact hdel
  rw [hheap]
  refine ⟨by simp [hok], Nat.le_succ _, fun b hb => withNode_cell_of_lt h _ hb, fun bs hH => ?_⟩
  exact (((withNode_held (numberLeaf number) hH).congr rfl rfl : Held _ _)).free

/-- The number has a node and a name: the object takes it. -/
theorem addNumber_added {o : Nat} (ho : o < h.blocks) (hok : ok h.requests = true)
    (hkey : ok (h.requests + 1) = true) :
    Added h (cJsonAddNumberToObject ok (some o) name number h).2 o name number := by
  have hleaf := withNode_cell_self h (numberLeaf number)
  have hadd := addItemToObject_granted (h := withNode h (numberLeaf number)) name ho.ne hkey
    (by rw [hleaf]; rfl)
  rw [cJsonAddNumberToObject, createNumber_granted number hok]
  simp only [hadd]
  refine ⟨rfl, rfl, ?_, ?_, ?_, ?_⟩
  · intro b hb hbo
    rw [attach_cell_of_ne _ name hbo hb.ne]
    exact withNode_cell_of_lt h _ hb
  · rw [attach_cell_object, withNode_cell_of_lt h _ ho]
  · rw [attach_cell_item _ name ho.ne, hleaf]
    rfl
  · intro bs hH
    exact attach_held o h.blocks name (withNode_held _ hH)

end Calls

/-! ## Numbers in a row -/

/-- The members that find memory for their node and their name, with the requests for
them counted from `k` on. -/
def made (ok : Nat → Bool) : Nat → List (List Byte × Double) → List (List Byte × Double)
  | _, [] => []
  | k, m :: ms =>
    if ok k then
      if ok (k + 1) then m :: made ok (k + 2) ms else made ok (k + 2) ms
    else made ok (k + 1) ms

/-- The number of the next request after `n` numbers for an object that is there or not. -/
def afterNumbers (ok : Nat → Bool) (object : Bool) : Nat → Nat → Nat
  | k, 0 => k
  | k, n + 1 => afterNumbers ok object (k + if object && ok k then 2 else 1) n

/-- Numbers for an object that is not there leave nothing. -/
theorem addNumbers_none {ok : Nat → Bool} (numbers : List (List Byte × Double)) (h : Heap Node) :
    let h' := addNumbers ok none numbers h
    h'.requests = afterNumbers ok false h.requests numbers.length ∧ h.blocks ≤ h'.blocks ∧
      (∀ b < h.blocks, h'.cell b = h.cell b) ∧ ∀ bs, h.Held bs → h'.Held bs := by
  induction numbers generalizing h with
  | nil => exact ⟨rfl, Nat.le_refl _, fun _ _ => rfl, fun _ hH => hH⟩
  | cons m ms ih =>
    have hdrop : Dropped ok false h (cJsonAddNumberToObject ok none m.1 m.2 h).2 := by
      cases hok : ok h.requests with
      | true => exact addNumber_none m.1 m.2 hok
      | false => exact addNumber_refused m.1 m.2 none hok
    obtain ⟨hreq, hblocks, hcell, hheld⟩ := ih (cJsonAddNumberToObject ok none m.1 m.2 h).2
    rw [hdrop.requests] at hreq
    refine ⟨hreq, hdrop.blocks.trans hblocks, fun b hb => ?_, fun bs hH => ?_⟩
    · exact (hcell b (hb.trans_le hdrop.blocks)).trans (hdrop.cell b hb)
    · exact hheld bs (hdrop.held bs hH)

/-- The blocks of numbers, given by node and name. -/
def numberBlocks (cs : List (Nat × Nat)) : List Nat := cs.flatMap fun c => [c.2, c.1]

/-- The nodes in `cs` hold the numbers. -/
def HoldNumbers (h : Heap Node) (cs : List (Nat × Nat)) (numbers : List (List Byte × Double)) :
    Prop :=
  List.Forall₂ (fun c m => h.cell c.1 = numberNode m.1 m.2 c.2) cs numbers

/-- What a row of numbers changes: the object `o` gets those that find memory, and
nothing else is held. -/
structure Filled (ok : Nat → Bool) (o : Nat) (numbers : List (List Byte × Double))
    (h h' : Heap Node) : Prop where
  requests : h'.requests = afterNumbers ok true h.requests numbers.length
  blocks : h.blocks ≤ h'.blocks
  cell : ∀ b < h.blocks, b ≠ o → h'.cell b = h.cell b
  members : ∃ cs, h'.cell o = { h.cell o with child := (h.cell o).child ++ cs.map Prod.fst } ∧
    (∀ c ∈ cs, h.blocks ≤ c.1) ∧ HoldNumbers h' cs (made ok h.requests numbers) ∧
    ∀ bs, h.Held bs → h'.Held (numberBlocks cs ++ bs)

theorem Filled.nil {ok : Nat → Bool} (o : Nat) (h : Heap Node) : Filled ok o [] h h where
  requests := rfl
  blocks := Nat.le_refl _
  cell _ _ _ := rfl
  members := ⟨[], by rw [List.map_nil, List.append_nil], by simp, .nil, fun _ hH => hH⟩

/-- A number in front that is not added. -/
theorem Filled.skip {ok : Nat → Bool} {o : Nat} {m : List Byte × Double}
    {ms : List (List Byte × Double)} {h h₁ h' : Heap Node} (hdrop : Dropped ok true h h₁)
    (ho : o < h.blocks) (hmade : made ok h.requests (m :: ms) = made ok h₁.requests ms)
    (hfill : Filled ok o ms h₁ h') : Filled ok o (m :: ms) h h' where
  requests := by
    rw [hfill.requests, hdrop.requests]
    rfl
  blocks := hdrop.blocks.trans hfill.blocks
  cell b hb hbo := (hfill.cell b (hb.trans_le hdrop.blocks) hbo).trans (hdrop.cell b hb)
  members := by
    obtain ⟨cs, hobj, hnew, hnum, hheld⟩ := hfill.members
    rw [hdrop.cell o ho] at hobj
    rw [← hmade] at hnum
    exact ⟨cs, hobj, fun c hc => hdrop.blocks.trans (hnew c hc), hnum,
      fun bs hH => hheld bs (hdrop.held bs hH)⟩

/-- A number in front that is added. -/
theorem Filled.add {ok : Nat → Bool} {o : Nat} {m : List Byte × Double}
    {ms : List (List Byte × Double)} {h h₁ h' : Heap Node} (hadd : Added h h₁ o m.1 m.2)
    (ho : o < h.blocks) (hok : ok h.requests = true) (hkey : ok (h.requests + 1) = true)
    (hfill : Filled ok o ms h₁ h') : Filled ok o (m :: ms) h h' where
  requests := by
    rw [hfill.requests, hadd.requests, List.length_cons, afterNumbers, hok]
    rfl
  blocks := (Nat.le_add_right _ 2).trans (hadd.blocks.symm.le.trans hfill.blocks)
  cell b hb hbo := (hfill.cell b (by rw [hadd.blocks]; omega) hbo).trans (hadd.cell b hb hbo)
  members := by
    obtain ⟨cs, hobj, hnew, hnum, hheld⟩ := hfill.members
    have hnumber := hfill.cell h.blocks (by rw [hadd.blocks]; omega) ho.ne'
    rw [hadd.object] at hobj
    rw [hadd.requests] at hnum
    rw [hadd.blocks] at hnew
    refine ⟨(h.blocks, h.blocks + 1) :: cs, ?_, ?_, ?_, fun bs hH => ?_⟩
    · rw [List.map_cons, List.append_cons]
      exact hobj
    · rintro c (_ | ⟨_, hc⟩)
      · exact Nat.le_refl _
      · exact (Nat.le_add_right _ 2).trans (hnew c hc)
    · rw [made, if_pos hok, if_pos hkey]
      exact .cons (hnumber.trans hadd.number) hnum
    · have hheld' := hheld _ (hadd.held bs hH)
      refine hheld'.perm ?_
      rw [numberBlocks, numberBlocks, List.flatMap_cons, List.append_assoc]
      exact List.perm_append_comm_assoc _ [h.blocks + 1, h.blocks] bs

/-- **Numbers for an object**, one after the other. -/
theorem addNumbers_some {ok : Nat → Bool} {o : Nat} (numbers : List (List Byte × Double))
    (h : Heap Node) (ho : o < h.blocks) :
    Filled ok o numbers h (addNumbers ok (some o) numbers h) := by
  induction numbers generalizing h with
  | nil => exact .nil o h
  | cons m ms ih =>
    cases hok : ok h.requests with
    | false =>
      have hdrop := addNumber_refused m.1 m.2 (some o) hok
      refine .skip hdrop ho ?_ (ih _ (ho.trans_le hdrop.blocks))
      rw [hdrop.requests, made, hok]
      simp
    | true =>
      cases hkey : ok (h.requests + 1) with
      | false =>
        have hdrop := addNumber_nameless m.1 m.2 ho hok hkey
        refine .skip hdrop ho ?_ (ih _ (ho.trans_le hdrop.blocks))
        rw [hdrop.requests, made, hok, hkey]
        simp
      | true =>
        have hadd := addNumber_added m.1 m.2 ho hok hkey
        exact .add hadd ho hok hkey (ih _ (by rw [hadd.blocks]; omega))

/-! ## Deleting -/

/-- The blocks of a tree, down to a depth. -/
def footprint (cell : Nat → Node) : Nat → Nat → List Nat
  | 0, _ => []
  | depth + 1, b =>
    (cell b).child.flatMap (footprint cell depth) ++
      (((cell b).valuestring.map Prod.fst).toList ++ (((cell b).string.map Prod.fst).toList ++ [b]))

theorem freeOption_eq (h : Heap Node) (o : Option Nat) :
    h.freeOption o = { h with freed := h.freed ++ o.toList } := by
  cases o with
  | none => simp [freeOption]
  | some b => rfl

/-- Deleting an item gives back its tree and does nothing else. -/
theorem deleteItem_eq (depth : Nat) (h : Heap Node) (b : Nat) :
    deleteItem depth h b = { h with freed := h.freed ++ footprint h.cell depth b } := by
  induction depth generalizing h b with
  | zero => rw [deleteItem, footprint, List.append_nil]
  | succ depth ih =>
    have hfold (cs : List Nat) (h : Heap Node) : cs.foldl (deleteItem depth) h =
        { h with freed := h.freed ++ cs.flatMap (footprint h.cell depth) } := by
      induction cs generalizing h with
      | nil => rw [List.foldl_nil, List.flatMap_nil, List.append_nil]
      | cons c cs ihc =>
        rw [List.foldl_cons, ih, ihc, List.flatMap_cons, List.append_assoc]
    rw [deleteItem, hfold]
    simp only [freeOption_eq, footprint, Heap.free, List.append_assoc]

theorem cJsonDelete_held {h : Heap Node} {b : Nat} {bs : List Nat}
    (hH : h.Held (footprint h.cell (depthBound h) b ++ bs)) : (cJsonDelete (some b) h).Held bs := by
  rw [cJsonDelete, deleteItem_eq, Held, List.append_assoc]
  exact hH

/-! ## Objects of numbers -/

/-- Where an object of numbers is: its node, its name, and its members. -/
structure Placed where
  node : Nat
  key : Nat
  numbers : List (Nat × Nat)

namespace Placed

/-- All its blocks, in the order in which they are given back. -/
def blocks (o : Placed) : List Nat := numberBlocks o.numbers ++ [o.key, o.node]

/-- The object with the name and the numbers is there. -/
def Holds (h : Heap Node) (o : Placed) (name : List Byte) (numbers : List (List Byte × Double)) :
    Prop :=
  h.cell o.node = { objectLeaf with
      string := some (o.key, cString name), child := o.numbers.map Prod.fst } ∧
    HoldNumbers h o.numbers numbers

theorem node_mem_blocks (o : Placed) : o.node ∈ o.blocks := by simp [blocks]

theorem number_mem_blocks {o : Placed} {c : Nat × Nat} (hc : c ∈ o.numbers) : c.1 ∈ o.blocks := by
  simp only [blocks, numberBlocks, List.mem_append, List.mem_flatMap]
  exact .inl ⟨c, hc, by simp⟩

/-- Nodes elsewhere do not matter. -/
theorem Holds.congr {h h' : Heap Node} {o : Placed} {name : List Byte}
    {numbers : List (List Byte × Double)} (hh : o.Holds h name numbers)
    (hcell : ∀ b ∈ o.blocks, h'.cell b = h.cell b) : o.Holds h' name numbers := by
  refine ⟨(hcell _ o.node_mem_blocks).trans hh.1, ?_⟩
  have hall := hh.2
  unfold HoldNumbers at hall ⊢
  rw [List.forall₂_iff_zip] at hall ⊢
  refine ⟨hall.1, fun hmem => ?_⟩
  exact (hcell _ (number_mem_blocks (List.of_mem_zip hmem).1)).trans (hall.2 hmem)

end Placed

theorem footprint_number {h : Heap Node} {b key : Nat} {name : List Byte} {number : Double}
    (hb : h.cell b = numberNode name number key) (depth : Nat) :
    footprint h.cell (depth + 1) b = [key, b] := by
  rw [footprint, hb]
  rfl

theorem itemAt_number {h : Heap Node} {b key : Nat} {name : List Byte} {number : Double}
    (hb : h.cell b = numberNode name number key) (depth : Nat) :
    itemAt h depth b = { createNumber number with string := some (cString name) } := by
  cases depth <;> rw [itemAt, hb] <;> rfl

theorem HoldNumbers.footprint {h : Heap Node} {cs : List (Nat × Nat)}
    {numbers : List (List Byte × Double)} (hh : HoldNumbers h cs numbers) (depth : Nat) :
    (cs.map Prod.fst).flatMap (footprint h.cell (depth + 1)) = numberBlocks cs := by
  induction hh with
  | nil => rfl
  | @cons c m cs ms hc _ ih =>
    rw [List.map_cons, List.flatMap_cons, footprint_number hc, ih]
    rfl

theorem HoldNumbers.items {h : Heap Node} {cs : List (Nat × Nat)}
    {numbers : List (List Byte × Double)} (hh : HoldNumbers h cs numbers)
    (hnames : ∀ m ∈ numbers, cString m.1 = m.1) (depth : Nat) :
    (cs.map Prod.fst).map (itemAt h depth) =
      numbers.map fun m => { createNumber m.2 with string := some m.1 } := by
  induction hh with
  | nil => rfl
  | @cons c m cs ms hc _ ih =>
    obtain ⟨hm, hms⟩ := List.forall_mem_cons.mp hnames
    rw [List.map_cons, List.map_cons, List.map_cons, itemAt_number hc, ih hms, hm]

namespace Placed

/-- What is given back of an object of numbers. -/
theorem Holds.footprint {h : Heap Node} {o : Placed} {name : List Byte}
    {numbers : List (List Byte × Double)} (hh : o.Holds h name numbers) (depth : Nat) :
    footprint h.cell (depth + 2) o.node = o.blocks := by
  have hnumbers := hh.2.footprint depth
  rw [CJson.footprint, hh.1]
  simp only [hnumbers]
  rfl

/-- What is read of an object of numbers. -/
theorem Holds.item {h : Heap Node} {o : Placed} {name : List Byte}
    {numbers : List (List Byte × Double)} (hh : o.Holds h name numbers)
    (hname : cString name = name) (hnames : ∀ m ∈ numbers, cString m.1 = m.1) (depth : Nat) :
    itemAt h (depth + 1) o.node = { numberObject numbers with string := some name } := by
  have hnumbers := hh.2.items hnames depth
  rw [itemAt, hh.1, numberObject_eq]
  simp only [hnumbers, Option.map_some, hname]
  rfl

end Placed

end MqttDevice.CJson
