import MqttDevice.Command
import Mathlib.Logic.Relation

/-!
# What a command message means (`json_parse`)

* `foldName`, `Named`: names without their case, which is what
  `case_insensitive_strcmp` compares (`strcmpLoop_eq_zero_iff`);
* `Edit`: one change to a message that its command does not depend on, at any depth;
* `jsonParse_dispatches`: `json_parse` does what `reference` says, gives its tree back
  once, and does the same for all messages that such changes lead to.
-/

namespace MqttDevice.Dispatch

open MqttDevice.Ascii MqttDevice.CJson MqttDevice.Command

/-! ## Names without case -/

/-- A name as C reads it, up to a zero byte, with its letters in lower case. -/
def foldName : List Byte → List Byte
  | [] => []
  | b :: bs => if b = 0 then [] else tolower b :: foldName bs

theorem tolower_eq_zero_iff (b : Byte) : tolower b = 0 ↔ b = 0 := by
  revert b
  decide +kernel

theorem toNat_sub_eq_zero_iff (b c : Byte) : (b.toNat : Int) - c.toNat = 0 ↔ b = c := by
  rw [sub_eq_zero, Nat.cast_inj]
  exact BitVec.toNat_inj

/-- What the comparison returns for two letters. -/
theorem difference_eq_zero_iff (b c : Byte) :
    (if b = c then (0 : Int) else b.toNat - c.toNat) = 0 ↔ b = c := by
  split
  · rename_i h
    exact iff_of_true rfl h
  · rw [toNat_sub_eq_zero_iff]

@[simp] theorem foldName_nil : foldName [] = [] := rfl

@[simp] theorem foldName_zero (bs : List Byte) : foldName (0 :: bs) = [] := rfl

theorem foldName_cons {b : Byte} (h : b ≠ 0) (bs : List Byte) :
    foldName (b :: bs) = tolower b :: foldName bs := if_neg h

/-- A name ends at a zero byte or where its list does. -/
theorem foldName_eq_nil_iff (ys : List Byte) : [] = foldName ys ↔ tolower (ys.headD 0) = 0 := by
  rw [tolower_eq_zero_iff]
  cases ys with
  | nil => exact iff_of_true rfl rfl
  | cons y ys =>
    by_cases h : y = 0
    · subst h
      exact iff_of_true rfl rfl
    · rw [foldName_cons h]
      exact iff_of_false (List.cons_ne_nil _ _).symm h

theorem foldName_eq_cons_iff (ys zs : List Byte) {z : Byte} (hz : z ≠ 0) :
    z :: zs = foldName ys ↔ z = tolower (ys.headD 0) ∧ zs = foldName ys.tail := by
  have h0 : tolower 0 = 0 := (tolower_eq_zero_iff 0).mpr rfl
  cases ys with
  | nil => exact iff_of_false (List.cons_ne_nil _ _) fun h => hz (h.1.trans h0)
  | cons y ys =>
    by_cases h : y = 0
    · subst h
      exact iff_of_false (List.cons_ne_nil _ _) fun h => hz (h.1.trans h0)
    · rw [foldName_cons h, List.cons.injEq]
      rfl

/-- **The comparison is equality of the folded names.** -/
theorem strcmpLoop_eq_zero_iff (xs ys : List Byte) :
    strcmpLoop xs ys = 0 ↔ foldName xs = foldName ys := by
  have h0 : tolower 0 = 0 := (tolower_eq_zero_iff 0).mpr rfl
  induction xs generalizing ys with
  | nil =>
    rw [strcmpLoop, difference_eq_zero_iff, foldName_nil, foldName_eq_nil_iff, h0]
    exact eq_comm
  | cons x xs ih =>
    rw [strcmpLoop]
    by_cases hx : x = 0
    · subst hx
      rw [if_pos rfl, difference_eq_zero_iff, foldName_zero, foldName_eq_nil_iff, h0]
      exact eq_comm
    · rw [foldName_cons hx, foldName_eq_cons_iff _ _ (mt (tolower_eq_zero_iff x).mp hx), if_neg hx]
      split
      · rename_i h
        exact (ih ys.tail).trans (and_iff_right h).symm
      · rename_i h
        rw [toNat_sub_eq_zero_iff]
        exact iff_of_false h fun e => h e.1

/-- The member has the name, whatever its case. -/
def Named (m : Item) (name : List Byte) : Prop := m.string.map foldName = some (foldName name)

instance (m : Item) (name : List Byte) : Decidable (Named m name) :=
  inferInstanceAs (Decidable (_ = _))

theorem caseInsensitiveStrcmp_eq_zero_iff (name : List Byte) (m : Item) :
    caseInsensitiveStrcmp (some name) m.string = 0 ↔ Named m name := by
  rw [Named]
  cases m.string with
  | none => simp [caseInsensitiveStrcmp]
  | some s => simpa [caseInsensitiveStrcmp] using
      (strcmpLoop_eq_zero_iff name s).trans eq_comm

/-- The first member of an object with the name. -/
def firstMember (object : Item) (name : List Byte) : Option Item :=
  object.child.find? fun m => Named m name

theorem getObjectItem_eq (object : Item) (name : List Byte) :
    getObjectItem object name = firstMember object name := by
  rw [getObjectItem, firstMember]
  congr 1
  funext m
  exact decide_eq_decide.mpr (caseInsensitiveStrcmp_eq_zero_iff name m)

/-! ## The reference -/

/-- The integer values of the four command members. -/
def commandAt (data : Item) : Option MqttCmd := do
  let s ← firstMember data (str "Switch")
  let v₀ ← firstMember data (str "Variable_Val_0")
  let v₁ ← firstMember data (str "Variable_Val_1")
  let v₂ ← firstMember data (str "Variable_Val_2")
  return ⟨s.valueint, v₀.valueint, v₁.valueint, v₂.valueint⟩

/-- What a message makes of `mqtt_cmd`: a message 5004 with `data` replaces it. -/
def reference (tree : Option Item) (c : MqttCmd) : MqttCmd :=
  match tree with
  | none => c
  | some root =>
    match firstMember root (str "head") with
    | none => c
    | some head =>
      match firstMember head (str "msg_id"), firstMember root (str "data") with
      | some msgId, some data => if msgId.valueint = 5004 then (commandAt data).getD c else c
      | _, _ => c

/-- Every member that is read from the message is there. -/
def LookupsSucceed (buf : List Byte) : Prop :=
  ∀ root, parseWithLength buf = some root →
    ∀ headItem, getObjectItem root (str "head") = some headItem → Complete root headItem

/-- One tree is given back, if there is one. -/
def released (tree : Option Item) : Nat := if tree.isSome then 1 else 0

theorem lookupsSucceed_of_ok {buf : List Byte} {a : App}
    (h : (exec (jsonParse buf) a).1 = .ok 0) : LookupsSucceed buf := by
  intro root hroot headItem hhead
  rw [exec_jsonParse, hroot] at h
  simp only [hhead] at h
  rw [← parseHead_ok_iff root headItem a]
  rcases hexec : exec (parseHead root headItem) a with ⟨_ | _, a'⟩
  · rw [hexec] at h
    cases h
  · rfl

/-- With its four members there, `data` replaces `mqtt_cmd`. -/
theorem exec_storeData_of_hasAll {dataItem : Item} (h : HasAll dataItem dataNames) (a : App) :
    ∃ c, commandAt dataItem = some c ∧
      exec (storeData dataItem) a = (.ok (), { a with mqttCmd := c }) := by
  have hget (name : List Byte) (hn : name ∈ dataNames) :
      ∃ m, getObjectItem dataItem name = some m := Option.ne_none_iff_exists'.mp (h name hn)
  obtain ⟨s, hs⟩ := hget (str "Switch") (by simp [dataNames])
  obtain ⟨v₀, h₀⟩ := hget (str "Variable_Val_0") (by simp [dataNames])
  obtain ⟨v₁, h₁⟩ := hget (str "Variable_Val_1") (by simp [dataNames])
  obtain ⟨v₂, h₂⟩ := hget (str "Variable_Val_2") (by simp [dataNames])
  refine ⟨⟨s.valueint, v₀.valueint, v₁.valueint, v₂.valueint⟩, ?_, ?_⟩
  · simp only [commandAt, ← getObjectItem_eq, hs, h₀, h₁, h₂]
    rfl
  · rw [exec_storeData, hs, h₀, h₁, h₂]

/-- The head of a complete message leads to what the reference says. -/
theorem exec_parseHead_of_complete {root headItem : Item} (h : Complete root headItem)
    (hhead : getObjectItem root (str "head") = some headItem) (a : App) :
    exec (parseHead root headItem) a =
      (.ok (), { a with mqttCmd := reference (some root) a.mqttCmd }) := by
  obtain ⟨hheadAll, hdataAll⟩ := h
  have hget (name : List Byte) (hn : name ∈ headNames) :
      ∃ m, getObjectItem headItem name = some m := Option.ne_none_iff_exists'.mp (hheadAll name hn)
  obtain ⟨msgId, hid⟩ := hget (str "msg_id") (by simp [headNames])
  obtain ⟨msgNo, hno⟩ := hget (str "msg_no") (by simp [headNames])
  obtain ⟨timestamp, htime⟩ := hget (str "timestamp") (by simp [headNames])
  rw [exec_parseHead, hid, hno, htime, reference]
  simp only [exec_dispatch, ← getObjectItem_eq, hhead, hid]
  cases hdata : getObjectItem root (str "data") with
  | none => simp
  | some dataItem =>
    by_cases h5004 : msgId.valueint = msgDataDownId
    · obtain ⟨c, hc, hexec⟩ :=
        exec_storeData_of_hasAll (hdataAll msgId hid h5004 dataItem hdata) a
      simp only [if_pos h5004, if_pos (show msgId.valueint = 5004 from h5004), hc, hexec,
        Option.getD_some]
    · simp only [if_neg h5004, if_neg (show ¬ msgId.valueint = 5004 from h5004)]

theorem exec_jsonParse_eq {buf : List Byte} (h : LookupsSucceed buf) (a : App) :
    exec (jsonParse buf) a = (.ok 0, { a with
      mqttCmd := reference (parseWithLength buf) a.mqttCmd
      deleted := a.deleted + released (parseWithLength buf) }) := by
  rw [exec_jsonParse]
  cases htree : parseWithLength buf with
  | none => rfl
  | some root =>
    cases hhead : getObjectItem root (str "head") with
    | none =>
      rw [reference]
      simp only [← getObjectItem_eq, hhead]
      rfl
    | some headItem =>
      simp only [hhead, exec_parseHead_of_complete (h root htree headItem hhead) hhead]
      rfl

/-! ## Changes that a command does not depend on -/

/-- What an item of a command message is. -/
inductive Place
  | root | head | data | other
  deriving DecidableEq

namespace Place

/-- The members that are looked up there. -/
def names : Place → List (List Byte)
  | .root => [str "head", str "data"]
  | .head => headNames
  | .data => dataNames
  | .other => []

/-- What a member of an item is. -/
def sub (p : Place) (m : Item) : Place :=
  if p = .root ∧ Named m (str "head") then .head
  else if p = .root ∧ Named m (str "data") then .data
  else .other

end Place

/-- One change: a member that nothing looks up comes or goes, two neighbours of
different names change places, or this happens inside a member. -/
inductive Edit : Place → Item → Item → Prop
  | insert {p : Place} {t m : Item} {xs ys : List Item} (ht : t.child = xs ++ ys)
      (hm : ∀ name ∈ p.names, ¬ Named m name) : Edit p t { t with child := xs ++ m :: ys }
  | remove {p : Place} {t m : Item} {xs ys : List Item} (ht : t.child = xs ++ m :: ys)
      (hm : ∀ name ∈ p.names, ¬ Named m name) : Edit p t { t with child := xs ++ ys }
  | swap {p : Place} {t m m' : Item} {xs ys : List Item} (ht : t.child = xs ++ m :: m' :: ys)
      (hm : m.string.map foldName ≠ m'.string.map foldName) :
      Edit p t { t with child := xs ++ m' :: m :: ys }
  | inside {p : Place} {t m m' : Item} {xs ys : List Item} (ht : t.child = xs ++ m :: ys)
      (hm : Edit (p.sub m) m m') : Edit p t { t with child := xs ++ m' :: ys }

/-- A change leaves everything but the members. -/
theorem Edit.frame {p : Place} {t t' : Item} (h : Edit p t t') :
    t'.valueint = t.valueint ∧ t'.string = t.string := by
  cases h <;> exact ⟨rfl, rfl⟩

/-- Two items with nothing or one change between them. -/
def Near (p : Place) (t t' : Item) : Prop := t = t' ∨ Edit p t t'

theorem Near.valueint {p : Place} {t t' : Item} (h : Near p t t') : t'.valueint = t.valueint := by
  rcases h with rfl | h
  · rfl
  · exact h.frame.1

section Find

variable {q : Item → Bool}

theorem find?_insert {m : Item} (h : q m = false) (xs ys : List Item) :
    (xs ++ m :: ys).find? q = (xs ++ ys).find? q := by
  rw [List.find?_append, List.find?_append, List.find?_cons_of_neg (by simp [h])]

theorem find?_swap {m m' : Item} (h : q m = false ∨ q m' = false) (xs ys : List Item) :
    (xs ++ m' :: m :: ys).find? q = (xs ++ m :: m' :: ys).find? q := by
  rcases h with h | h
  · rw [List.append_cons xs m' (m :: ys), find?_insert h, find?_insert h, ← List.append_cons]
  · rw [find?_insert h, List.append_cons xs m (m' :: ys), find?_insert h, ← List.append_cons]

end Find

theorem named_of_getObjectItem {t m : Item} {name : List Byte}
    (h : getObjectItem t name = some m) : Named m name := by
  rw [getObjectItem_eq] at h
  simpa using List.find?_some h

/-- What a lookup finds in two items: nothing in both, or members near to each other. -/
inductive Finds (p : Place) (name : List Byte) : Option Item → Option Item → Prop
  | nothing : Finds p name none none
  | near {m m' : Item} (hname : Named m name) (h : Near (p.sub m) m m') :
      Finds p name (some m) (some m')

theorem finds_refl (p : Place) (t : Item) (name : List Byte) :
    Finds p name (getObjectItem t name) (getObjectItem t name) := by
  cases h : getObjectItem t name with
  | none => exact .nothing
  | some m => exact .near (named_of_getObjectItem h) (.inl rfl)

/-- One change, seen by a lookup. -/
theorem Edit.finds {p : Place} {t t' : Item} (h : Edit p t t') (name : List Byte)
    (hn : name ∈ p.names) : Finds p name (getObjectItem t name) (getObjectItem t' name) := by
  cases h with
  | @insert _ _ m xs ys ht hm =>
    have hq : decide (Named m name) = false := decide_eq_false (hm name hn)
    have heq : getObjectItem { t with child := xs ++ m :: ys } name = getObjectItem t name := by
      rw [getObjectItem_eq, getObjectItem_eq, firstMember, firstMember, ht]
      exact find?_insert hq xs ys
    rw [heq]
    exact finds_refl p t name
  | @remove _ _ m xs ys ht hm =>
    have hq : decide (Named m name) = false := decide_eq_false (hm name hn)
    have heq : getObjectItem { t with child := xs ++ ys } name = getObjectItem t name := by
      rw [getObjectItem_eq, getObjectItem_eq, firstMember, firstMember, ht]
      exact (find?_insert hq xs ys).symm
    rw [heq]
    exact finds_refl p t name
  | @swap _ _ m m' xs ys ht hm =>
    have hq : decide (Named m name) = false ∨ decide (Named m' name) = false := by
      by_cases hname : Named m name
      · exact .inr (decide_eq_false fun hname' => hm (hname.trans hname'.symm))
      · exact .inl (decide_eq_false hname)
    have heq : getObjectItem { t with child := xs ++ m' :: m :: ys } name =
        getObjectItem t name := by
      rw [getObjectItem_eq, getObjectItem_eq, firstMember, firstMember, ht]
      exact find?_swap hq xs ys
    rw [heq]
    exact finds_refl p t name
  | @inside _ _ m m' xs ys ht hm =>
    have hnamed : Named m' name ↔ Named m name := by rw [Named, Named, hm.frame.2]
    have hrefl := finds_refl p t name
    rw [getObjectItem_eq, firstMember, ht, List.find?_append] at hrefl ⊢
    rw [getObjectItem_eq, firstMember, List.find?_append]
    cases hxs : xs.find? fun m => Named m name with
    | some x => simpa only [hxs, Option.some_or] using hrefl
    | none =>
      simp only [hxs, Option.none_or] at hrefl ⊢
      by_cases hname : Named m name
      · rw [List.find?_cons_of_pos (by simpa using hname),
          List.find?_cons_of_pos (by simpa using hnamed.mpr hname)]
        exact .near hname (.inr hm)
      · rw [List.find?_cons_of_neg (by simpa using hname)] at hrefl ⊢
        rw [List.find?_cons_of_neg (by simpa using mt hnamed.mp hname)]
        exact hrefl

/-- Near items are looked up alike. -/
theorem Near.finds {p : Place} {t t' : Item} (h : Near p t t') (name : List Byte)
    (hn : name ∈ p.names) : Finds p name (getObjectItem t name) (getObjectItem t' name) := by
  rcases h with rfl | h
  · exact finds_refl p t name
  · exact h.finds name hn

/-! ## The program does not see them -/

theorem exec_storeData_near {d d' : Item} (h : Near .data d d') (a : App) :
    exec (storeData d') a = exec (storeData d) a := by
  have hs := h.finds (str "Switch") (by simp [Place.names, dataNames])
  have h₀ := h.finds (str "Variable_Val_0") (by simp [Place.names, dataNames])
  have h₁ := h.finds (str "Variable_Val_1") (by simp [Place.names, dataNames])
  have h₂ := h.finds (str "Variable_Val_2") (by simp [Place.names, dataNames])
  rw [exec_storeData, exec_storeData]
  generalize getObjectItem d (str "Switch") = s, getObjectItem d' (str "Switch") = s' at hs ⊢
  generalize getObjectItem d (str "Variable_Val_0") = v₀,
    getObjectItem d' (str "Variable_Val_0") = v₀' at h₀ ⊢
  generalize getObjectItem d (str "Variable_Val_1") = v₁,
    getObjectItem d' (str "Variable_Val_1") = v₁' at h₁ ⊢
  generalize getObjectItem d (str "Variable_Val_2") = v₂,
    getObjectItem d' (str "Variable_Val_2") = v₂' at h₂ ⊢
  cases hs with
  | nothing => rfl
  | near _ hs =>
    cases h₀ with
    | nothing => simp only [hs.valueint]
    | near _ h₀ =>
      cases h₁ with
      | nothing => simp only [hs.valueint, h₀.valueint]
      | near _ h₁ =>
        cases h₂ with
        | nothing => simp only [hs.valueint, h₀.valueint, h₁.valueint]
        | near _ h₂ => simp only [hs.valueint, h₀.valueint, h₁.valueint, h₂.valueint]

theorem sub_head {m : Item} (h : Named m (str "head")) : Place.root.sub m = .head :=
  if_pos ⟨rfl, h⟩

theorem sub_data {m : Item} (h : Named m (str "data")) : Place.root.sub m = .data := by
  have hne : foldName (str "data") ≠ foldName (str "head") := by decide +kernel
  have hhead : ¬ Named m (str "head") := fun hh => hne (Option.some.inj (h.symm.trans hh))
  rw [Place.sub, if_neg fun hc => hhead hc.2, if_pos ⟨rfl, h⟩]

theorem exec_dispatch_near {t t' : Item} (h : Near .root t t') (msgId : BitVec 32) (a : App) :
    exec (dispatch t' msgId) a = exec (dispatch t msgId) a := by
  have hdata := h.finds (str "data") (by simp [Place.names])
  rw [exec_dispatch, exec_dispatch]
  generalize getObjectItem t (str "data") = o, getObjectItem t' (str "data") = o' at hdata ⊢
  cases hdata with
  | nothing => rfl
  | near hname hd =>
    rw [sub_data hname] at hd
    simp only [exec_storeData_near hd]

theorem exec_parseHead_near {t t' head head' : Item} (h : Near .root t t')
    (hhead : Near .head head head') (a : App) :
    exec (parseHead t' head') a = exec (parseHead t head) a := by
  have hid := hhead.finds (str "msg_id") (by simp [Place.names, headNames])
  have hno := hhead.finds (str "msg_no") (by simp [Place.names, headNames])
  have htime := hhead.finds (str "timestamp") (by simp [Place.names, headNames])
  rw [exec_parseHead, exec_parseHead]
  generalize getObjectItem head (str "msg_id") = o, getObjectItem head' (str "msg_id") = o'
    at hid ⊢
  generalize getObjectItem head (str "msg_no") = q, getObjectItem head' (str "msg_no") = q'
    at hno ⊢
  generalize getObjectItem head (str "timestamp") = r, getObjectItem head' (str "timestamp") = r'
    at htime ⊢
  cases hid with
  | nothing => rfl
  | near _ hid =>
    cases hno with
    | nothing => rfl
    | near _ _ =>
      cases htime with
      | nothing => rfl
      | near _ _ => simp only [hid.valueint, exec_dispatch_near h]

/-- `json_parse` after `cJSON_ParseWithLength`, by the tree alone. -/
def outcome (tree : Option Item) (a : App) : Except Fault Int × App :=
  match tree with
  | none => (.ok 0, a)
  | some root =>
    match getObjectItem root (str "head") with
    | none => (.ok 0, { a with deleted := a.deleted + 1 })
    | some headItem =>
      match exec (parseHead root headItem) a with
      | (.ok (), a') => (.ok 0, { a' with deleted := a'.deleted + 1 })
      | (.error e, a') => (.error e, a')

/-- One change makes no difference to the call. -/
theorem outcome_near {t t' : Item} (h : Near .root t t') (a : App) :
    outcome (some t') a = outcome (some t) a := by
  have hhead := h.finds (str "head") (by simp [Place.names])
  rw [outcome, outcome]
  generalize getObjectItem t (str "head") = o, getObjectItem t' (str "head") = o' at hhead ⊢
  cases hhead with
  | nothing => rfl
  | near hname hm =>
    rw [sub_head hname] at hm
    simp only [exec_parseHead_near h hm]

/-- The messages differ in changes that a command does not depend on. -/
def SameCommand (buf buf' : List Byte) : Prop :=
  ∃ t t', parseWithLength buf = some t ∧ parseWithLength buf' = some t' ∧
    Relation.ReflTransGen (Edit .root) t t'

theorem outcome_edits {t t' : Item} (h : Relation.ReflTransGen (Edit .root) t t') (a : App) :
    outcome (some t') a = outcome (some t) a := by
  induction h with
  | refl => rfl
  | tail _ hlast ih => exact (outcome_near (.inr hlast) a).trans ih

/-- **What `json_parse` does** with a message all of whose lookups succeed: what the
reference says, with the tree given back once, and the same for every message that
differs in other members or in the order of members of different names. -/
theorem jsonParse_dispatches {buf : List Byte} (h : LookupsSucceed buf) (a : App) :
    exec (jsonParse buf) a = (.ok 0, { a with
        mqttCmd := reference (parseWithLength buf) a.mqttCmd
        deleted := a.deleted + released (parseWithLength buf) }) ∧
      ∀ buf', SameCommand buf buf' → exec (jsonParse buf') a = exec (jsonParse buf) a := by
  refine ⟨exec_jsonParse_eq h a, ?_⟩
  rintro buf' ⟨t, t', ht, ht', hedits⟩
  have hrun := outcome_edits hedits a
  rw [← ht, ← ht'] at hrun
  rw [exec_jsonParse, exec_jsonParse]
  exact hrun

/-- An order with a member that nothing looks up, and names in other letters. -/
def order : List Byte :=
  message "\x7b\"x\":0,\"SWITCH\":1,\"variable_val_0\":2,\"Variable_Val_1\":3,\"Variable_Val_2\":4\x7d"

def held : App := ⟨⟨7, 8, 9, 10⟩, 0⟩

theorem lookupsSucceed_order : LookupsSucceed order :=
  lookupsSucceed_of_ok (a := held) (by decide +kernel)

theorem jsonParse_dispatches_order :
    exec (jsonParse order) held = (.ok 0, { held with
      mqttCmd := reference (parseWithLength order) held.mqttCmd
      deleted := held.deleted + released (parseWithLength order) }) :=
  (jsonParse_dispatches lookupsSucceed_order held).1

example : (exec (jsonParse order) held).2.mqttCmd = ⟨1, 2, 3, 4⟩ := by decide +kernel

end MqttDevice.Dispatch
