import MqttDevice.Lwip.Timers

/-!
# The timers of the stack (`timeouts.c`)

Which timers there are does not depend on when they are due. A `Roster` has the timers that wait and
the handler that is being called, without their times.

* `Roster.Moves`: what an event does to the roster;
* `Agenda.moves`, `Stack.moves`: the agenda and the program do that, the program however late it is;
* `Roster.Kept.moves`: each timer of the stack stays there once;
* `stack_timers`: so it is in every run of the program.
-/

namespace MqttDevice.Timers

open MqttDevice.Links MqttDevice.Lwip MqttDevice.Machine MqttDevice.Tick

variable {κ : Type*}

def isOther : Handler κ → Bool
  | .other _ => true
  | _ => false

/-- The handlers that wait, the one that is being called, and what is known of the connections. -/
structure Roster (κ : Type*) where
  waiting : List (Handler κ)
  calling : List (Handler κ)
  active : Bool
  tcpPcbs : Bool

namespace Roster

variable {r r' : Roster κ} {h : Handler κ}

/-- A handler is set to be called, if there is a cell for it. -/
structure Enters (h : Handler κ) (r r' : Roster κ) : Prop where
  waiting : r'.waiting.Perm
    (if r.waiting.length < mempNumSysTimeout then h :: r.waiting else r.waiting)
  calling : r'.calling = r.calling
  active : r'.active = r.active
  tcpPcbs : r'.tcpPcbs = r.tcpPcbs

/-- The end of a handler. -/
def Finishes (r : Roster κ) : Handler κ → Roster κ → Prop
  | .lwipCyclicTimer c, r' => r.Enters (.lwipCyclicTimer c) r'
  | .tcpipTcpTimer, r' =>
    if r.tcpPcbs then r.Enters .tcpipTcpTimer r' else r' = { r with active := false }
  | .other _, r' => r' = r

/-- A round calls a handler that waits, or calls none; which of them it is depends on the times. -/
def Moves [DecidableEq κ] (r : Roster κ) : TimerEvent κ → Roster κ → Prop
  | .pass _, r' => r' = r
  | .timeout _ k, r' => r.Enters (.other k) r'
  | .untimeout k, r' => r' = { r with waiting := r.waiting.erase (.other k) }
  | .tcpReg alive, r' =>
    if ¬r.active ∧ (r.tcpPcbs || alive) then
      { r with tcpPcbs := true, active := true }.Enters .tcpipTcpTimer r'
    else r' = { r with tcpPcbs := r.tcpPcbs || alive }
  | .tcpRmv, r' => r' = { r with tcpPcbs := false }
  | .check, r' => r' = r
  | .round, r' =>
    r' = r ∨ r.calling = [] ∧ ∃ h l, r.waiting = h :: l ∧
      r' = { r with waiting := l, calling := [h] }
  | .ret, r' => r' = r ∨ ∃ h, r.calling = [h] ∧ { r with calling := [] }.Finishes h r'

theorem Enters.count_of_ne [DecidableEq κ] (he : r.Enters h r') {h' : Handler κ} (hne : h ≠ h') :
    r'.waiting.count h' = r.waiting.count h' := by
  rw [he.waiting.count_eq]
  split
  · exact List.count_cons_of_ne hne
  · rfl

/-- What neither sets nor cancels a timeout, nor calls a handler, leaves the timeout alone. -/
theorem count_other [DecidableEq κ] {e : TimerEvent κ} {k : κ} (hm : r.Moves e r')
    (hset : ∀ msecs, e ≠ .timeout msecs k) (hun : e ≠ .untimeout k) (hround : e ≠ .round) :
    r'.waiting.count (.other k) = r.waiting.count (.other k) := by
  cases e with
  | pass ms => rw [hm]
  | timeout msecs k' =>
    refine Enters.count_of_ne hm ?_
    rintro ⟨⟩
    exact hset msecs rfl
  | untimeout k' =>
    have hne : Handler.other k ≠ .other k' := by
      rintro ⟨⟩
      exact hun rfl
    rw [hm, List.count_erase_of_ne hne]
  | tcpReg alive =>
    rw [Moves] at hm
    split at hm
    · exact hm.count_of_ne nofun
    · rw [hm]
  | tcpRmv => rw [hm]
  | check => rw [hm]
  | round => exact absurd rfl hround
  | ret =>
    rcases hm with rfl | ⟨h, -, hf⟩
    · rfl
    · cases h with
      | lwipCyclicTimer c => exact Enters.count_of_ne hf nofun
      | tcpipTcpTimer =>
        rw [Finishes] at hf
        split at hf
        · exact hf.count_of_ne nofun
        · rw [hf]
      | other k' => rw [hf]

/-! ## What is kept -/

/-- How often a timer of the stack is there. -/
def expected (active : Bool) : Handler κ → Nat
  | .lwipCyclicTimer c => if c = .tcp then 0 else 1
  | .tcpipTcpTimer => if active then 1 else 0
  | .other _ => 0

theorem expected_le (active : Bool) (h : Handler κ) : expected active h ≤ 1 := by
  cases h with
  | lwipCyclicTimer c =>
    rw [expected]
    split <;> omega
  | tcpipTcpTimer =>
    rw [expected]
    split <;> omega
  | other k => exact Nat.zero_le 1

theorem expected_of_ne (hne : h ≠ .tcpipTcpTimer) (active active' : Bool) :
    expected active h = expected active' h := by
  cases h with
  | tcpipTcpTimer => exact absurd rfl hne
  | lwipCyclicTimer c => rfl
  | other k => rfl

/-- A timeout is set only while there are fewer than eight that are not of the stack. -/
def Modest (r : Roster κ) (e : TimerEvent κ) : Prop :=
  e.msecs ≠ none → r.waiting.countP isOther < 8

instance (r : Roster κ) (e : TimerEvent κ) : Decidable (r.Modest e) :=
  inferInstanceAs (Decidable (_ → _))

variable [DecidableEq κ]

/-- Each timer of the stack is there once, that of TCP while it is active; `missing` are those that
are to be entered yet. -/
structure Lacks (missing : List (Handler κ)) (r : Roster κ) : Prop where
  others : r.waiting.countP isOther ≤ 8
  timers : ∀ h, isOther h = false →
    (missing ++ r.calling ++ r.waiting).count h = expected r.active h
  needed : r.tcpPcbs = true → r.active = true

abbrev Kept (r : Roster κ) : Prop := r.Lacks []

theorem length_eq_counts (l : List (Handler κ)) :
    l.length = l.countP isOther + l.count (.lwipCyclicTimer .tcp) +
      l.count (.lwipCyclicTimer .ipReass) + l.count (.lwipCyclicTimer .etharp) +
      l.count .tcpipTcpTimer := by
  induction l with
  | nil => rfl
  | cons h l ih =>
    rw [List.length_cons, ih]
    rcases h with (_ | _ | _) | _ | k <;> simp [isOther, List.countP_cons] <;> omega

/-- There are no more of the stack than three, and fewer while one of them is missing. -/
theorem Lacks.room (hr : r.Lacks [h]) (hh : isOther h = false) :
    r.waiting.length < mempNumSysTimeout := by
  have hle : ∀ h', isOther h' = false → (if h = h' then 1 else 0) + r.waiting.count h' ≤
      expected r.active h' := by
    intro h' hh'
    have hcount := hr.timers h' hh'
    rw [List.count_append, List.count_append, List.count_singleton] at hcount
    simp only [beq_iff_eq] at hcount
    omega
  have htcp := hle (.lwipCyclicTimer .tcp) rfl
  have hip := hle (.lwipCyclicTimer .ipReass) rfl
  have harp := hle (.lwipCyclicTimer .etharp) rfl
  have htimer := (hle .tcpipTcpTimer rfl).trans (expected_le ..)
  have hothers := hr.others
  rw [length_eq_counts, mempNumSysTimeout, lwipNumSysTimeoutInternal]
  rcases h with (_ | _ | _) | _ | k
  · simp [expected] at htcp
  · simp [expected] at htcp hip harp htimer
    omega
  · simp [expected] at htcp hip harp htimer
    omega
  · simp [expected] at htcp hip harp htimer
    omega
  · cases hh

theorem Kept.room (hr : r.Kept) (hothers : r.waiting.countP isOther < 8) :
    r.waiting.length < mempNumSysTimeout := by
  have hle : ∀ h', isOther h' = false → r.waiting.count h' ≤ expected r.active h' := by
    intro h' hh'
    rw [← hr.timers h' hh']
    exact (List.sublist_append_right ..).count_le h'
  have htcp := hle (.lwipCyclicTimer .tcp) rfl
  have hip := hle (.lwipCyclicTimer .ipReass) rfl
  have harp := hle (.lwipCyclicTimer .etharp) rfl
  have htimer := (hle .tcpipTcpTimer rfl).trans (expected_le ..)
  rw [length_eq_counts, mempNumSysTimeout, lwipNumSysTimeoutInternal]
  simp [expected] at htcp hip harp
  omega

/-- The timer that is missing is entered. -/
theorem Lacks.enter (hr : r.Lacks [h]) (hh : isOther h = false) (he : r.Enters h r') :
    r'.Kept := by
  have hperm := he.waiting
  rw [if_pos (hr.room hh)] at hperm
  refine ⟨?_, fun h' hh' => ?_, by rw [he.tcpPcbs, he.active]; exact hr.needed⟩
  · rw [hperm.countP_eq, List.countP_cons_of_neg (by simp [hh])]
    exact hr.others
  · rw [he.active, ← hr.timers h' hh', he.calling, List.nil_append]
    have hmiddle : (r.calling ++ h :: r.waiting).Perm (h :: (r.calling ++ r.waiting)) :=
      List.perm_middle
    exact ((hperm.append_left r.calling).trans hmiddle).count_eq h'

/-- Another timeout is entered. -/
theorem Kept.enter (hr : r.Kept) {k : κ} (hothers : r.waiting.countP isOther < 8)
    (he : r.Enters (.other k) r') : r'.Kept := by
  have hperm := he.waiting
  rw [if_pos (hr.room hothers)] at hperm
  refine ⟨?_, fun h' hh' => ?_, by rw [he.tcpPcbs, he.active]; exact hr.needed⟩
  · rw [hperm.countP_eq, List.countP_cons_of_pos rfl]
    exact hothers
  · have hne : Handler.other k ≠ h' := by
      rintro rfl
      cases hh'
    rw [he.active, ← hr.timers h' hh', he.calling, List.count_append, hperm.count_eq,
      List.count_cons_of_ne hne, ← List.count_append]

/-- The handler that was called has returned. -/
theorem Kept.returned (hr : r.Kept) (hcalling : r.calling = [h]) :
    { r with calling := [] }.Lacks [h] := by
  refine ⟨hr.others, fun h' hh' => ?_, hr.needed⟩
  rw [← hr.timers h' hh', hcalling]
  rfl

theorem Kept.ret (hr : r.Kept) (hcalling : r.calling = [h])
    (hf : { r with calling := [] }.Finishes h r') : r'.Kept := by
  have hlacks := hr.returned hcalling
  cases h with
  | lwipCyclicTimer c => exact hlacks.enter rfl hf
  | tcpipTcpTimer =>
    rw [Finishes] at hf
    split at hf
    · exact hlacks.enter rfl hf
    · rename_i hpcbs
      subst hf
      refine ⟨hr.others, fun h' hh' => ?_, fun htcp => absurd htcp hpcbs⟩
      have hcount := hlacks.timers h' hh'
      rw [List.append_nil, List.count_append] at hcount
      by_cases htcp : h' = .tcpipTcpTimer
      · subst htcp
        have hle := expected_le r.active (.tcpipTcpTimer : Handler κ)
        rw [List.count_singleton_self] at hcount
        show r.waiting.count .tcpipTcpTimer = 0
        dsimp only at hcount
        omega
      · rw [List.count_cons_of_ne (Ne.symm htcp), List.count_nil, Nat.zero_add] at hcount
        exact hcount.trans (expected_of_ne htcp r.active false)
  | other k =>
    subst hf
    refine ⟨hr.others, fun h' hh' => ?_, hr.needed⟩
    have hne : Handler.other k ≠ h' := by
      rintro rfl
      cases hh'
    rw [← hlacks.timers h' hh']
    exact (List.count_cons_of_ne hne).symm

/-- **Every event keeps the timers of the stack.** -/
theorem Kept.moves (hr : r.Kept) {e : TimerEvent κ} (he : r.Modest e) (hm : r.Moves e r') :
    r'.Kept := by
  cases e with
  | pass ms => exact hm ▸ hr
  | timeout msecs k => exact hr.enter (he (Option.some_ne_none msecs)) hm
  | untimeout k =>
    subst hm
    have hsub := List.erase_sublist (a := Handler.other k) (l := r.waiting)
    refine ⟨hsub.countP_le.trans hr.others, fun h' hh' => ?_, hr.needed⟩
    have hne : h' ≠ Handler.other k := by
      rintro rfl
      cases hh'
    rw [← hr.timers h' hh', List.count_append, List.count_erase_of_ne hne, ← List.count_append]
  | tcpReg alive =>
    rw [Moves] at hm
    split at hm
    · rename_i hneeded
      have hidle : r.active = false := Bool.eq_false_iff.mpr hneeded.1
      have hlacks : Lacks [.tcpipTcpTimer] { r with tcpPcbs := true, active := true } := by
        refine ⟨hr.others, fun h' hh' => ?_, fun _ => rfl⟩
        have hcount := hr.timers h' hh'
        rw [hidle, List.nil_append] at hcount
        rw [List.append_assoc, List.count_append, hcount]
        by_cases htcp : h' = .tcpipTcpTimer
        · rw [htcp, List.count_singleton_self]
          rfl
        · rw [List.count_cons_of_ne (Ne.symm htcp), List.count_nil, Nat.zero_add]
          exact expected_of_ne htcp false true
      exact hlacks.enter rfl hm
    · rename_i hnot
      subst hm
      refine ⟨hr.others, hr.timers, fun h => ?_⟩
      by_contra hidle
      exact hnot ⟨hidle, h⟩
  | tcpRmv =>
    subst hm
    exact ⟨hr.others, hr.timers, nofun⟩
  | check => exact hm ▸ hr
  | round =>
    rcases hm with rfl | ⟨hcalling, h, l, hwaiting, rfl⟩
    · exact hr
    · have hothers := hr.others
      rw [hwaiting] at hothers
      refine ⟨(List.sublist_cons_self h l).countP_le.trans hothers, fun h' hh' => ?_, hr.needed⟩
      rw [← hr.timers h' hh', hcalling, hwaiting]
      rfl
  | ret =>
    rcases hm with rfl | ⟨h, hcalling, hf⟩
    · exact hr
    · exact hr.ret hcalling hf

end Roster

/-! ## The agenda -/

namespace Agenda

variable {a : Agenda κ}

def roster (a : Agenda κ) : Roster κ :=
  ⟨a.pending.map Prod.fst, a.checking.handler, a.active, a.tcpPcbs⟩

theorem enters (a : Agenda κ) (h : Handler κ) (t : Nat) :
    a.roster.Enters h (a.enter h t).roster := by
  rw [enter_eq]
  refine ⟨?_, rfl, rfl, rfl⟩
  show ((a.enter h t).pending.map Prod.fst).Perm
    (if (a.pending.map Prod.fst).length < mempNumSysTimeout then h :: a.pending.map Prod.fst
      else a.pending.map Prod.fst)
  rw [List.length_map, enter]
  split
  · exact (List.perm_orderedInsert Before (h, t) a.pending).map Prod.fst
  · exact .refl _

theorem finishes (a : Agenda κ) (now : Nat) (h : Handler κ) :
    { a.roster with calling := [] }.Finishes h
      { a.finish h with checking := .between now }.roster := by
  cases h with
  | lwipCyclicTimer c =>
    obtain ⟨hwaiting, -, hactive, hpcbs⟩ := a.enters (.lwipCyclicTimer c)
      (if a.due + c.intervalMs < a.clock then a.clock + c.intervalMs else a.due + c.intervalMs)
    exact ⟨hwaiting, rfl, hactive, hpcbs⟩
  | tcpipTcpTimer =>
    obtain ⟨hwaiting, -, hactive, hpcbs⟩ := a.enters .tcpipTcpTimer (a.clock + tcpTmrInterval)
    rw [Roster.Finishes, finish]
    by_cases htcp : a.tcpPcbs = true
    · rw [if_pos htcp]
      refine (if_pos htcp).mpr ⟨hwaiting, rfl, hactive, hpcbs⟩
    · rw [if_neg htcp]
      exact (if_neg htcp).mpr rfl
  | other k => rfl

variable [DecidableEq κ]

/-- **What a round does**: it calls the first handler, if that has expired, or ends the check. -/
theorem round_cases (a : Agenda κ) :
    (∃ now h t l, a.checking = .between now ∧ a.pending = (h, t) :: l ∧ t ≤ now ∧
      a.step .round = (some (h, uwTick t),
        { a with pending := l, due := t, checking := .calling now h })) ∨
    (∃ now, a.checking = .between now ∧ (∀ x ∈ a.pending.head?, now < x.2) ∧
      a.step .round = (none, { a with checking := .idle })) ∨
    (a.checking.reading = none ∨ ∃ now h, a.checking = .calling now h) ∧
      a.step .round = (none, a) := by
  cases hc : a.checking with
  | idle => exact .inr (.inr ⟨.inl rfl, by simp only [step, hc]⟩)
  | calling now h => exact .inr (.inr ⟨.inr ⟨now, h, rfl⟩, by simp only [step, hc]⟩)
  | between now =>
    cases hl : a.pending with
    | nil => exact .inr (.inl ⟨now, rfl, by rintro _ ⟨⟩, by simp only [step, hc, hl]⟩)
    | cons x l =>
      by_cases hlt : now < x.2
      · refine .inr (.inl ⟨now, rfl, ?_, by simp only [step, hc, hl, hlt, if_true]⟩)
        rintro _ ⟨⟩
        exact hlt
      · refine .inl ⟨now, x.1, x.2, l, rfl, rfl, Nat.le_of_not_lt hlt, ?_⟩
        simp only [step, hc, hl, hlt, if_false]

theorem moves (a : Agenda κ) (e : TimerEvent κ) : a.roster.Moves e (a.step e).2.roster := by
  cases e with
  | pass ms => rfl
  | timeout msecs k => exact a.enters ..
  | untimeout k =>
    have herase : (a.pending.eraseP fun x => x.1 = .other k).map Prod.fst =
        (a.pending.map Prod.fst).erase (.other k) := by
      rw [List.erase_eq_eraseP', List.eraseP_map]
      rfl
    exact congrArg (fun l => (⟨l, a.checking.handler, a.active, a.tcpPcbs⟩ : Roster κ)) herase
  | tcpReg alive =>
    rw [step]
    by_cases hneeded : ¬a.active ∧ (a.tcpPcbs || alive)
    · rw [if_pos hneeded]
      exact (if_pos hneeded).mpr (enters { a with tcpPcbs := true, active := true } ..)
    · rw [if_neg hneeded]
      exact (if_neg hneeded).mpr rfl
  | tcpRmv => rfl
  | check =>
    simp only [step]
    split
    · rename_i hidle
      simp [Roster.Moves, roster, hidle, Checking.handler]
    · rfl
  | round =>
    rcases a.round_cases with ⟨now, h, t, l, hc, hl, -, hround⟩ | ⟨now, hc, -, hround⟩ | ⟨-, hround⟩
    · rw [hround]
      refine .inr ⟨by rw [roster, hc]; rfl, h, l.map Prod.fst, by rw [roster, hl]; rfl, rfl⟩
    · rw [hround]
      refine .inl ?_
      simp [roster, hc, Checking.handler]
    · rw [hround]
      exact .inl rfl
  | ret =>
    simp only [step]
    split
    · rename_i now h hc
      exact .inr ⟨h, by rw [roster, hc]; rfl, a.finishes now h⟩
    · exact .inl rfl

theorem kept_start (t : Nat) : (start t : Agenda κ).roster.Kept := by
  refine ⟨?_, fun h hh => ?_, nofun⟩
  · simp [roster, start, isOther]
  · rcases h with (_ | _ | _) | _ | k
    · rfl
    · rfl
    · rfl
    · rfl
    · cases hh

end Agenda

/-! ## The program -/

namespace Stack

variable {s : Stack κ}

/-- The handlers that wait, in the order of the list. -/
def waiting (s : Stack κ) : List (Handler κ) :=
  (walk s.timeouts.next mempNumSysTimeout s.timeouts.nextTimeout).map fun i =>
    (s.timeouts.memory i).h

def roster (s : Stack κ) : Roster κ :=
  ⟨s.waiting, s.checking.handler, s.tcpipTcpTimerActive, s.tcpPcbs⟩

/-- The lists of the timeouts and of the free cells are in order, whatever the times are. -/
def Linked (s : Stack κ) : Prop := ∃ slots free, s.timeouts.Holds slots free

theorem waiting_eq {slots free : List Nat} (h : s.timeouts.Holds slots free) :
    s.waiting = (s.timeouts.items slots).map Prod.fst := by
  rw [waiting, h.links.walk_eq h.length_le, Timeouts.items, List.map_map]
  rfl

theorem Linked.enters (hs : s.Linked) (absTime : BitVec 32) (h : Handler κ) :
    ∃ t, s.abs absTime h = some t ∧ t.Linked ∧ s.roster.Enters h t.roster := by
  obtain ⟨slots, free, hholds⟩ := hs
  obtain ⟨t', slots', free', habs, hholds', hitems⟩ := Timeouts.abs_items hholds absTime h
  refine ⟨{ s with timeouts := t' }, by rw [abs, habs]; rfl, ⟨slots', free', hholds'⟩, ?_, rfl, rfl,
    rfl⟩
  have hlen : s.waiting.length = slots.length := by
    rw [waiting_eq hholds, Timeouts.items, List.length_map, List.length_map]
  show (waiting { s with timeouts := t' }).Perm
    (if s.waiting.length < mempNumSysTimeout then h :: s.waiting else s.waiting)
  rw [waiting_eq (s := { s with timeouts := t' }) hholds', hitems, hlen, waiting_eq hholds]
  split
  · exact (List.perm_orderedInsert Timeouts.Earlier (h, absTime) _).map Prod.fst
  · exact .refl _

theorem Linked.finishes (hs : s.Linked) (now : BitVec 32) (h : Handler κ) :
    ∃ t, (Timers.finish s h).map (fun t => { t with checking := .between now }) = some t ∧
      t.Linked ∧ { s.roster with calling := [] }.Finishes h t.roster := by
  cases h with
  | lwipCyclicTimer c =>
    obtain ⟨t, ht, hlinked, hwaiting, -, hactive, hpcbs⟩ := hs.enters
      (if timeLessThan (s.currentTimeoutDueTime + BitVec.ofNat 32 c.intervalMs) s.sysNow then
        s.sysNow + BitVec.ofNat 32 c.intervalMs
      else s.currentTimeoutDueTime + BitVec.ofNat 32 c.intervalMs) (.lwipCyclicTimer c)
    refine ⟨{ t with checking := .between now }, ?_, hlinked, hwaiting, rfl, hactive, hpcbs⟩
    rw [Timers.finish, lwipCyclicTimer]
    split at ht
    · rename_i hlate
      rw [if_pos hlate, ht]
      rfl
    · rename_i hontime
      rw [if_neg hontime, ht]
      rfl
  | tcpipTcpTimer =>
    rw [Timers.finish, tcpipTcpTimer]
    by_cases htcp : s.tcpPcbs = true
    · obtain ⟨t, ht, hlinked, hwaiting, -, hactive, hpcbs⟩ := hs.enters
        (s.sysNow + BitVec.ofNat 32 tcpTmrInterval) .tcpipTcpTimer
      refine ⟨{ t with checking := .between now }, ?_, hlinked,
        (if_pos htcp).mpr ⟨hwaiting, rfl, hactive, hpcbs⟩⟩
      rw [if_pos htcp, sysTimeout, ht]
      rfl
    · rw [if_neg htcp]
      exact ⟨_, rfl, hs, (if_neg htcp).mpr rfl⟩
  | other k => exact ⟨_, rfl, hs, rfl⟩

variable [DecidableEq κ]

/-- **A step of the program** moves its roster; how late it is does not matter. -/
theorem moves (hs : s.Linked) (e : TimerEvent κ) :
    ∃ o t, timerStep s e = some (o, t) ∧ t.Linked ∧ s.roster.Moves e t.roster := by
  cases e with
  | pass ms => exact ⟨_, _, rfl, hs, rfl⟩
  | timeout msecs k =>
    obtain ⟨t, ht, hlinked, henters⟩ :=
      hs.enters (s.sysNow + BitVec.ofNat 32 msecs) (.other k)
    refine ⟨none, t, ?_, hlinked, henters⟩
    rw [timerStep, sysTimeout, ht]
    rfl
  | untimeout k =>
    obtain ⟨slots, free, hholds⟩ := hs
    obtain ⟨t', slots', free', hun, hholds', hitems⟩ :=
      Timeouts.untimeout_items hholds (.other k)
    refine ⟨none, { s with timeouts := t' }, by rw [timerStep, hun]; rfl, ⟨slots', free', hholds'⟩,
      ?_⟩
    have herase : waiting { s with timeouts := t' } = s.waiting.erase (.other k) := by
      rw [waiting_eq (s := { s with timeouts := t' }) hholds', hitems, waiting_eq hholds,
        List.erase_eq_eraseP', List.eraseP_map]
      rfl
    exact congrArg (fun l => (⟨l, s.checking.handler, s.tcpipTcpTimerActive, s.tcpPcbs⟩ : Roster κ))
      herase
  | tcpReg alive =>
    by_cases hneeded : ¬s.tcpipTcpTimerActive ∧ (s.tcpPcbs || alive)
    · have hlinked : Linked { s with tcpPcbs := true, tcpipTcpTimerActive := true } := hs
      obtain ⟨t, ht, hlinked, henters⟩ := hlinked.enters
        (s.sysNow + BitVec.ofNat 32 tcpTmrInterval) .tcpipTcpTimer
      refine ⟨none, t, ?_, hlinked, (if_pos hneeded).mpr henters⟩
      rw [timerStep, tcpTimerNeeded, if_pos hneeded, hneeded.2]
      exact congrArg (Option.map (none, ·)) ht
    · refine ⟨none, { s with tcpPcbs := s.tcpPcbs || alive }, ?_, hs, (if_neg hneeded).mpr rfl⟩
      rw [timerStep, tcpTimerNeeded, if_neg hneeded]
      rfl
  | tcpRmv => exact ⟨_, _, rfl, hs, rfl⟩
  | check =>
    cases hc : s.checking with
    | idle =>
      refine ⟨none, { s with checking := .between s.sysNow }, by rw [timerStep, hc], hs, ?_⟩
      rw [Roster.Moves, roster, roster, hc]
      rfl
    | between now => exact ⟨none, s, by rw [timerStep, hc], hs, rfl⟩
    | calling now h => exact ⟨none, s, by rw [timerStep, hc], hs, rfl⟩
  | round =>
    cases hc : s.checking with
    | idle => exact ⟨none, s, by rw [timerStep, hc], hs, .inl rfl⟩
    | calling now h => exact ⟨none, s, by rw [timerStep, hc], hs, .inl rfl⟩
    | between now =>
      obtain ⟨slots, free, hholds⟩ := hs
      rcases Timeouts.pop_items hholds now with ⟨hpop, -⟩ |
        ⟨x, l, t', slots', free', hpop, hcons, -, hholds', hitems⟩
      · refine ⟨none, { s with checking := .idle }, by simp only [timerStep, hc, hpop],
          ⟨slots, free, hholds⟩, .inl ?_⟩
        rw [roster, roster, hc]
        rfl
      · refine ⟨_, { s with
          timeouts := t', currentTimeoutDueTime := x.2, checking := .calling now x.1 },
          by simp only [timerStep, hc, hpop]; rfl, ⟨slots', free', hholds'⟩,
          .inr ⟨by rw [roster, hc]; rfl, x.1, l.map Prod.fst, ?_, ?_⟩⟩
        · rw [roster, waiting_eq hholds, hcons, List.map_cons]
        · have hrest : waiting { s with
              timeouts := t', currentTimeoutDueTime := x.2, checking := .calling now x.1 } =
              l.map Prod.fst := by
            rw [waiting_eq (s := { s with
              timeouts := t', currentTimeoutDueTime := x.2, checking := .calling now x.1 }) hholds',
              hitems]
          rw [roster, hrest]
          rfl
  | ret =>
    cases hc : s.checking with
    | idle => exact ⟨none, s, by rw [timerStep, hc], hs, .inl rfl⟩
    | between now => exact ⟨none, s, by rw [timerStep, hc], hs, .inl rfl⟩
    | calling now h =>
      obtain ⟨t, ht, hlinked, hfinishes⟩ := hs.finishes now h
      obtain ⟨u, hu, rfl⟩ := Option.map_eq_some_iff.mp ht
      refine ⟨none, _, ?_, hlinked, .inr ⟨h, by rw [roster, hc]; rfl, hfinishes⟩⟩
      simp only [timerStep, hc, hu]
      rfl

end Stack

theorem Represents.waiting {s : Stack κ} {a : Agenda κ} (h : Represents s a) :
    s.waiting = a.pending.map Prod.fst := by
  obtain ⟨slots, free, hholds, hitems⟩ := h.list
  rw [Stack.waiting_eq hholds, hitems, List.map_map]
  rfl

theorem Represents.roster {s : Stack κ} {a : Agenda κ} (h : Represents s a) :
    s.roster = a.roster := by
  rw [Stack.roster, Agenda.roster, h.waiting, h.checking, h.active, h.tcpPcbs]
  cases a.checking <;> rfl

theorem Represents.linked {s : Stack κ} {a : Agenda κ} (h : Represents s a) : s.Linked := by
  obtain ⟨slots, free, hholds, -⟩ := h.list
  exact ⟨slots, free, hholds⟩

variable [DecidableEq κ]

/-- **No timer of the stack is lost or doubled**, and the pool suffices for them, as long as there
are eight other timeouts at most, and however late they are: those of IP reassembly and of ARP are
there once, and that of TCP is there once while it is active, which it is while there are active or
time-wait connections. -/
theorem stack_timers (memory : Nat → SysTimeo κ) (tab : Option Nat) (t : Nat)
    {es : List (TimerEvent κ)}
    (h : ∀ s₀ ∈ (Stack.boot memory tab t).sysTimeoutsInit,
      StateAlong timerStep (fun s e => s.roster.Modest e) s₀ es) :
    ∃ s₀ log s, (Stack.boot memory tab t).sysTimeoutsInit = some s₀ ∧
      run timerStep s₀ es = some (log, s) ∧
      (∀ c, (s.checking.handler ++ s.waiting).count (.lwipCyclicTimer c) =
        if c = .tcp then 0 else 1) ∧
      (s.checking.handler ++ s.waiting).count .tcpipTcpTimer =
        (if s.tcpipTcpTimerActive then 1 else 0) ∧
      (s.tcpPcbs = true → s.tcpipTcpTimerActive = true) := by
  obtain ⟨s₀, hinit, hrep⟩ := init_represents memory tab t
  have hstart : s₀.roster.Kept := hrep.roster ▸ Agenda.kept_start t
  obtain ⟨log, s, hrun, -, hkept⟩ := run_inv
    (I := fun s : Stack κ => s.Linked ∧ s.roster.Kept) (fun s e hI hG => by
      obtain ⟨o, u, hstep, hlinked, hmoves⟩ := Stack.moves hI.1 e
      exact ⟨o, u, hstep, hlinked, hI.2.moves hG hmoves⟩) ⟨hrep.linked, hstart⟩ (h s₀ hinit)
  exact ⟨s₀, log, s, hinit, hrun, fun c => hkept.timers (.lwipCyclicTimer c) rfl,
    hkept.timers .tcpipTcpTimer rfl, hkept.needed⟩

/-- A check that comes later than the counter can tell. -/
def farTooLate : List (TimerEvent Nat) :=
  [.tcpReg true, .timeout 500 7, .pass (2 ^ 31 + 600), .check, .round, .ret, .round, .ret, .round]

theorem stack_timers_farTooLate :
    ∃ s₀ log s, (Stack.boot (fun _ => ⟨none, 0, .other 0⟩) none 0).sysTimeoutsInit = some s₀ ∧
      run timerStep s₀ farTooLate = some (log, s) ∧
      (∀ c, (s.checking.handler ++ s.waiting).count (.lwipCyclicTimer c) =
        if c = .tcp then 0 else 1) ∧
      (s.checking.handler ++ s.waiting).count .tcpipTcpTimer =
        (if s.tcpipTcpTimerActive then 1 else 0) ∧
      (s.tcpPcbs = true → s.tcpipTcpTimerActive = true) :=
  stack_timers _ _ 0 (by decide +kernel)

end MqttDevice.Timers
