import MqttDevice.Lwip.StackTimers

/-!
# What the timers guarantee (`timeouts.c`)

* `timeout_law`: a handler is not called before its time, not skipped by a check, and called once
  unless it is cancelled;
* `cyclic_no_drift`: a cyclic timer keeps its grid, and a check makes all of its calls that are due.
-/

namespace MqttDevice.Timers

open MqttDevice.Links MqttDevice.Lwip MqttDevice.Machine MqttDevice.Tick

variable {κ : Type*} [DecidableEq κ]

/-- `current_timeout_due_time`, in a call of this handler. -/
def callOf (h : Handler κ) (x : TimerEvent κ × Called κ) : Option (BitVec 32) :=
  x.2.bind fun y => if y.1 = h then some y.2 else none

omit [DecidableEq κ] in
theorem Represents.idle {s : Stack κ} {a : Agenda κ} (h : Represents s a)
    (hs : s.checking = .idle) : a.checking = .idle := by
  have hstamp := h.checking
  rw [hs] at hstamp
  cases hc : a.checking with
  | idle => rfl
  | between now =>
    rw [hc] at hstamp
    cases hstamp
  | calling now handler =>
    rw [hc] at hstamp
    cases hstamp

omit [DecidableEq κ] in
/-- A cell is free. -/
theorem Represents.room {s : Stack κ} {a : Agenda κ} (h : Represents s a)
    (htab : s.timeouts.tab ≠ none) : a.pending.length < mempNumSysTimeout := by
  obtain ⟨slots, free, hholds, hitems⟩ := h.list
  have hlen := congrArg List.length hitems
  rw [Timeouts.items, List.length_map, List.length_map] at hlen
  rw [← hlen, ← hholds.length]
  cases free with
  | nil => exact absurd hholds.freeLinks htab
  | cons i free =>
    rw [List.length_cons]
    omega

/-! ## A timeout -/

/-- The event does not set this timeout. -/
def Without (k : κ) (e : TimerEvent κ) : Prop := ∀ msecs, e ≠ .timeout msecs k

/-- How much time passes. -/
def TimerEvent.ms : TimerEvent κ → Nat
  | .pass ms => ms
  | _ => 0

def elapsed (es : List (TimerEvent κ)) : Nat := (es.map TimerEvent.ms).sum

namespace Agenda

variable {a : Agenda κ}

theorem step_clock (a : Agenda κ) (e : TimerEvent κ) : (a.step e).2.clock = a.clock + e.ms := by
  cases e with
  | pass ms => rfl
  | timeout msecs k => exact a.enter_clock ..
  | untimeout k => rfl
  | tcpReg alive =>
    simp only [step]
    split
    · exact enter_clock ..
    · rfl
  | tcpRmv => rfl
  | check =>
    simp only [step]
    split <;> rfl
  | round =>
    simp only [step]
    split
    · split <;> rfl
    · rfl
    · rfl
  | ret =>
    simp only [step]
    split
    · exact a.finish_clock _
    · rfl

theorem run_clock (a : Agenda κ) (es : List (TimerEvent κ)) :
    (specRun step a es).2.clock = a.clock + elapsed es := by
  induction es generalizing a with
  | nil => rfl
  | cons e es ih =>
    rw [specRun, ih, step_clock, elapsed, elapsed, List.map_cons, List.sum_cons, Nat.add_assoc]

/-- **A check goes on** until the first handler that waits is not due yet. -/
theorem check_goes_on (a : Agenda κ) (e : TimerEvent κ) :
    a.checking = .idle ∨ (a.step e).2.checking.reading = a.checking.reading ∨
      ∃ now, a.checking = .between now ∧ (∀ x ∈ a.pending.head?, now < x.2) ∧
        (a.step e).2 = { a with checking := .idle } := by
  by_cases hidle : a.checking = .idle
  · exact .inl hidle
  refine .inr ?_
  cases e with
  | pass ms => exact .inl rfl
  | timeout msecs k =>
    refine .inl ?_
    simp only [step]
    rw [enter_eq]
  | untimeout k => exact .inl rfl
  | tcpReg alive =>
    refine .inl ?_
    simp only [step]
    split
    · rw [enter_eq]
    · rfl
  | tcpRmv => exact .inl rfl
  | check =>
    refine .inl ?_
    simp only [step]
  | round =>
    rcases a.round_cases with ⟨now, h, t, l, hc, hl, -, hround⟩ | ⟨now, hc, hhead, hround⟩ |
      ⟨-, hround⟩
    · exact .inl (by rw [hround, hc]; rfl)
    · exact .inr ⟨now, hc, hhead, by rw [hround]⟩
    · exact .inl (by rw [hround])
  | ret =>
    refine .inl ?_
    simp only [step]
    split
    · rename_i hc
      rw [hc]
      rfl
    · rfl

omit [DecidableEq κ] in
/-- If the first handler is not due yet, none is. -/
theorem Sound.later (hs : a.Sound) {now : Nat} (hhead : ∀ x ∈ a.pending.head?, now < x.2) :
    ∀ x ∈ a.pending, now < x.2 := by
  intro x hx
  have hsorted := hs.sorted
  cases hl : a.pending with
  | nil =>
    rw [hl] at hx
    cases hx
  | cons y l =>
    rw [hl] at hx hsorted hhead
    have hy := hhead y rfl
    rcases List.mem_cons.mp hx with rfl | hx
    · exact hy
    · exact hy.trans_le ((List.pairwise_cons.mp hsorted).1 x hx)

/-- What is entered in a step. -/
theorem mem_step {e : TimerEvent κ} {k : κ} (he : Without k e) {d : Nat}
    (h : (Handler.other k, d) ∈ (a.step e).2.pending) : (Handler.other k, d) ∈ a.pending := by
  cases e with
  | pass ms => exact h
  | timeout msecs k' =>
    rcases mem_enter h with heq | h
    · have hk : k' = k := (Handler.other.inj (congrArg Prod.fst heq)).symm
      exact absurd (hk ▸ rfl) (he msecs)
    · exact h
  | untimeout k' => exact List.mem_of_mem_eraseP h
  | tcpReg alive =>
    simp only [step] at h
    split at h
    · rcases mem_enter h with heq | h
      · cases heq
      · exact h
    · exact h
  | tcpRmv => exact h
  | check =>
    simp only [step] at h
    split at h <;> exact h
  | round =>
    rcases a.round_cases with ⟨now, h', t, l, -, hl, -, hround⟩ | ⟨now, -, -, hround⟩ | ⟨-, hround⟩
    · rw [hround] at h
      exact hl ▸ List.mem_cons_of_mem _ h
    · rwa [hround] at h
    · rwa [hround] at h
  | ret =>
    simp only [step] at h
    split at h
    · rename_i now h' hc
      cases h' with
      | lwipCyclicTimer c =>
        rcases mem_enter h with heq | h
        · cases heq
        · exact h
      | tcpipTcpTimer =>
        simp only [finish] at h
        split at h
        · rcases mem_enter h with heq | h
          · cases heq
          · exact h
        · exact h
      | other k' => exact h
    · exact h

/-- The timeout is due at that time, if it waits. -/
def DueAt (k : κ) (d : Nat) (a : Agenda κ) : Prop :=
  ∀ x ∈ a.pending, x.1 = .other k → x.2 = d

theorem DueAt.step {k : κ} {d : Nat} (h : a.DueAt k d) {e : TimerEvent κ} (he : Without k e) :
    (a.step e).2.DueAt k d := by
  rintro ⟨_, d'⟩ hx rfl
  exact h _ (mem_step he hx) rfl

/-- The check that goes on will call the handler, or the timeout does not wait any more. -/
def Caught (k : κ) (d : Nat) (a : Agenda κ) : Prop :=
  (∃ now ∈ a.checking.reading, d ≤ now) ∨ ∀ x ∈ a.pending, x.1 ≠ .other k

/-- **A check does not skip a timeout** that has expired when it begins. -/
theorem Caught.step {k : κ} {d : Nat} (h : a.Caught k d) (hs : a.Sound) (hdue : a.DueAt k d)
    {e : TimerEvent κ} (he : Without k e) : (a.step e).2.Caught k d := by
  rcases h with ⟨now, hnow, hle⟩ | hno
  · rcases a.check_goes_on e with hidle | hsame | ⟨now', hc, hhead, hend⟩
    · rw [hidle] at hnow
      cases hnow
    · exact .inl ⟨now, hsame ▸ hnow, hle⟩
    · obtain rfl : now' = now := by
        rw [hc] at hnow
        exact Option.some.inj hnow
      rw [hend]
      refine .inr fun x hx heq => ?_
      have hlater := hs.later hhead x hx
      have hxd := hdue x hx heq
      omega
  · refine .inr ?_
    rintro ⟨_, d'⟩ hx rfl
    exact hno _ (mem_step he hx) rfl

/-- How often the handler waits. -/
def loadOf (k : κ) (a : Agenda κ) : Nat := a.roster.waiting.count (.other k)

/-- Only a round calls a handler. -/
theorem step_quiet {e : TimerEvent κ} (he : e ≠ .round) : (a.step e).1 = none := by
  cases e with
  | round => exact absurd rfl he
  | pass ms => rfl
  | timeout msecs k => rfl
  | untimeout k => rfl
  | tcpReg alive => rfl
  | tcpRmv => rfl
  | check =>
    simp only [step]
    split <;> rfl
  | ret =>
    simp only [step]
    split <;> rfl

/-- **A handler waits until it is called**, or cancelled. -/
theorem loadOf_step {k : κ} {d : Nat} (hdue : a.DueAt k d) {e : TimerEvent κ} (he : Without k e) :
    (callOf (.other k) (e, (a.step e).1) = none ∧ (a.step e).2.loadOf k ≤ a.loadOf k ∧
        (e ≠ .untimeout k → (a.step e).2.loadOf k = a.loadOf k)) ∨
      (callOf (.other k) (e, (a.step e).1) = some (uwTick d) ∧
        (a.step e).2.loadOf k + 1 = a.loadOf k) := by
  by_cases hround : e = .round
  · subst hround
    rcases a.round_cases with ⟨now, h, t, l, hc, hl, -, hround⟩ | ⟨now, hc, -, hround⟩ | ⟨-, hround⟩
    · have hload : a.loadOf k =
          (l.map Prod.fst).count (.other k) + if h = .other k then 1 else 0 := by
        rw [loadOf, roster, hl, List.map_cons, List.count_cons]
        simp only [beq_iff_eq]
      rw [hround, hload]
      by_cases hh : h = .other k
      · have ht : t = d := hdue _ (hl ▸ List.mem_cons_self) hh
        refine .inr ⟨?_, by rw [if_pos hh]; rfl⟩
        rw [callOf, Option.bind_some, if_pos hh, ht]
      · rw [if_neg hh]
        refine .inl ⟨?_, Nat.le_refl _, fun _ => rfl⟩
        rw [callOf, Option.bind_some, if_neg hh]
    · rw [hround]
      exact .inl ⟨rfl, Nat.le_refl _, fun _ => rfl⟩
    · rw [hround]
      exact .inl ⟨rfl, Nat.le_refl _, fun _ => rfl⟩
  · have hquiet : callOf (.other k) (e, (a.step e).1) = none := by
      rw [callOf, step_quiet hround]
      rfl
    by_cases hun : e = .untimeout k
    · have hmoves := a.moves (.untimeout k)
      refine .inl ⟨hquiet, ?_, fun hne => absurd hun hne⟩
      rw [hun, loadOf, hmoves]
      exact (List.erase_sublist ..).count_le _
    · have hsame := Roster.count_other (a.moves e) he hun hround
      exact .inl ⟨hquiet, hsame.le, fun _ => hsame⟩

/-- The calls of a handler along a run. -/
theorem loadOf_run {k : κ} {d : Nat} (hdue : a.DueAt k d) {es : List (TimerEvent κ)}
    (hes : ∀ e ∈ es, Without k e) :
    ∃ n, (specRun step a es).1.filterMap (callOf (.other k)) = List.replicate n (uwTick d) ∧
      (specRun step a es).2.loadOf k + n ≤ a.loadOf k ∧
      (.untimeout k ∉ es → (specRun step a es).2.loadOf k + n = a.loadOf k) := by
  induction es generalizing a with
  | nil => exact ⟨0, rfl, Nat.le_refl _, fun _ => rfl⟩
  | cons e es ih =>
    obtain ⟨he, hes⟩ := List.forall_mem_cons.mp hes
    obtain ⟨n, hcalls, hle, heq⟩ := ih (hdue.step he) hes
    rw [specRun, List.filterMap_cons]
    rcases loadOf_step hdue he with ⟨hcall, hle', heq'⟩ | ⟨hcall, hone⟩
    · rw [hcall]
      refine ⟨n, hcalls, hle.trans hle', fun hnot => ?_⟩
      obtain ⟨hne, hnot⟩ := not_or.mp (List.mem_cons.not.mp hnot)
      exact (heq hnot).trans (heq' (Ne.symm hne))
    · rw [hcall]
      refine ⟨n + 1, by rw [hcalls]; rfl, by dsimp only; omega, fun hnot => ?_⟩
      obtain ⟨-, hnot⟩ := not_or.mp (List.mem_cons.not.mp hnot)
      have hrest := heq hnot
      dsimp only
      omega

end Agenda

/-- Before a timeout is set, it does not wait. -/
theorem loadOf_before (t : Nat) {k : κ} {es : List (TimerEvent κ)} (hes : ∀ e ∈ es, Without k e) :
    (specRun Agenda.step (Agenda.start t) es).1.filterMap (callOf (.other k)) = [] ∧
      (specRun Agenda.step (Agenda.start t) es).2.loadOf k = 0 := by
  have hnone : (Agenda.start t : Agenda κ).DueAt k 0 := by simp [Agenda.DueAt, Agenda.start]
  have hzero : (Agenda.start t : Agenda κ).loadOf k = 0 := by
    simp [Agenda.loadOf, Agenda.roster, Agenda.start]
  obtain ⟨n, hcalls, hle, -⟩ := Agenda.loadOf_run hnone hes
  obtain rfl : n = 0 := by omega
  exact ⟨hcalls, by omega⟩

theorem not_waits_of_loadOf {a : Agenda κ} {k : κ} (h : a.loadOf k = 0) :
    ∀ x ∈ a.pending, x.1 ≠ .other k := by
  intro x hx heq
  exact List.count_eq_zero.mp h (heq ▸ List.mem_map_of_mem hx)

theorem waits_iff {s : Stack κ} {a : Agenda κ} (h : Represents s a) {k : κ} :
    .other k ∈ s.waiting ↔ 0 < a.loadOf k := by
  rw [h.waiting]
  exact List.count_pos_iff.symm

theorem dueAt_set (t msecs : Nat) {k : κ} {es : List (TimerEvent κ)}
    (hes : ∀ e ∈ es, Without k e) :
    (Agenda.step (specRun Agenda.step (Agenda.start t) es).2 (.timeout msecs k)).2.DueAt k
      (t + elapsed es + msecs) := by
  intro x hx heq
  rcases Agenda.mem_enter hx with rfl | hx
  · exact congrArg (· + msecs) (Agenda.run_clock (Agenda.start t) es)
  · exact absurd heq (not_waits_of_loadOf (loadOf_before t hes).2 x hx)

/-- When a timeout has been set: it waits for its time, and nothing else changes that. -/
theorem dueAt_of_set (t : Nat) {k : κ} {es fs : List (TimerEvent κ)} {msecs : Nat}
    (hes : ∀ e ∈ es, Without k e) (hfs : ∀ e ∈ fs, Without k e)
    (h : SpecAlong Agenda.step Agenda.InTime (Agenda.start t) (es ++ .timeout msecs k :: fs)) :
    (specRun Agenda.step (Agenda.start t) (es ++ .timeout msecs k :: fs)).2.Sound ∧
      (specRun Agenda.step (Agenda.start t) (es ++ .timeout msecs k :: fs)).2.DueAt k
        (t + elapsed es + msecs) ∧
      (specRun Agenda.step (Agenda.start t) (es ++ .timeout msecs k :: fs)).2.clock =
        t + elapsed es + elapsed fs := by
  have hset := dueAt_set t msecs hes
  have hclock := Agenda.run_clock (Agenda.start t) es
  rw [specRun_append, specRun]
  refine ⟨?_, specRun_inv (fun e he a ha => ha.step (hfs e he)) hset, ?_⟩
  · have hsound := specRun_inv_along (fun a e ha hG => ha.step hG.2) (Agenda.sound_start t) h
    rwa [specRun_append, specRun] at hsound
  · rw [Agenda.run_clock, Agenda.step_clock, hclock]
    rfl

/-- **A timeout that is not cancelled** waits, or has been called once, for its time. -/
theorem called_once (t msecs : Nat) {k : κ} {es fs : List (TimerEvent κ)}
    (hes : ∀ e ∈ es, Without k e) (hfs : ∀ e ∈ fs, Without k e) (hun : .untimeout k ∉ fs)
    (hroom : (specRun Agenda.step (Agenda.start t) es).2.pending.length < mempNumSysTimeout) :
    ∃ n, (specRun Agenda.step (Agenda.start t) (es ++ .timeout msecs k :: fs)).1.filterMap
        (callOf (.other k)) = List.replicate n (uwTick (t + elapsed es + msecs)) ∧
      (specRun Agenda.step (Agenda.start t) (es ++ .timeout msecs k :: fs)).2.loadOf k + n = 1 := by
  obtain ⟨hcalls, hload⟩ := loadOf_before t hes
  obtain ⟨n, hcalls', -, hsum⟩ := Agenda.loadOf_run (dueAt_set t msecs hes) hfs
  refine ⟨n, ?_, ?_⟩
  · rw [specRun_append, specRun, List.filterMap_append, hcalls, List.nil_append,
      List.filterMap_cons]
    exact hcalls'
  · rw [specRun_append, specRun]
    refine (hsum hun).trans ?_
    have henters := Agenda.enters (specRun Agenda.step (Agenda.start t) es).2 (.other k)
      ((specRun Agenda.step (Agenda.start t) es).2.clock + msecs)
    have hperm := henters.waiting
    rw [if_pos (by rw [Agenda.roster, List.length_map]; exact hroom)] at hperm
    exact (hperm.count_eq _).trans ((List.count_cons_self ..).trans (congrArg (· + 1) hload))

namespace Agenda

variable {a : Agenda κ} {k : κ} {d : Nat}

/-- A handler is called when it is due, or later. -/
theorem Sound.not_early (hs : a.Sound) (hdue : a.DueAt k d) {due : BitVec 32}
    (hcall : (a.step .round).1 = some (.other k, due)) : d ≤ a.clock := by
  rcases round_cases a with ⟨now, h, due', l, hc, hl, hexpired, hround⟩ | ⟨_, _, _, hround⟩ |
    ⟨_, hround⟩
  · rw [hround] at hcall
    have hother : h = .other k := congrArg Prod.fst (Option.some.inj hcall)
    have hd := hdue _ (hl ▸ List.mem_cons_self) hother
    have hnow := (hs.reading now (by rw [hc]; rfl)).1
    dsimp only at hd
    omega
  · rw [hround] at hcall
    cases hcall
  · rw [hround] at hcall
    cases hcall

/-- A check that has ended has called what was due when it began. -/
theorem Sound.checked (hs : a.Sound) (hdue : a.DueAt k d) (hlate : d ≤ a.clock)
    (hidle : a.checking = .idle) {es : List (TimerEvent κ)} (hes : ∀ e ∈ es, Without k e)
    (h : SpecAlong Agenda.step InTime a (.check :: es))
    (hend : (specRun Agenda.step a (.check :: es)).2.checking = .idle) :
    ∀ x ∈ (specRun Agenda.step a (.check :: es)).2.pending, x.1 ≠ .other k := by
  have hbegin : Agenda.step a .check = (none, { a with checking := .between a.clock }) := by
    simp only [Agenda.step, hidle]
  have hfirst := hs.step (e := .check) (fair_of_none rfl)
  have hrest := h.2
  rw [specRun, hbegin] at hend ⊢
  rw [hbegin] at hfirst hrest
  have hcaught : Caught k d { a with checking := .between a.clock } := .inl ⟨a.clock, rfl, hlate⟩
  -- the check is on its way: it is followed to the end of the run
  obtain ⟨-, -, hlast⟩ := specRun_inv_along
    (I := fun a : Agenda κ => a.Sound ∧ a.DueAt k d ∧ a.Caught k d)
    (fun a e hI hG => ⟨hI.1.step hG.1.2, hI.2.1.step hG.2, hI.2.2.step hI.1 hI.2.1 hG.2⟩)
    ⟨hfirst, hdue, hcaught⟩
    (hrest.and (specAlong_of_forall (G := fun _ e => Without k e) (fun e he _ => hes e he) _))
  rcases hlast with ⟨now, hnow, -⟩ | hno
  · rw [hend] at hnow
    cases hnow
  · exact hno

end Agenda

/-- **A timeout is kept**: as long as nothing is late by more than 2^30 ms, its handler is not
called before its time; after a whole check that began at its time, or later, it does not wait any
more; and if there was a cell for it and it is not cancelled, then it waits or has been called,
once. -/
theorem timeout_law (memory : Nat → SysTimeo κ) (tab : Option Nat) (t : Nat) {k : κ}
    {es fs : List (TimerEvent κ)} {msecs : Nat} (hes : ∀ e ∈ es, Without k e)
    (hfs : ∀ e ∈ fs, Without k e)
    (h : SpecAlong Agenda.step Agenda.InTime (Agenda.start t) (es ++ .timeout msecs k :: fs)) :
    ∃ s₀ log s, (Stack.boot memory tab t).sysTimeoutsInit = some s₀ ∧
      run timerStep s₀ (es ++ .timeout msecs k :: fs) = some (log, s) ∧
      (∀ fs₁ fs₂ due, fs = fs₁ ++ .round :: fs₂ →
        log[(es ++ .timeout msecs k :: fs₁).length]? = some (.round, some (.other k, due)) →
          msecs ≤ elapsed fs₁) ∧
      (∀ fs₁ fs₂ log₁ s₁, fs = fs₁ ++ .check :: fs₂ →
        run timerStep s₀ (es ++ .timeout msecs k :: fs₁) = some (log₁, s₁) →
          s₁.checking = .idle → msecs ≤ elapsed fs₁ → s.checking = .idle →
            .other k ∉ s.waiting) ∧
      ∀ log₁ s₁, run timerStep s₀ es = some (log₁, s₁) → s₁.timeouts.tab ≠ none →
        .untimeout k ∉ fs →
          (log.filterMap (callOf (.other k)) = [] ∧ .other k ∈ s.waiting) ∨
          (log.filterMap (callOf (.other k)) = [uwTick (t + elapsed es + msecs)] ∧
            .other k ∉ s.waiting) := by
  obtain ⟨s₀, hinit, hrep₀⟩ := init_represents memory tab t
  obtain ⟨s, hrun, hrep⟩ := hrep₀.runs h
  refine ⟨s₀, _, s, hinit, hrun, ?_, ?_, fun log₁ s₁ hrun₁ htab hun => ?_⟩
  · rintro fs₁ fs₂ due rfl hlog
    have hsplit : es ++ .timeout msecs k :: (fs₁ ++ .round :: fs₂) =
        es ++ .timeout msecs k :: fs₁ ++ .round :: fs₂ := by simp
    rw [hsplit] at h hlog
    rw [log_entry] at hlog
    obtain ⟨hsound, hdue, hclock⟩ :=
      dueAt_of_set t hes (fun e he => hfs e (List.mem_append_left _ he)) (specAlong_append.mp h).1
    have hlate := hsound.not_early hdue (congrArg Prod.snd (Option.some.inj hlog))
    omega
  · rintro fs₁ fs₂ log₁ s₁ rfl hrun₁ hidle₁ hlate hidle
    have hsplit : es ++ .timeout msecs k :: (fs₁ ++ .check :: fs₂) =
        es ++ .timeout msecs k :: fs₁ ++ .check :: fs₂ := by simp
    have hfs₁ : ∀ e ∈ fs₁, Without k e := fun e he => hfs e (List.mem_append_left _ he)
    have hfs₂ : ∀ e ∈ fs₂, Without k e := fun e he => hfs e (by simp [he])
    rw [hsplit] at h hrep
    obtain ⟨hbefore, hbehind⟩ := specAlong_append.mp h
    obtain ⟨hsound, hdue, hclock⟩ := dueAt_of_set t hes hfs₁ hbefore
    have hrep₁ := hrep₀.of_run hbefore hrun₁
    rw [specRun_append] at hrep
    have hgone := hsound.checked hdue (by omega) (hrep₁.idle hidle₁) hfs₂ hbehind
      (hrep.idle hidle)
    rw [hrep.waiting]
    intro hmem
    obtain ⟨x, hx, heq⟩ := List.mem_map.mp hmem
    exact hgone x hx heq
  · have hrep₁ := hrep₀.of_run (specAlong_append.mp h).1 hrun₁
    obtain ⟨n, hcalls, hsum⟩ := called_once t msecs hes hfs hun (hrep₁.room htab)
    rw [waits_iff hrep, hcalls]
    obtain rfl | rfl : n = 0 ∨ n = 1 := by omega
    · exact .inl ⟨rfl, by omega⟩
    · exact .inr ⟨rfl, by omega⟩

/-- A check behind half a second. -/
def laterCheck : List (TimerEvent Nat) := [.pass 600, .check, .round, .ret, .round]

theorem timeout_law_laterCheck :
    ∃ s₀ log s, (Stack.boot (fun _ => ⟨none, 0, .other 0⟩) none 0).sysTimeoutsInit = some s₀ ∧
      run timerStep s₀ ([] ++ TimerEvent.timeout 500 7 :: laterCheck) = some (log, s) ∧
      (∀ fs₁ fs₂ due, laterCheck = fs₁ ++ .round :: fs₂ →
        log[([] ++ TimerEvent.timeout 500 7 :: fs₁).length]? = some (.round, some (.other 7, due)) →
          500 ≤ elapsed fs₁) ∧
      (∀ fs₁ fs₂ log₁ s₁, laterCheck = fs₁ ++ .check :: fs₂ →
        run timerStep s₀ ([] ++ TimerEvent.timeout 500 7 :: fs₁) = some (log₁, s₁) →
          s₁.checking = .idle → 500 ≤ elapsed fs₁ → s.checking = .idle →
            .other 7 ∉ s.waiting) ∧
      ∀ log₁ s₁, run timerStep s₀ ([] : List (TimerEvent Nat)) = some (log₁, s₁) →
        s₁.timeouts.tab ≠ none → .untimeout 7 ∉ laterCheck →
          (log.filterMap (callOf (.other 7)) = [] ∧ .other 7 ∈ s.waiting) ∨
          (log.filterMap (callOf (.other 7)) =
              [uwTick (0 + elapsed ([] : List (TimerEvent Nat)) + 500)] ∧
            .other 7 ∉ s.waiting) :=
  timeout_law _ _ 0 (List.forall_mem_nil _) (by simp [laterCheck, Without]) (by decide +kernel)

/-! ## The grid of a cyclic timer -/

namespace Agenda

variable {a : Agenda κ} {c : CyclicTimer}

/-- The timer returns before its next time. -/
def OnTime (c : CyclicTimer) (a : Agenda κ) (e : TimerEvent κ) : Prop :=
  e = .ret → a.checking.handler = [.lwipCyclicTimer c] → a.clock ≤ a.due + c.intervalMs

instance (a : Agenda κ) (e : TimerEvent κ) : Decidable (a.OnTime c e) :=
  inferInstanceAs (Decidable (_ → _ → _))

/-- The timer is due next at `d`, which is an interval ahead at most. -/
structure NextAt (c : CyclicTimer) (d : Nat) (a : Agenda κ) : Prop where
  pending : ∀ x ∈ a.pending, x.1 = .lwipCyclicTimer c → x.2 = d
  calling : ∀ now, a.checking = .calling now (.lwipCyclicTimer c) → a.due + c.intervalMs = d
  ahead : d ≤ a.clock + c.intervalMs

omit [DecidableEq κ] in
theorem NextAt.enter {d : Nat} (hn : a.NextAt c d) {h : Handler κ} {t : Nat}
    (ht : h = .lwipCyclicTimer c → t = d) : (a.enter h t).NextAt c d := by
  rw [enter_eq]
  refine ⟨fun x hx heq => ?_, hn.calling, hn.ahead⟩
  rcases mem_enter hx with rfl | hx
  · exact ht heq
  · exact hn.pending x hx heq

omit [DecidableEq κ] in
/-- The end of a handler. -/
theorem NextAt.finish {d now : Nat} {h : Handler κ} (hn : a.NextAt c d)
    (hc : a.checking = .calling now h) (ht : a.OnTime c .ret) : (a.finish h).NextAt c d := by
  cases h with
  | lwipCyclicTimer c' =>
    refine hn.enter fun heq => ?_
    obtain rfl := Handler.lwipCyclicTimer.inj heq
    have hdue := hn.calling now hc
    have hlate : ¬a.due + c'.intervalMs < a.clock := Nat.not_lt.mpr (ht rfl (by rw [hc]; rfl))
    rw [if_neg hlate, hdue]
  | tcpipTcpTimer =>
    simp only [Agenda.finish]
    split
    · exact hn.enter (by rintro ⟨⟩)
    · exact ⟨hn.pending, hn.calling, hn.ahead⟩
  | other k => exact hn

/-- **A call at its time**: the timer is called when it is due, and is then due an interval
later. -/
theorem NextAt.step {d : Nat} (hn : a.NextAt c d) (hc : c ≠ .tcp) (hs : a.Sound)
    (hk : a.roster.Kept) {e : TimerEvent κ} (he : a.roster.Modest e) (ht : a.OnTime c e) :
    (callOf (.lwipCyclicTimer c) (e, (a.step e).1) = none ∧ (a.step e).2.NextAt c d) ∨
      (callOf (.lwipCyclicTimer c) (e, (a.step e).1) = some (uwTick d) ∧
        (a.step e).2.NextAt c (d + c.intervalMs)) := by
  have hkept := hk.moves he (a.moves e)
  cases e with
  | pass ms => exact .inl ⟨rfl, hn.pending, hn.calling, by
      have := hn.ahead
      show d ≤ a.clock + ms + c.intervalMs
      omega⟩
  | timeout msecs k => exact .inl ⟨rfl, hn.enter (by rintro ⟨⟩)⟩
  | untimeout k =>
    exact .inl ⟨rfl, fun x hx => hn.pending x (List.mem_of_mem_eraseP hx), hn.calling, hn.ahead⟩
  | tcpReg alive =>
    refine .inl ⟨rfl, ?_⟩
    simp only [Agenda.step]
    split
    · have hn' : NextAt c d { a with tcpPcbs := true, active := true } :=
        ⟨hn.pending, hn.calling, hn.ahead⟩
      exact hn'.enter (by rintro ⟨⟩)
    · exact ⟨hn.pending, hn.calling, hn.ahead⟩
  | tcpRmv => exact .inl ⟨rfl, hn.pending, hn.calling, hn.ahead⟩
  | check =>
    simp only [Agenda.step]
    split
    · exact .inl ⟨rfl, hn.pending, by rintro _ ⟨⟩, hn.ahead⟩
    · exact .inl ⟨rfl, hn⟩
  | round =>
    rcases a.round_cases with ⟨now, h, t, l, hch, hl, hexpired, hround⟩ | ⟨now, _, _, hround⟩ |
      ⟨_, hround⟩
    · rw [hround] at hkept ⊢
      have hnow := (hs.reading now (by rw [hch]; rfl)).1
      have hhead : (h, t) ∈ a.pending := hl ▸ List.mem_cons_self
      have hrest : ∀ x ∈ l, x ∈ a.pending := fun x hx => hl ▸ List.mem_cons_of_mem _ hx
      by_cases hh : h = .lwipCyclicTimer c
      · have htd : t = d := hn.pending _ hhead hh
        have hgone : ∀ x ∈ l, x.1 ≠ .lwipCyclicTimer c := by
          intro x hx heq
          have hone : ([] ++ [h] ++ l.map Prod.fst).count (Handler.lwipCyclicTimer c) = 1 :=
            (hkept.timers (.lwipCyclicTimer c) rfl).trans (if_neg hc)
          rw [hh, List.nil_append, List.singleton_append, List.count_cons_self] at hone
          have hpos : 0 < (l.map Prod.fst).count (Handler.lwipCyclicTimer c) :=
            List.count_pos_iff.mpr (heq ▸ List.mem_map_of_mem hx)
          omega
        refine .inr ⟨?_, fun x hx heq => absurd heq (hgone x hx), fun _ _ => ?_, ?_⟩
        · rw [callOf, Option.bind_some, if_pos hh, htd]
        · exact congrArg (· + c.intervalMs) htd
        · show d + c.intervalMs ≤ a.clock + c.intervalMs
          omega
      · refine .inl ⟨?_, fun x hx => hn.pending x (hrest x hx), fun _ heq => ?_, hn.ahead⟩
        · rw [callOf, Option.bind_some, if_neg hh]
        · exact absurd (Checking.calling.inj heq).2 hh
    · rw [hround]
      exact .inl ⟨rfl, hn.pending, by rintro _ ⟨⟩, hn.ahead⟩
    · rw [hround]
      exact .inl ⟨rfl, hn⟩
  | ret =>
    simp only [Agenda.step]
    split
    · rename_i now h hch
      have hfin := hn.finish hch ht
      exact .inl ⟨rfl, hfin.pending, by rintro _ ⟨⟩, hfin.ahead⟩
    · exact .inl ⟨rfl, hn⟩

/-- The check that goes on will make the calls up to this time, or they have been made. -/
def ServedTo (time d : Nat) (a : Agenda κ) : Prop :=
  (∃ now ∈ a.checking.reading, time ≤ now) ∨ time < d

/-- **A check does not end before** the timer is due later than the check began. -/
theorem ServedTo.step {time d : Nat} (h : a.ServedTo time d) (hn : a.NextAt c d) (hc : c ≠ .tcp)
    (hs : a.Sound) (hk : a.roster.Kept) (e : TimerEvent κ) : (a.step e).2.ServedTo time d := by
  rcases h with ⟨now, hnow, hle⟩ | hlt
  · rcases a.check_goes_on e with hidle | hsame | ⟨now', hch, hhead, -⟩
    · rw [hidle] at hnow
      cases hnow
    · exact .inl ⟨now, hsame ▸ hnow, hle⟩
    · obtain rfl : now' = now := by
        rw [hch] at hnow
        exact Option.some.inj hnow
      -- the timer waits, since it is not being called
      have hone : (a.roster.calling ++ a.roster.waiting).count (.lwipCyclicTimer c) = 1 :=
        (hk.timers (.lwipCyclicTimer c) rfl).trans (if_neg hc)
      have hwaits : .lwipCyclicTimer c ∈ a.pending.map Prod.fst := by
        rw [roster, hch] at hone
        exact List.count_pos_iff.mp (hone.symm ▸ Nat.one_pos)
      obtain ⟨x, hx, heq⟩ := List.mem_map.mp hwaits
      have hlater := hs.later hhead x hx
      rw [hn.pending x hx heq] at hlater
      exact .inr (hle.trans_lt hlater)
  · exact .inr hlt

omit [DecidableEq κ] in
theorem ServedTo.mono {time d d' : Nat} (h : a.ServedTo time d) (hd : d ≤ d') :
    a.ServedTo time d' := h.imp_right fun hlt => hlt.trans_le hd

/-- What a run needs for a timer to keep its grid. -/
structure Regular (c : CyclicTimer) (a : Agenda κ) (e : TimerEvent κ) : Prop where
  inTime : a.InTime e
  modest : a.roster.Modest e
  onTime : a.OnTime c e

instance (a : Agenda κ) (e : TimerEvent κ) : Decidable (Regular c a e) :=
  decidable_of_iff (a.InTime e ∧ a.roster.Modest e ∧ a.OnTime c e)
    ⟨fun h => ⟨h.1, h.2.1, h.2.2⟩, fun h => ⟨h.1, h.2, h.3⟩⟩

/-- The calls of a timer along a run. -/
theorem NextAt.run {d : Nat} (hn : a.NextAt c d) (hc : c ≠ .tcp) (hs : a.Sound)
    (hk : a.roster.Kept) {es : List (TimerEvent κ)} (h : SpecAlong Agenda.step (Regular c) a es) :
    ∃ n, (specRun Agenda.step a es).1.filterMap (callOf (.lwipCyclicTimer c)) =
        (List.range n).map (fun i => uwTick (d + i * c.intervalMs)) ∧
      (specRun Agenda.step a es).2.NextAt c (d + n * c.intervalMs) ∧
      ∀ time, a.ServedTo time d →
        (specRun Agenda.step a es).2.ServedTo time (d + n * c.intervalMs) := by
  induction es generalizing a d with
  | nil =>
    refine ⟨0, rfl, ?_, fun time htime => ?_⟩
    · rw [Nat.zero_mul, Nat.add_zero]
      exact hn
    · rw [Nat.zero_mul, Nat.add_zero]
      exact htime
  | cons e es ih =>
    obtain ⟨hregular, hrest⟩ := h
    have hs' := hs.step hregular.inTime.2
    have hk' := hk.moves hregular.modest (a.moves e)
    have hserved := fun time (htime : a.ServedTo time d) => htime.step hn hc hs hk e
    rw [specRun, List.filterMap_cons]
    rcases hn.step hc hs hk hregular.modest hregular.onTime with ⟨hcall, hn'⟩ | ⟨hcall, hn'⟩
    · obtain ⟨n, hcalls, hlast, htimes⟩ := ih hn' hs' hk' hrest
      rw [hcall]
      exact ⟨n, hcalls, hlast, fun time htime => htimes time (hserved time htime)⟩
    · obtain ⟨n, hcalls, hlast, htimes⟩ := ih hn' hs' hk' hrest
      have hshift : ∀ i, d + c.intervalMs + i * c.intervalMs = d + (i + 1) * c.intervalMs := by
        intro i
        rw [Nat.add_mul, Nat.one_mul, Nat.add_assoc, Nat.add_comm c.intervalMs]
      rw [hcall]
      refine ⟨n + 1, ?_, hshift n ▸ hlast, fun time htime => hshift n ▸ htimes time
        ((hserved time htime).mono (Nat.le_add_right ..))⟩
      rw [hcalls, List.range_succ_eq_map, List.map_cons, List.map_map]
      refine congrArg₂ List.cons (by rw [Nat.zero_mul, Nat.add_zero]) ?_
      refine List.map_congr_left fun i _ => ?_
      exact congrArg uwTick (hshift i)

/-- A check that has ended. -/
theorem NextAt.checked {d : Nat} (hn : a.NextAt c d) (hc : c ≠ .tcp) (hs : a.Sound)
    (hk : a.roster.Kept) (hidle : a.checking = .idle) {es : List (TimerEvent κ)}
    (h : SpecAlong Agenda.step (Regular c) a (.check :: es))
    (hend : (specRun Agenda.step a (.check :: es)).2.checking = .idle) :
    ∃ n, (specRun Agenda.step a (.check :: es)).1.filterMap (callOf (.lwipCyclicTimer c)) =
        (List.range n).map (fun i => uwTick (d + i * c.intervalMs)) ∧
      a.clock < d + n * c.intervalMs := by
  obtain ⟨hregular, hrest⟩ := h
  have hbegin : Agenda.step a .check = (none, { a with checking := .between a.clock }) := by
    simp only [Agenda.step, hidle]
  have hk' := hk.moves hregular.modest (a.moves .check)
  have hs' := hs.step hregular.inTime.2
  have hn' : (Agenda.step a .check).2.NextAt c d := by
    rw [hbegin]
    refine ⟨hn.pending, fun now heq => ?_, hn.ahead⟩
    cases heq
  obtain ⟨n, hcalls, -, htimes⟩ := hn'.run hc hs' hk' hrest
  have hserved : (Agenda.step a .check).2.ServedTo a.clock d := by
    rw [hbegin]
    exact .inl ⟨a.clock, rfl, Nat.le_refl _⟩
  refine ⟨n, ?_, ?_⟩
  · rw [specRun, List.filterMap_cons, hbegin]
    rw [hbegin] at hcalls
    exact hcalls
  · rcases htimes a.clock hserved with ⟨now, hnow, -⟩ | hlt
    · rw [specRun] at hend
      rw [hend] at hnow
      cases hnow
    · exact hlt

omit [DecidableEq κ] in
theorem nextAt_start (t : Nat) (hc : c ≠ .tcp) :
    (Agenda.start t : Agenda κ).NextAt c (t + c.intervalMs) := by
  refine ⟨fun x hx heq => ?_, by rintro _ ⟨⟩, Nat.le_refl _⟩
  have hinterval : c.intervalMs = 1000 := by
    cases c with
    | tcp => exact absurd rfl hc
    | ipReass => rfl
    | etharp => rfl
  rw [hinterval]
  rcases List.mem_cons.mp hx with rfl | hx
  · rfl
  · rw [List.mem_singleton.mp hx]

end Agenda

/-- **A cyclic timer keeps its grid**: as long as each of its calls returns before its next time,
its `n`-th call is for `n` intervals after the start, whatever the delays of the checks and of the
handlers; it is never ahead; and when a check has ended, it has made all of the calls that were due
when it began. -/
theorem cyclic_no_drift (memory : Nat → SysTimeo κ) (tab : Option Nat) (t : Nat) {c : CyclicTimer}
    (hc : c ≠ .tcp) {es : List (TimerEvent κ)}
    (h : SpecAlong Agenda.step (Agenda.Regular c) (Agenda.start t) es) :
    ∃ s₀ log s n, (Stack.boot memory tab t).sysTimeoutsInit = some s₀ ∧
      run timerStep s₀ es = some (log, s) ∧
      log.filterMap (callOf (.lwipCyclicTimer c)) =
        (List.range n).map (fun i => uwTick (t + (i + 1) * c.intervalMs)) ∧
      n * c.intervalMs ≤ elapsed es ∧
      ∀ es₁ es₂ log₁ s₁, es = es₁ ++ .check :: es₂ →
        run timerStep s₀ es₁ = some (log₁, s₁) → s₁.checking = .idle → s.checking = .idle →
          elapsed es₁ < (n + 1) * c.intervalMs := by
  have hin := h.imp fun a e hG => hG.inTime
  obtain ⟨s₀, hinit, hrep₀⟩ := init_represents memory tab t
  obtain ⟨s, hrun, hrep⟩ := hrep₀.runs hin
  obtain ⟨n, hcalls, hlast, -⟩ := (Agenda.nextAt_start t hc).run hc (Agenda.sound_start t)
    (Agenda.kept_start t) h
  refine ⟨s₀, _, s, n, hinit, hrun, ?_, ?_, ?_⟩
  · rw [hcalls]
    refine List.map_congr_left fun i _ => congrArg uwTick ?_
    rw [Nat.add_mul, Nat.one_mul, Nat.add_comm (i * _), Nat.add_assoc]
  · have hahead := hlast.ahead
    have hclock := Agenda.run_clock (Agenda.start t) es
    have hstart : (Agenda.start t : Agenda κ).clock = t := rfl
    omega
  · rintro es₁ es₂ log₁ s₁ rfl hrun₁ hidle₁ hidle
    obtain ⟨hbefore, hbehind⟩ := specAlong_append.mp h
    have hrep₁ := hrep₀.of_run (hbefore.imp fun a e hG => hG.inTime) hrun₁
    obtain ⟨n₁, hcalls₁, hnext₁, -⟩ := (Agenda.nextAt_start t hc).run hc (Agenda.sound_start t)
      (Agenda.kept_start t) hbefore
    have hkept₁ := specRun_inv_along (I := fun a : Agenda κ => a.roster.Kept)
      (fun a e hk hG => hk.moves hG.modest (a.moves e)) (Agenda.kept_start t) hbefore
    have hend := hrep.idle hidle
    rw [specRun_append] at hend hcalls
    obtain ⟨n₂, hcalls₂, hlater⟩ :=
      hnext₁.checked hc hrep₁.sound hkept₁ (hrep₁.idle hidle₁) hbehind hend
    have hlen := congrArg List.length hcalls
    rw [List.filterMap_append, hcalls₁, hcalls₂] at hlen
    simp only [List.length_append, List.length_map, List.length_range] at hlen
    have hclock := Agenda.run_clock (Agenda.start t) es₁
    have hstart : (Agenda.start t : Agenda κ).clock = t := rfl
    rw [← hlen, Nat.add_mul, Nat.add_mul, Nat.one_mul]
    omega

/-- Two seconds, with a check in each. -/
def twoSeconds : List (TimerEvent Nat) :=
  [.pass 1003, .check, .round, .ret, .round, .ret, .round, .pass 1000, .check, .round, .pass 2,
    .ret]

theorem cyclic_no_drift_twoSeconds :
    ∃ s₀ log s n, (Stack.boot (fun _ => ⟨none, 0, .other 0⟩) none 5).sysTimeoutsInit = some s₀ ∧
      run timerStep s₀ twoSeconds = some (log, s) ∧
      log.filterMap (callOf (.lwipCyclicTimer .ipReass)) =
        (List.range n).map (fun i => uwTick (5 + (i + 1) * CyclicTimer.ipReass.intervalMs)) ∧
      n * CyclicTimer.ipReass.intervalMs ≤ elapsed twoSeconds ∧
      ∀ es₁ es₂ log₁ s₁, twoSeconds = es₁ ++ .check :: es₂ →
        run timerStep s₀ es₁ = some (log₁, s₁) → s₁.checking = .idle → s.checking = .idle →
          elapsed es₁ < (n + 1) * CyclicTimer.ipReass.intervalMs :=
  cyclic_no_drift _ _ 5 (by decide) (by decide +kernel)

end MqttDevice.Timers
