import Mathlib.Tactic

/-!
# Runs of a partial step function

A system is a function `step : σ → ε → Option σ`; `none` means that the event
cannot happen in the state. Proved here, for every such system:

* `along_append`: a property along a run splits at any point;
* `run_inv`: what every step keeps holds at the end of every run;
* `along_of_inv`, `along_imp`: what an invariant (and `G`) gives at each step
  holds along every run (that meets `G`);
* `along_iff`: if, under an invariant that `G` keeps, `P` and `G` are the same
  at every step, then a run satisfies `P` throughout exactly when it satisfies
  `G` throughout: the form in which a defect's exact condition is stated.
-/

namespace MqttDevice.Runs

variable {σ ε : Type*}

/-- The state after a list of events, if all of them can happen. -/
def run (step : σ → ε → Option σ) : σ → List ε → Option σ
  | s, [] => some s
  | s, e :: es => (step s e).bind fun t => run step t es

/-- `P` holds at every step of the run: of the state before the step, its
event and the state after it. -/
def Along (step : σ → ε → Option σ) (P : σ → ε → σ → Prop) : σ → List ε → Prop
  | _, [] => True
  | s, e :: es => ∀ t, step s e = some t → P s e t ∧ Along step P t es

variable {step : σ → ε → Option σ} {P Q G : σ → ε → σ → Prop} {I : σ → Prop}

@[simp] theorem run_nil (s : σ) : run step s [] = some s := rfl

@[simp] theorem along_nil (s : σ) : Along step P s [] := trivial

theorem run_cons {s s' : σ} {e : ε} {es : List ε} (h : run step s (e :: es) = some s') :
    ∃ t, step s e = some t ∧ run step t es = some s' := Option.bind_eq_some_iff.mp h

theorem along_append (s : σ) (es fs : List ε) :
    Along step P s (es ++ fs) ↔
      Along step P s es ∧ ∀ t, run step s es = some t → Along step P t fs := by
  induction es generalizing s with
  | nil => simp [Along]
  | cons e es ih =>
    simp only [List.cons_append, Along, run]
    cases step s e with
    | none => simp
    | some t => simp [ih t, and_assoc]

/-- **Invariant rule.** -/
theorem run_inv (hstep : ∀ s e t, I s → step s e = some t → I t) {s s' : σ} {es : List ε}
    (hs : I s) (h : run step s es = some s') : I s' := by
  induction es generalizing s with
  | nil => cases h; exact hs
  | cons e es ih =>
    obtain ⟨t, ht, hr⟩ := run_cons h
    exact ih (hstep s e t hs ht) hr

/-- What an invariant and the condition give at each step holds along every
run that meets the condition. -/
theorem along_imp (hstep : ∀ s e t, I s → step s e = some t → G s e t → I t ∧ P s e t)
    {s : σ} {es : List ε} (hs : I s) (hG : Along step G s es) : Along step P s es := by
  induction es generalizing s with
  | nil => trivial
  | cons e es ih =>
    intro t ht
    obtain ⟨hg, hG⟩ := hG t ht
    obtain ⟨hi, hp⟩ := hstep s e t hs ht hg
    exact ⟨hp, ih hi hG⟩

theorem along_of_forall {s : σ} {es : List ε} (h : ∀ e ∈ es, ∀ s t, P s e t) :
    Along step P s es := by
  induction es generalizing s with
  | nil => trivial
  | cons e es ih =>
    exact fun t _ => ⟨h e List.mem_cons_self s t,
      ih fun e' he' => h e' (List.mem_cons_of_mem _ he')⟩

/-- If every event can happen in every state, a property of events holds along a
run exactly if it holds of all its events. -/
theorem along_event_iff {G : ε → Prop} (htotal : ∀ s e, ∃ t, step s e = some t) {s : σ}
    {es : List ε} : Along step (fun _ e _ => G e) s es ↔ ∀ e ∈ es, G e := by
  refine ⟨fun h => ?_, fun h => along_of_forall fun e he _ _ => h e he⟩
  induction es generalizing s with
  | nil => exact List.forall_mem_nil _
  | cons e es ih =>
    obtain ⟨t, ht⟩ := htotal s e
    obtain ⟨hg, hrest⟩ := h t ht
    exact List.forall_mem_cons.mpr ⟨hg, ih hrest⟩

/-- What an invariant gives at each step holds along every run. -/
theorem along_of_inv (hstep : ∀ s e t, I s → step s e = some t → I t ∧ P s e t)
    {s : σ} (es : List ε) (hs : I s) : Along step P s es :=
  along_imp (fun s e t hi ht _ => hstep s e t hi ht) hs
    (along_of_forall fun _ _ _ _ => trivial : Along step (fun _ _ _ => True) s es)

/-- **Exact condition of a run.** -/
theorem along_iff (hstep : ∀ s e t, I s → step s e = some t → G s e t → I t)
    (hP : ∀ s e t, I s → step s e = some t → (P s e t ↔ G s e t))
    {s : σ} (es : List ε) (hs : I s) : Along step P s es ↔ Along step G s es := by
  induction es generalizing s with
  | nil => exact Iff.rfl
  | cons e es ih =>
    refine forall_congr' fun t => forall_congr' fun ht => ?_
    rw [hP s e t hs ht]
    exact and_congr_right fun hg => ih (hstep s e t hs ht hg)

end MqttDevice.Runs
