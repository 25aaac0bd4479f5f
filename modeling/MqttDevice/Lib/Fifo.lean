import MqttDevice.Lib.Runs

/-!
# What goes through a buffer

A system takes in lists and gives out lists; in between it holds what has not been given out.
`trace step f` collects the lists of a run.

* `Conserves`: a step neither loses nor invents anything, and keeps the order;
* `run_conserves`: so does a run, when its steps do;
* `run_conserves_iff`: for a system that never gives out more than it has, a run conserves
  if and only if each of its steps does.
-/

namespace MqttDevice.Fifo

open MqttDevice.Runs

variable {σ ε α : Type*} (step : σ → ε → Option σ)

/-- The lists of the steps of a run, one behind the other. -/
def trace (f : σ → ε → σ → List α) : σ → List ε → List α
  | _, [] => []
  | s, e :: es =>
    match step s e with
    | none => []
    | some t => f s e t ++ trace f t es

/-- What is held, and then taken in, is what is given out, and then held. -/
def Conserves (held : σ → List α) (input output : σ → ε → σ → List α) (s : σ) (e : ε) (t : σ) :
    Prop := held s ++ input s e t = output s e t ++ held t

variable {step} {held : σ → List α} {f input output : σ → ε → σ → List α}

theorem trace_cons {s t : σ} {e : ε} (h : step s e = some t) (es : List ε) :
    trace step f s (e :: es) = f s e t ++ trace step f t es := by
  rw [trace, h]

/-- The lists of the steps may be lists of lists. -/
theorem trace_flatten {g : σ → ε → σ → List (List α)}
    (h : ∀ s e t, f s e t = (g s e t).flatten) (s : σ) (es : List ε) :
    trace step f s es = (trace step g s es).flatten := by
  induction es generalizing s with
  | nil => rfl
  | cons e es ih =>
    cases ht : step s e with
    | none => rw [trace, trace, ht, List.flatten_nil]
    | some t => rw [trace_cons ht, trace_cons ht, h, ih, List.flatten_append]

/-- What holds of each element of the lists of the steps. -/
theorem forall_trace {P : α → Prop} {s : σ} {es : List ε}
    (h : ∀ e ∈ es, ∀ s t, ∀ a ∈ f s e t, P a) : ∀ a ∈ trace step f s es, P a := by
  induction es generalizing s with
  | nil => exact List.forall_mem_nil _
  | cons e es ih =>
    obtain ⟨he, hes⟩ := List.forall_mem_cons.mp h
    cases ht : step s e with
    | none =>
      rw [trace, ht]
      exact List.forall_mem_nil _
    | some t =>
      rw [trace_cons ht]
      exact List.forall_mem_append.mpr ⟨he s t, ih hes⟩

/-- **A run conserves** when its steps do. -/
theorem run_conserves {s u : σ} {es : List ε} (h : run step s es = some u)
    (hsteps : Along step (Conserves held input output) s es) :
    held s ++ trace step input s es = trace step output s es ++ held u := by
  induction es generalizing s with
  | nil =>
    cases h
    exact List.append_nil _
  | cons e es ih =>
    obtain ⟨t, ht, hrun⟩ := run_cons h
    obtain ⟨hstep, hrest⟩ := hsteps t ht
    calc held s ++ trace step input s (e :: es)
        = (held s ++ input s e t) ++ trace step input t es := by
          rw [trace_cons ht, List.append_assoc]
      _ = output s e t ++ (held t ++ trace step input t es) := by rw [hstep, List.append_assoc]
      _ = trace step output s (e :: es) ++ held u := by
          rw [ih hrun hrest, trace_cons ht, List.append_assoc]

/-- What is missing does not come back. -/
theorem run_length_le
    (hle : ∀ s e t, step s e = some t →
      (output s e t ++ held t).length ≤ (held s ++ input s e t).length)
    {s u : σ} {es : List ε} (h : run step s es = some u) :
    (trace step output s es ++ held u).length ≤ (held s ++ trace step input s es).length := by
  induction es generalizing s with
  | nil =>
    cases h
    simp [trace]
  | cons e es ih =>
    obtain ⟨t, ht, hrun⟩ := run_cons h
    have hstep := hle s e t ht
    have hrest := ih hrun
    simp only [trace_cons ht, List.length_append] at hstep hrest ⊢
    omega

/-- **A run conserves if and only if its steps do**, for a system that never gives out more than
it has, and that is in order when nothing is missing. -/
theorem run_conserves_iff
    (hle : ∀ s e t, step s e = some t →
      (output s e t ++ held t).length ≤ (held s ++ input s e t).length)
    (heq : ∀ s e t, step s e = some t →
      (output s e t ++ held t).length = (held s ++ input s e t).length →
        Conserves held input output s e t)
    {s u : σ} {es : List ε} (h : run step s es = some u) :
    held s ++ trace step input s es = trace step output s es ++ held u ↔
      Along step (Conserves held input output) s es := by
  refine ⟨fun hrun => ?_, run_conserves h⟩
  have hlen := congrArg List.length hrun
  clear hrun
  induction es generalizing s with
  | nil => trivial
  | cons e es ih =>
    obtain ⟨t, ht, hrun⟩ := run_cons h
    have hstep := hle s e t ht
    have hrest := run_length_le hle hrun
    simp only [trace_cons ht, List.length_append] at hlen hstep hrest
    intro t' ht'
    obtain rfl := Option.some.inj (ht.symm.trans ht')
    refine ⟨heq s e t ht ?_, ih hrun ?_⟩
    · simp only [List.length_append]
      omega
    · simp only [List.length_append]
      omega

end MqttDevice.Fifo
