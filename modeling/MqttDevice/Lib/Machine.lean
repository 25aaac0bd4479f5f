import Mathlib.Tactic

/-!
# Machines with outputs

A program gives an output for each event, or gets stuck; a specification always gives one. A run
leaves a log of the events with their outputs.

* `run_refines`, `run_refines_along`: a program whose steps refine those of a specification leaves
  the same log, on every run or on those that meet a condition;
* `run_inv_along`: what every step of a program keeps of its state and its log;
* `run_inv`: what every step keeps of its state alone;
* `specRun_inv`, `specRun_inv_along`: what every step of a specification keeps;
* `specRun_balance`: what is taken in is given out or still held, in some order.
-/

namespace MqttDevice.Machine

variable {σ α β ε ω : Type*}

/-- The log of a run, and the state after it. -/
def run (step : σ → ε → Option (ω × σ)) : σ → List ε → Option (List (ε × ω) × σ)
  | s, [] => some ([], s)
  | s, e :: es =>
    (step s e).bind fun (o, t) => (run step t es).map fun (log, u) => ((e, o) :: log, u)

/-- The same for a specification. -/
def specRun (step : α → ε → ω × α) : α → List ε → List (ε × ω) × α
  | a, [] => ([], a)
  | a, e :: es =>
    ((e, (step a e).1) :: (specRun step (step a e).2 es).1, (specRun step (step a e).2 es).2)

variable {step : σ → ε → Option (ω × σ)} {spec : α → ε → ω × α}

theorem specRun_append (a : α) (es fs : List ε) :
    specRun spec a (es ++ fs) =
      ((specRun spec a es).1 ++ (specRun spec (specRun spec a es).2 fs).1,
        (specRun spec (specRun spec a es).2 fs).2) := by
  induction es generalizing a with
  | nil => rfl
  | cons e es ih => rw [List.cons_append, specRun, ih, specRun, List.cons_append]

/-- The log has an entry for every event. -/
theorem run_events {s t : σ} {es : List ε} {log : List (ε × ω)}
    (h : run step s es = some (log, t)) : log.map Prod.fst = es := by
  induction es generalizing s log with
  | nil =>
    cases h
    rfl
  | cons e es ih =>
    rw [run] at h
    obtain ⟨⟨o, u⟩, -, h⟩ := Option.bind_eq_some_iff.mp h
    obtain ⟨⟨rest, v⟩, hrest, hlog⟩ := Option.map_eq_some_iff.mp h
    cases hlog
    rw [List.map_cons, ih hrest]

theorem length_log (a : α) (es : List ε) : (specRun spec a es).1.length = es.length := by
  induction es generalizing a with
  | nil => rfl
  | cons e es ih => rw [specRun, List.length_cons, ih, List.length_cons]

/-- The entry of an event in the log. -/
theorem log_entry (a : α) (es : List ε) (e : ε) (fs : List ε) :
    (specRun spec a (es ++ e :: fs)).1[es.length]? =
      some (e, (spec (specRun spec a es).2 e).1) := by
  rw [specRun_append, List.getElem?_append_right (length_log a es).le, length_log, Nat.sub_self]
  rfl

/-- `G` holds before every step of a run. -/
def SpecAlong (spec : α → ε → ω × α) (G : α → ε → Prop) : α → List ε → Prop
  | _, [] => True
  | a, e :: es => G a e ∧ SpecAlong spec G (spec a e).2 es

instance decidableSpecAlong {G : α → ε → Prop} [∀ a e, Decidable (G a e)] :
    ∀ (a : α) (es : List ε), Decidable (SpecAlong spec G a es)
  | _, [] => .isTrue trivial
  | a, e :: es =>
    have := decidableSpecAlong (G := G) (spec a e).2 es
    inferInstanceAs (Decidable (_ ∧ _))

theorem specAlong_of_forall {G : α → ε → Prop} {es : List ε} (h : ∀ e ∈ es, ∀ a, G a e) (a : α) :
    SpecAlong spec G a es := by
  induction es generalizing a with
  | nil => trivial
  | cons e es ih =>
    obtain ⟨he, hes⟩ := List.forall_mem_cons.mp h
    exact ⟨he a, ih hes _⟩

theorem SpecAlong.imp {G H : α → ε → Prop} {a : α} {es : List ε} (h : SpecAlong spec G a es)
    (himp : ∀ a e, G a e → H a e) : SpecAlong spec H a es := by
  induction es generalizing a with
  | nil => trivial
  | cons e es ih => exact ⟨himp a e h.1, ih h.2⟩

theorem SpecAlong.and {G H : α → ε → Prop} {a : α} {es : List ε} (hG : SpecAlong spec G a es)
    (hH : SpecAlong spec H a es) : SpecAlong spec (fun a e => G a e ∧ H a e) a es := by
  induction es generalizing a with
  | nil => trivial
  | cons e es ih => exact ⟨⟨hG.1, hH.1⟩, ih hG.2 hH.2⟩

theorem specAlong_append {G : α → ε → Prop} {a : α} {es fs : List ε} :
    SpecAlong spec G a (es ++ fs) ↔
      SpecAlong spec G a es ∧ SpecAlong spec G (specRun spec a es).2 fs := by
  induction es generalizing a with
  | nil => exact ⟨fun h => ⟨trivial, h⟩, And.right⟩
  | cons e es ih => rw [List.cons_append, SpecAlong, ih, ← and_assoc]; rfl

/-- `G` holds of the log before every step of a run of the program. -/
def Along (step : σ → ε → Option (ω × σ)) (G : List (ε × ω) → ε → Prop) :
    List (ε × ω) → σ → List ε → Prop
  | _, _, [] => True
  | log, s, e :: es => G log e ∧ ∀ x ∈ step s e, Along step G (log ++ [(e, x.1)]) x.2 es

instance decidableAlong {G : List (ε × ω) → ε → Prop} [∀ log e, Decidable (G log e)] :
    ∀ (log : List (ε × ω)) (s : σ) (es : List ε), Decidable (Along step G log s es)
  | _, _, [] => .isTrue trivial
  | log, s, e :: es =>
    have : DecidablePred fun x : ω × σ => Along step G (log ++ [(e, x.1)]) x.2 es :=
      fun x => decidableAlong (G := G) (log ++ [(e, x.1)]) x.2 es
    inferInstanceAs (Decidable (_ ∧ ∀ x ∈ step s e, _))

/-- **Invariant rule** for a program and its log. -/
theorem run_inv_along {I : List (ε × ω) → σ → Prop} {G : List (ε × ω) → ε → Prop}
    (hstep : ∀ log s e, I log s → G log e →
      ∃ o t, step s e = some (o, t) ∧ I (log ++ [(e, o)]) t)
    {log : List (ε × ω)} {s : σ} {es : List ε} (h : I log s) (hG : Along step G log s es) :
    ∃ log' t, run step s es = some (log', t) ∧ I (log ++ log') t := by
  induction es generalizing log s with
  | nil => exact ⟨[], s, rfl, by rwa [List.append_nil]⟩
  | cons e es ih =>
    obtain ⟨o, t, ht, hI⟩ := hstep log s e h hG.1
    obtain ⟨log', u, hu, hlast⟩ := ih hI (hG.2 (o, t) ht)
    refine ⟨(e, o) :: log', u, ?_, ?_⟩
    · rw [run, ht, Option.bind_some]
      dsimp only
      rw [hu]
      rfl
    · rwa [List.append_assoc, List.singleton_append] at hlast

/-- `G` holds of the state before every step of a run of the program. -/
def StateAlong (step : σ → ε → Option (ω × σ)) (G : σ → ε → Prop) : σ → List ε → Prop
  | _, [] => True
  | s, e :: es => G s e ∧ ∀ x ∈ step s e, StateAlong step G x.2 es

instance decidableStateAlong {G : σ → ε → Prop} [∀ s e, Decidable (G s e)] :
    ∀ (s : σ) (es : List ε), Decidable (StateAlong step G s es)
  | _, [] => .isTrue trivial
  | s, e :: es =>
    have : DecidablePred fun x : ω × σ => StateAlong step G x.2 es :=
      fun x => decidableStateAlong (G := G) x.2 es
    inferInstanceAs (Decidable (_ ∧ ∀ x ∈ step s e, _))

/-- **Invariant rule** for a program. -/
theorem run_inv {I : σ → Prop} {G : σ → ε → Prop}
    (hstep : ∀ s e, I s → G s e → ∃ o t, step s e = some (o, t) ∧ I t) {s : σ} {es : List ε}
    (h : I s) (hG : StateAlong step G s es) : ∃ log t, run step s es = some (log, t) ∧ I t := by
  induction es generalizing s with
  | nil => exact ⟨[], s, rfl, h⟩
  | cons e es ih =>
    obtain ⟨o, t, ht, hI⟩ := hstep s e h hG.1
    obtain ⟨log, u, hu, hlast⟩ := ih hI (hG.2 (o, t) ht)
    refine ⟨(e, o) :: log, u, ?_, hlast⟩
    rw [run, ht, Option.bind_some]
    dsimp only
    rw [hu]
    rfl

/-- **A run refines the specification** when its steps do. -/
theorem run_refines_along {R : σ → α → Prop} {G : α → ε → Prop}
    (hstep : ∀ s a e, R s a → G a e → ∃ t, step s e = some ((spec a e).1, t) ∧ R t (spec a e).2)
    {s : σ} {a : α} (h : R s a) {es : List ε} (hG : SpecAlong spec G a es) :
    ∃ t, run step s es = some ((specRun spec a es).1, t) ∧ R t (specRun spec a es).2 := by
  induction es generalizing s a with
  | nil => exact ⟨s, rfl, h⟩
  | cons e es ih =>
    obtain ⟨t, ht, hR⟩ := hstep s a e h hG.1
    obtain ⟨u, hu, hlast⟩ := ih hR hG.2
    refine ⟨u, ?_, hlast⟩
    rw [run, ht, Option.bind_some]
    dsimp only
    rw [hu]
    rfl

theorem run_refines {R : σ → α → Prop}
    (hstep : ∀ s a e, R s a → ∃ t, step s e = some ((spec a e).1, t) ∧ R t (spec a e).2)
    {s : σ} {a : α} (h : R s a) (es : List ε) :
    ∃ t, run step s es = some ((specRun spec a es).1, t) ∧ R t (specRun spec a es).2 :=
  run_refines_along (fun s a e hR _ => hstep s a e hR) h
    (specAlong_of_forall (G := fun _ _ => True) (fun _ _ _ => trivial) a)

/-- **Invariant rule.** -/
theorem specRun_inv_along {I : α → Prop} {G : α → ε → Prop} {a : α} {es : List ε}
    (hstep : ∀ a e, I a → G a e → I (spec a e).2) (h : I a) (hG : SpecAlong spec G a es) :
    I (specRun spec a es).2 := by
  induction es generalizing a with
  | nil => exact h
  | cons e es ih => exact ih (hstep a e h hG.1) hG.2

/-- The same, for the events of a list. -/
theorem specRun_inv {I : α → Prop} {a : α} {es : List ε}
    (hstep : ∀ e ∈ es, ∀ a, I a → I (spec a e).2) (h : I a) : I (specRun spec a es).2 :=
  specRun_inv_along (G := fun _ e => ∀ a, I a → I (spec a e).2) (fun a _ hI hG => hG a hI) h
    (specAlong_of_forall (fun e he _ => hstep e he) a)

/-- **Nothing is lost or invented**, when no step does. -/
theorem specRun_balance (held : α → List β) {input output : ε × ω → List β}
    (hstep : ∀ a e, (held a ++ input (e, (spec a e).1)).Perm
      (output (e, (spec a e).1) ++ held (spec a e).2)) (a : α) (es : List ε) :
    (held a ++ (specRun spec a es).1.flatMap input).Perm
      ((specRun spec a es).1.flatMap output ++ held (specRun spec a es).2) := by
  induction es generalizing a with
  | nil => simp [specRun]
  | cons e es ih =>
    rw [specRun, List.flatMap_cons, List.flatMap_cons, ← List.append_assoc]
    refine ((hstep a e).append_right _).trans ?_
    rw [List.append_assoc, List.append_assoc]
    exact (ih _).append_left _

end MqttDevice.Machine
