import MqttDevice.Lib.Runs

/-!
# Two runs that differ in hidden events

A system `next : σ → ε → σ` whose events are visible or hidden; `obs` is what
can be seen at an event of a state, and nothing is seen at a hidden one.

* `observed_eq`: if a relation is kept by visible events, which then look the
  same on both sides, and by the hidden events of either side that meet a
  condition `G`, two runs with the same visible events are observed the same.
-/

namespace MqttDevice.Unwinding

open MqttDevice.Runs

variable {σ ε ο : Type*}

/-- What is seen along a run, in order. -/
def observed (next : σ → ε → σ) (obs : σ → ε → Option ο) : σ → List ε → List ο
  | _, [] => []
  | s, e :: es => (obs s e).toList ++ observed next obs (next s e) es

/-- Every step of the run meets `G`. -/
def Meets (next : σ → ε → σ) (G : σ → ε → Prop) (s : σ) (es : List ε) : Prop :=
  Along (fun s e => some (next s e)) (fun s e _ => G s e) s es

theorem meets_cons {next : σ → ε → σ} {G : σ → ε → Prop} {s : σ} {e : ε} {es : List ε} :
    Meets next G s (e :: es) ↔ G s e ∧ Meets next G (next s e) es := by
  simp [Meets, Along]

/-- The conditions under which hidden events do not show. -/
structure Unwinds (next : σ → ε → σ) (obs : σ → ε → Option ο) (visible : ε → Bool)
    (G : σ → ε → Prop) (R : σ → σ → Prop) : Prop where
  symm : ∀ {s t}, R s t → R t s
  seen : ∀ {s t e}, R s t → visible e = true → R (next s e) (next t e) ∧ obs s e = obs t e
  hidden : ∀ {s t e}, R s t → visible e = false → G s e → R (next s e) t
  silent : ∀ {s e}, visible e = false → obs s e = none

section

variable {next : σ → ε → σ} {obs : σ → ε → Option ο} {visible : ε → Bool}
  {G : σ → ε → Prop} {R : σ → σ → Prop} (h : Unwinds next obs visible G R)
include h

/-- A run without visible events shows nothing. -/
theorem observed_of_hidden {t : σ} {fs : List ε} (hfs : fs.filter visible = []) :
    observed next obs t fs = [] := by
  induction fs generalizing t with
  | nil => rfl
  | cons f fs ih =>
    have hf : visible f = false := by
      rw [Bool.eq_false_iff]
      intro hv
      rw [List.filter_cons_of_pos hv] at hfs
      cases hfs
    rw [List.filter_cons_of_neg (by simp [hf])] at hfs
    rw [observed, h.silent hf, ih hfs]
    rfl

/-- A run goes through hidden events up to its first visible one. -/
theorem observed_to_visible {s t : σ} {e : ε} {fs vs : List ε} (hR : R s t)
    (hfs : fs.filter visible = e :: vs) (hG : Meets next G t fs) :
    ∃ t' fs', R s t' ∧ fs'.filter visible = vs ∧ Meets next G t' (e :: fs') ∧
      observed next obs t fs = observed next obs t' (e :: fs') := by
  induction fs generalizing t with
  | nil => cases hfs
  | cons f fs ih =>
    cases hv : visible f with
    | true =>
      rw [List.filter_cons_of_pos hv] at hfs
      obtain ⟨rfl, hvs⟩ := List.cons.inj hfs
      exact ⟨t, fs, hR, hvs, hG, rfl⟩
    | false =>
      rw [List.filter_cons_of_neg (by simp [hv])] at hfs
      obtain ⟨hg, hG'⟩ := meets_cons.mp hG
      have hR' : R s (next t f) := h.symm (h.hidden (h.symm hR) hv hg)
      obtain ⟨t', fs', hRt, hvs, hGt, hobs⟩ := ih hR' hfs hG'
      refine ⟨t', fs', hRt, hvs, hGt, ?_⟩
      rw [observed, h.silent hv, hobs]
      rfl

/-- **Hidden events do not show.** -/
theorem observed_eq {s t : σ} {es fs : List ε} (hR : R s t)
    (hsame : es.filter visible = fs.filter visible) (hs : Meets next G s es)
    (ht : Meets next G t fs) : observed next obs s es = observed next obs t fs := by
  induction es generalizing s t fs with
  | nil => exact (observed_of_hidden h hsame.symm).symm
  | cons e es ih =>
    obtain ⟨hg, hs'⟩ := meets_cons.mp hs
    cases hv : visible e with
    | true =>
      rw [List.filter_cons_of_pos hv] at hsame
      obtain ⟨t', fs', hR', hvs, hGt, hobs⟩ := observed_to_visible h hR hsame.symm ht
      obtain ⟨hnext, hsee⟩ := h.seen hR' hv
      rw [hobs, observed, observed, hsee, ih hnext hvs.symm hs' (meets_cons.mp hGt).2]
    | false =>
      rw [List.filter_cons_of_neg (by simp [hv])] at hsame
      rw [observed, h.silent hv]
      exact ih (h.hidden hR hv hg) hsame hs' ht

end

end MqttDevice.Unwinding
