import MqttDevice.Lwip.MqttPending

/-!
# What becomes of a request (`mqtt.c`)

* `request_once`: a request is answered, timed out or dropped, once;
* `request_deadline`: it is timed out at its sixth or seventh tick of the cyclic timer, and pending
  for no longer.
-/

namespace MqttDevice.Lwip

open MqttDevice.Machine

variable {ρ : Type*}

/-! ## The end of a request -/

/-- The callbacks of the requests that were accepted. -/
def acceptedCbs (x : ReqEvent ρ × ReqOut ρ) : List (Option ρ) :=
  match x.1 with
  | .request _ cb _ => if x.2.accepted then [cb] else []
  | _ => []

/-- The callbacks that were called, or dropped. -/
def endedCbs (x : ReqEvent ρ × ReqOut ρ) : List (Option ρ) :=
  x.2.completed.map Prod.fst ++ x.2.dropped

theorem map_fst_completed (err : ReqErr) (cbs : List (Option ρ)) :
    (completedWith err cbs).completed.map Prod.fst = cbs := by
  rw [completedWith, List.map_map]
  exact List.map_id cbs

theorem tick_split (es : List (Entry ρ)) :
    es.map Entry.cb = (tick es).1.map Entry.cb ++ (tick es).2.map Entry.cb := by
  have holder : ∀ fs : List (Entry ρ), (fs.map Entry.older).map Entry.cb = fs.map Entry.cb :=
    fun fs => by rw [List.map_map]; rfl
  induction es with
  | nil => rfl
  | cons e es ih =>
    rw [tick]
    split
    · exact congrArg (e.cb :: ·) ih
    · split
      · rw [holder]
        rfl
      · rw [holder]
        rfl

namespace Outstanding

theorem found_without (pktId : BitVec 16) (w : Outstanding ρ) :
    w.cbs.Perm ((w.found pktId).toList ++ (w.without pktId).cbs) := by
  rw [cbs, found, without]
  cases hfind : w.entries.find? fun e => e.pktId = pktId with
  | none =>
    rw [List.eraseP_of_forall_not (List.find?_eq_none.mp hfind)]
    exact .refl _
  | some e =>
    obtain ⟨he, as, bs, hes, has⟩ := List.find?_eq_some_iff_append.mp hfind
    have hnot : ∀ f ∈ as, ¬decide (f.pktId = pktId) = true := by simpa using has
    rw [cbs, hes, eraseP_first hnot he, List.map_append, List.map_append, List.map_cons]
    exact List.perm_middle

theorem hangUp_balance {e : ReqEvent ρ} (checked : Bool) (dropped : List (Option ρ))
    (w : Outstanding ρ) : (dropped ++ w.cbs).Perm
    (endedCbs (e, (w.hangUp checked dropped).1) ++ (w.hangUp checked dropped).2.cbs) := by
  cases checked <;> simp [hangUp, endedCbs, cbs]

end Outstanding

theorem pendingStep_balance (w : Outstanding ρ) (e : ReqEvent ρ) :
    (w.cbs ++ acceptedCbs (e, (pendingStep w e).1)).Perm
      (endedCbs (e, (pendingStep w e).1) ++ (pendingStep w e).2.cbs) := by
  cases e with
  | connect started =>
    rw [pendingStep]
    split <;> simp [acceptedCbs, endedCbs, Outstanding.cbs]
  | established => simp [pendingStep, acceptedCbs, endedCbs, Outstanding.cbs]
  | connack =>
    rw [pendingStep]
    split <;> simp [acceptedCbs, endedCbs, Outstanding.cbs]
  | request pktId cb space =>
    rw [pendingStep]
    split <;> simp [acceptedCbs, endedCbs, Outstanding.cbs]
  | answer pktType pktId length result checked =>
    have hfound := w.found_without pktId
    rw [acceptedCbs, List.append_nil, pendingStep]
    cases meaning pktType pktId length result with
    | nothing => exact .refl _
    | answer err =>
      simp only [endedCbs, map_fst_completed]
      simpa [completedWith] using hfound
    | illegal => exact w.hangUp_balance checked []
    | cutOff =>
      cases hcbs : w.found pktId with
      | none => exact .refl _
      | some cb =>
        rw [hcbs] at hfound
        exact hfound.trans
          (Outstanding.hangUp_balance checked [cb] { w.without pktId with lost := w.lost + 1 })
  | sent =>
    rw [pendingStep]
    split
    · simp only [acceptedCbs, endedCbs, map_fst_completed, List.append_nil]
      simp only [completedWith, List.append_nil, ← List.map_append, Outstanding.cbs]
      refine List.Perm.map _ ?_
      simpa using (List.filter_append_perm (fun e : Entry ρ => decide (e.pktId = 0)) w.entries).symm
    · simp [acceptedCbs, endedCbs]
  | tick =>
    rw [pendingStep]
    split
    · simp only [acceptedCbs, endedCbs, map_fst_completed, List.append_nil]
      simp only [completedWith, List.append_nil, Outstanding.cbs]
      rw [tick_split]
    · simp [acceptedCbs, endedCbs]
  | close =>
    rw [acceptedCbs, List.append_nil]
    exact w.hangUp_balance true []

/-- **A request is answered, timed out or dropped, once**, or it still waits: along any run from
the start, whatever the calls are and in whatever order they come. -/
theorem request_once (es : List (ReqEvent ρ)) :
    ∃ log c, run reqStep .new es = some (log, c) ∧
      (log.flatMap acceptedCbs).Perm (log.flatMap endedCbs ++ c.requests.pending) := by
  obtain ⟨c, hrun, hrep⟩ := represents_start.runs es
  refine ⟨_, c, hrun, ?_⟩
  rw [hrep.requests.pending_eq]
  exact specRun_balance Outstanding.cbs pendingStep_balance .start es

/-! ## Time -/

/-- The ticks of a log that counted for the requests. -/
def ticks (log : List (ReqEvent ρ × ReqOut ρ)) : Nat := log.countP fun x => x.2.timed

/-- The event does not make a request with this callback. -/
def ReqEvent.Without (c : ρ) (e : ReqEvent ρ) : Prop :=
  ∀ pktId space, e ≠ .request pktId (some c) space

theorem mem_tick {es : List (Entry ρ)} {f : Entry ρ} :
    (f ∈ (tick es).1 → f ∈ es ∧ (f.age = 5 ∨ f.age = 6)) ∧
      (f ∈ (tick es).2 → ∃ g ∈ es, f = g.older) := by
  induction es with
  | nil => exact ⟨fun h => absurd h List.not_mem_nil, fun h => absurd h List.not_mem_nil⟩
  | cons e es ih =>
    have hmap : ∀ {fs : List (Entry ρ)}, f ∈ fs.map Entry.older → ∃ g ∈ fs, f = g.older := by
      intro fs hf
      obtain ⟨g, hg, rfl⟩ := List.mem_map.mp hf
      exact ⟨g, hg, rfl⟩
    rw [tick]
    split
    · rename_i h6
      refine ⟨fun hf => ?_, fun hf => ?_⟩
      · rcases List.mem_cons.mp hf with rfl | hf
        · exact ⟨List.mem_cons_self, .inr h6⟩
        · exact ⟨List.mem_cons_of_mem e (ih.1 hf).1, (ih.1 hf).2⟩
      · obtain ⟨g, hg, hold⟩ := ih.2 hf
        exact ⟨g, List.mem_cons_of_mem e hg, hold⟩
    · split
      · rename_i h5
        refine ⟨fun hf => ?_, fun hf => ?_⟩
        · obtain rfl := List.mem_singleton.mp hf
          exact ⟨List.mem_cons_self, .inl h5⟩
        · obtain ⟨g, hg, hold⟩ := hmap hf
          exact ⟨g, List.mem_cons_of_mem e hg, hold⟩
      · exact ⟨fun hf => absurd hf List.not_mem_nil, hmap⟩

/-- A request that is not new has become older with a tick, or is as it was. -/
def Aged (es : List (Entry ρ)) (o : ReqOut ρ) (f : Entry ρ) : Prop :=
  ∃ g ∈ es, g.cb = f.cb ∧ f.age = g.age + o.timed.toNat

theorem Aged.same {es : List (Entry ρ)} {o : ReqOut ρ} (ho : o.timed = false) {f : Entry ρ}
    (hf : f ∈ es) : Aged es o f := ⟨f, hf, rfl, by rw [ho]; rfl⟩

theorem aged_hangUp {checked : Bool} {dropped : List (Option ρ)} {w : Outstanding ρ} {f : Entry ρ}
    (hf : f ∈ (w.hangUp checked dropped).2.entries) :
    Aged w.entries (w.hangUp checked dropped).1 f := by
  cases checked with
  | false => exact .same rfl hf
  | true => exact absurd hf List.not_mem_nil

/-- A request in the list is new, or was there before the call. -/
theorem mem_pendingStep {w : Outstanding ρ} {e : ReqEvent ρ} {f : Entry ρ}
    (hf : f ∈ (pendingStep w e).2.entries) :
    (f.age = 0 ∧ (pendingStep w e).1.timed = false ∧
        ∃ pktId space, e = .request pktId f.cb space) ∨
      Aged w.entries (pendingStep w e).1 f := by
  cases e with
  | connect started =>
    rw [pendingStep] at hf ⊢
    split at hf
    · rename_i hstate
      rw [if_pos hstate]
      exact .inr (.same rfl hf)
    · exact absurd hf List.not_mem_nil
  | established => exact .inr (.same rfl hf)
  | connack =>
    refine .inr (.same rfl ?_)
    rw [pendingStep] at hf
    split at hf <;> exact hf
  | request pktId cb space =>
    rw [pendingStep] at hf ⊢
    split at hf
    · rename_i hand
      rw [if_pos hand]
      rcases List.mem_append.mp hf with hf | hf
      · exact .inr (.same rfl hf)
      · obtain rfl := List.mem_singleton.mp hf
        exact .inl ⟨rfl, rfl, pktId, space, rfl⟩
    · rename_i hand
      rw [if_neg hand]
      exact .inr (.same rfl hf)
  | answer pktType pktId length result checked =>
    right
    rw [pendingStep] at hf ⊢
    cases hmeaning : meaning pktType pktId length result with
    | nothing => exact .same rfl (by simpa [hmeaning] using hf)
    | answer err =>
      rw [hmeaning] at hf
      exact .same rfl (List.mem_of_mem_eraseP hf)
    | illegal =>
      rw [hmeaning] at hf
      exact aged_hangUp hf
    | cutOff =>
      rw [hmeaning] at hf
      cases hcb : w.found pktId with
      | none =>
        rw [hcb] at hf
        exact .same rfl hf
      | some cb =>
        rw [hcb] at hf
        obtain ⟨g, hg, hgf⟩ := aged_hangUp hf
        exact ⟨g, List.mem_of_mem_eraseP hg, hgf⟩
  | sent =>
    right
    rw [pendingStep] at hf ⊢
    split at hf
    · rename_i hstate
      rw [if_pos hstate]
      exact .same rfl (List.mem_of_mem_filter hf)
    · rename_i hstate
      rw [if_neg hstate]
      exact .same rfl hf
  | tick =>
    right
    rw [pendingStep] at hf ⊢
    split at hf
    · rename_i hstate
      rw [if_pos hstate]
      obtain ⟨g, hg, rfl⟩ := mem_tick.2 hf
      exact ⟨g, hg, rfl, rfl⟩
    · rename_i hstate
      rw [if_neg hstate]
      exact .same rfl hf
  | close => exact .inr (aged_hangUp hf)

/-- The age of a request is the number of ticks since then. -/
theorem age_specRun {c : ρ} {k : Nat} {w : Outstanding ρ} {es : List (ReqEvent ρ)}
    (hes : ∀ e ∈ es, e.Without c) (hw : ∀ f ∈ w.entries, f.cb = some c → f.age = k) :
    ∀ f ∈ (specRun pendingStep w es).2.entries, f.cb = some c →
      f.age = k + ticks (specRun pendingStep w es).1 := by
  induction es generalizing w k with
  | nil => exact hw
  | cons e es ih =>
    obtain ⟨he, hes⟩ := List.forall_mem_cons.mp hes
    have hstep : ∀ f ∈ (pendingStep w e).2.entries, f.cb = some c →
        f.age = k + (pendingStep w e).1.timed.toNat := by
      intro f hf hfc
      rcases mem_pendingStep hf with ⟨-, -, pktId, space, heq⟩ | ⟨g, hg, hgf, hage⟩
      · exact absurd (hfc ▸ heq) (he pktId space)
      · rw [hage, hw g hg (hgf.trans hfc)]
    have hticks : ticks (specRun pendingStep w (e :: es)).1 =
        (pendingStep w e).1.timed.toNat + ticks (specRun pendingStep (pendingStep w e).2 es).1 := by
      rw [ticks, specRun, List.countP_cons, Nat.add_comm]
      cases (pendingStep w e).1.timed <;> rfl
    intro f hf hfc
    rw [ih hes hstep f hf hfc, hticks, Nat.add_assoc]

/-- **A request times out at its sixth or seventh tick**, and if it still waits at the seventh it
does so there: `fs` is what happens since it was made, and `log` what it led to. -/
theorem request_deadline {cb : ρ} {es fs : List (ReqEvent ρ)} (hes : ∀ e ∈ es, e.Without cb)
    (hfs : ∀ e ∈ fs, e.Without cb) (pktId : BitVec 16) (space : Bool) :
    ∃ before c log d, run reqStep .new (es ++ [.request pktId (some cb) space]) = some (before, c) ∧
      run reqStep c fs = some (log, d) ∧
      (some cb ∈ d.requests.pending → ticks log ≤ 6) ∧
      ∃ out d', reqStep d .tick = some (out, d') ∧
        ((some cb, ReqErr.timeout) ∈ out.completed → ticks log = 5 ∨ ticks log = 6) ∧
        (d.connState = .mqttConnected → some cb ∈ d.requests.pending → ticks log = 6 →
          (some cb, ReqErr.timeout) ∈ out.completed) := by
  obtain ⟨c, hbefore, hc⟩ := represents_start.runs (es ++ [.request pktId (some cb) space])
  obtain ⟨d, hlog, hd⟩ := hc.runs fs
  have hnone : ∀ f ∈ (specRun pendingStep .start es).2.entries, f.cb ≠ some cb := by
    refine specRun_inv (I := fun w : Outstanding ρ => ∀ f ∈ w.entries, f.cb ≠ some cb)
      (fun e he w hw f hf hfc => ?_) (List.forall_mem_nil _)
    rcases mem_pendingStep hf with ⟨-, -, pktId, space, heq⟩ | ⟨g, hg, hgf, -⟩
    · exact hes e he pktId space (hfc ▸ heq)
    · exact hw g hg (hgf.trans hfc)
  have hnew : ∀ f ∈ (specRun pendingStep .start
      (es ++ [.request pktId (some cb) space])).2.entries, f.cb = some cb → f.age = 0 := by
    rw [specRun_append, specRun]
    intro f hf hfc
    rcases mem_pendingStep hf with ⟨hzero, -⟩ | ⟨g, hg, hgf, -⟩
    · exact hzero
    · exact absurd (hgf.trans hfc) (hnone g hg)
  have hage := age_specRun hfs hnew
  simp only [Nat.zero_add] at hage
  obtain ⟨d', htick, -⟩ := step_follows hd .tick
  refine ⟨_, c, _, d, hbefore, hlog, fun hmem => ?_, _, d', htick, fun hmem => ?_,
    fun hstate hmem hsix => ?_⟩
  · rw [hd.requests.pending_eq] at hmem
    obtain ⟨f, hf, hfc⟩ := List.mem_map.mp hmem
    rw [← hage f hf hfc]
    exact hd.requests.ordered.age f hf
  · rw [pendingStep] at hmem
    split at hmem
    · simp only [completedWith, List.mem_map, Prod.mk.injEq] at hmem
      obtain ⟨-, ⟨f, hf, rfl⟩, hfc, -⟩ := hmem
      obtain ⟨hmem, h56⟩ := mem_tick.1 hf
      rw [← hage f hmem hfc]
      exact h56
    · exact absurd hmem List.not_mem_nil
  · rw [hd.requests.pending_eq] at hmem
    obtain ⟨f, hf, hfc⟩ := List.mem_map.mp hmem
    have hout := hd.requests.ordered.timedOut hf ((hage f hf hfc).trans hsix)
    rw [pendingStep, if_pos (hd.connState ▸ hstate)]
    exact List.mem_map_of_mem (List.mem_map.mpr ⟨f, hout, hfc⟩)

/-- One request is made on a connection, and five ticks go by. -/
theorem request_deadline_five :
    ∃ before c log d, run reqStep .new
        ([.connect true, .established, .connack] ++ [.request 1 (some 7) true]) =
          some (before, c) ∧
      run reqStep c (List.replicate 5 .tick) = some (log, d) ∧
      (some 7 ∈ d.requests.pending → ticks log ≤ 6) ∧
      ∃ out d', reqStep d .tick = some (out, d') ∧
        ((some 7, ReqErr.timeout) ∈ out.completed → ticks log = 5 ∨ ticks log = 6) ∧
        (d.connState = .mqttConnected → some 7 ∈ d.requests.pending → ticks log = 6 →
          (some 7, ReqErr.timeout) ∈ out.completed) := by
  refine request_deadline (fun e he => ?_) (fun e he => ?_) 1 true
  · rintro pktId space rfl
    simp at he
  · rw [List.eq_of_mem_replicate he]
    exact nofun

end MqttDevice.Lwip
