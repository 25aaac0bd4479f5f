import MqttDevice.Lib.Runs
import MqttDevice.Tick

/-!
# The periodic timers of `net_process`

One pass of the loop of `net_process` polls at most two of its three timers:
publish (500) while the MQTT client is connected, reconnect (1000) while it is
not, and link recovery (500) while the link is down. What the passes do to the
client and to the network interface is the subject of other modules; here a
pass gets the two answers, and the readings of `uwTick`, from its environment.

* `timers_law_iff`: along every run, every polled timer fires exactly when the
  ticks since its last firing exceed its interval, and publishes are more than
  500 ticks apart, if and only if every poll is in phase with the counter;
* `inPhase_of_early`: every poll is in phase until the counter comes within
  1000 ticks of its first wrap.
-/

namespace MqttDevice.NetTimers

open MqttDevice.Wrap MqttDevice.Tick MqttDevice.Runs

/-! ## The loop -/

/-- The values of `ledState_t` that `net_process` writes to `sigData.nav_status`. -/
inductive NavStatus
  | ledStatus1Hz
  | ledStatus5Hz
  deriving DecidableEq, Repr

/-- The local variables of `net_process`, and `sigData.nav_status`. -/
structure NetVars where
  lastSendTime : BitVec 32 := 0
  lastMqttTime : BitVec 32 := 0
  lastNetifTime : BitVec 32 := 0
  navStatus : NavStatus := .ledStatus1Hz
  deriving DecidableEq, Repr

/-- The bodies that the three timers guard. -/
inductive NetAction
  /-- `joson_create_uav_data_send` -/
  | publish
  /-- `mqtt_disconnect`, `mqtt_client_free`, `mqtt_example_init` -/
  | reconnect
  /-- `netif_set_down`, `netif_remove`, `LwIP_Config` -/
  | netifRestart
  deriving DecidableEq, Repr

def sendInterval : BitVec 32 := 500
def mqttInterval : BitVec 32 := 1000
def netifInterval : BitVec 32 := 500

/-- The MQTT half of a pass: `now` is the reading in the test, `save` the one
in the assignment. -/
def mqttBranch (v : NetVars) (connected : Bool) (now save : BitVec 32) :
    NetVars × Option NetAction :=
  if connected then
    if v.lastSendTime + sendInterval < now then
      ({ v with lastSendTime := save, navStatus := .ledStatus5Hz }, some .publish)
    else ({ v with navStatus := .ledStatus5Hz }, none)
  else
    if v.lastMqttTime + mqttInterval < now then
      ({ v with lastMqttTime := save, navStatus := .ledStatus1Hz }, some .reconnect)
    else ({ v with navStatus := .ledStatus1Hz }, none)

/-- The link half of a pass. -/
def netifBranch (v : NetVars) (linkUp : Bool) (now save : BitVec 32) :
    NetVars × Option NetAction :=
  if linkUp then (v, none)
  else if v.lastNetifTime + netifInterval < now then
    ({ v with lastNetifTime := save }, some .netifRestart)
  else (v, none)

/-! ## Runs of the loop -/

/-- What one pass gets from outside: `mqtt_client_is_connected`,
`netif_is_link_up`, and the true times of its readings of `uwTick` (a reading
that the pass does not make is counted at the time of the one before it). -/
structure Pass where
  connected : Bool
  linkUp : Bool
  tMqtt : Nat
  tMqttSave : Nat
  tNetif : Nat
  tNetifSave : Nat

/-- Time passes by less than `2^30` ticks between two readings. -/
def Advances (t u : Nat) : Prop := t ≤ u ∧ u < t + 2 ^ 30

instance (t u : Nat) : Decidable (Advances t u) := inferInstanceAs (Decidable (_ ∧ _))

/-- The readings of a pass that begins after time `t`. -/
def Pass.Clocked (p : Pass) (t : Nat) : Prop :=
  Advances t p.tMqtt ∧ Advances p.tMqtt p.tMqttSave ∧ Advances p.tMqttSave p.tNetif ∧
    Advances p.tNetif p.tNetifSave

instance (p : Pass) (t : Nat) : Decidable (p.Clocked t) := inferInstanceAs (Decidable (_ ∧ _))

/-- The loop with its past: every firing with its time, the latest first, and
the time of the last reading. -/
structure NetRun where
  vars : NetVars
  log : List (NetAction × Nat)
  clock : Nat

/-- `net_process` before its loop, at any value of the counter. -/
def start (t : Nat) : NetRun := ⟨{}, [], t⟩

def record (t : Nat) : Option NetAction → List (NetAction × Nat)
  | none => []
  | some a => [(a, t)]

/-- What the loop does in the pass `p` from the variables `v`. -/
def netPass (v : NetVars) (p : Pass) : NetVars × List (NetAction × Nat) :=
  let (v₁, a) := mqttBranch v p.connected (uwTick p.tMqtt) (uwTick p.tMqttSave)
  let (v₂, b) := netifBranch v₁ p.linkUp (uwTick p.tNetif) (uwTick p.tNetifSave)
  (v₂, record p.tNetifSave b ++ record p.tMqttSave a)

def netStep (s : NetRun) (p : Pass) : Option NetRun :=
  if p.Clocked s.clock then
    some ⟨(netPass s.vars p).1, (netPass s.vars p).2 ++ s.log, p.tNetifSave⟩
  else none

/-! ## The law -/

/-- The counter at the latest firing of `a`; 0 before the first one. -/
def lastFiring (a : NetAction) : List (NetAction × Nat) → BitVec 32
  | [] => 0
  | (b, t) :: log => if b = a then uwTick t else lastFiring a log

/-- `a` is among the firings of the pass. -/
def Fires (v : NetVars) (p : Pass) (a : NetAction) : Prop := ∃ t, (a, t) ∈ (netPass v p).2

/-- A polled timer fires if and only if the ticks since its last firing,
modulo `2^32`, exceed its interval. -/
def TimersLaw (s : NetRun) (p : Pass) : Prop :=
  (p.connected = true → (Fires s.vars p .publish ↔
    sendInterval < uwTick p.tMqtt - lastFiring .publish s.log)) ∧
  (p.connected = false → (Fires s.vars p .reconnect ↔
    mqttInterval < uwTick p.tMqtt - lastFiring .reconnect s.log)) ∧
  (p.linkUp = false → (Fires s.vars p .netifRestart ↔
    netifInterval < uwTick p.tNetif - lastFiring .netifRestart s.log))

/-- A publish comes more than 500 true ticks after every earlier one. -/
def PublishSpaced (s : NetRun) (p : Pass) : Prop :=
  ∀ t u, (.publish, u) ∈ s.log → (.publish, t) ∈ (netPass s.vars p).2 → u + 500 < t

/-- Every timer polled in the pass is in phase with the counter. -/
def PolledInPhase (s : NetRun) (p : Pass) : Prop :=
  (p.connected = true → InPhase s.vars.lastSendTime sendInterval (uwTick p.tMqtt)) ∧
  (p.connected = false → InPhase s.vars.lastMqttTime mqttInterval (uwTick p.tMqtt)) ∧
  (p.linkUp = false → InPhase s.vars.lastNetifTime netifInterval (uwTick p.tNetif))

/-! ## What one pass does -/

@[simp] theorem mem_record {a : NetAction} {t u : Nat} {o : Option NetAction} :
    (a, t) ∈ record u o ↔ o = some a ∧ t = u := by
  cases o <;> simp [record, eq_comm]

theorem mqttBranch_fires {v : NetVars} {connected : Bool} {now save : BitVec 32}
    {a : NetAction} : (mqttBranch v connected now save).2 = some a ↔
      (a = .publish ∧ connected = true ∧ v.lastSendTime + sendInterval < now) ∨
      (a = .reconnect ∧ connected = false ∧ v.lastMqttTime + mqttInterval < now) := by
  unfold mqttBranch
  cases connected <;> simp only [Bool.false_eq_true, if_true, if_false] <;> split <;>
    cases a <;> simp_all

theorem netifBranch_fires {v : NetVars} {linkUp : Bool} {now save : BitVec 32}
    {a : NetAction} : (netifBranch v linkUp now save).2 = some a ↔
      a = .netifRestart ∧ linkUp = false ∧ v.lastNetifTime + netifInterval < now := by
  unfold netifBranch
  cases linkUp <;> simp only [Bool.false_eq_true, if_true, if_false]
  · split <;> cases a <;> simp_all
  · simp

@[simp] theorem mqttBranch_lastNetifTime (v : NetVars) (connected : Bool)
    (now save : BitVec 32) :
    (mqttBranch v connected now save).1.lastNetifTime = v.lastNetifTime := by
  unfold mqttBranch
  split <;> split <;> rfl

/-- Every firing of a pass, its guard and its time. -/
theorem mem_netPass {v : NetVars} {p : Pass} {a : NetAction} {t : Nat} :
    (a, t) ∈ (netPass v p).2 ↔
      (a = .publish ∧ p.connected = true ∧ t = p.tMqttSave ∧
        v.lastSendTime + sendInterval < uwTick p.tMqtt) ∨
      (a = .reconnect ∧ p.connected = false ∧ t = p.tMqttSave ∧
        v.lastMqttTime + mqttInterval < uwTick p.tMqtt) ∨
      (a = .netifRestart ∧ p.linkUp = false ∧ t = p.tNetifSave ∧
        v.lastNetifTime + netifInterval < uwTick p.tNetif) := by
  simp only [netPass, List.mem_append, mem_record, netifBranch_fires, mqttBranch_fires,
    mqttBranch_lastNetifTime]
  constructor
  · rintro (⟨⟨h₁, h₂, h₃⟩, h₄⟩ | ⟨⟨h₁, h₂, h₃⟩ | ⟨h₁, h₂, h₃⟩, h₄⟩)
    · exact Or.inr (Or.inr ⟨h₁, h₂, h₄, h₃⟩)
    · exact Or.inl ⟨h₁, h₂, h₄, h₃⟩
    · exact Or.inr (Or.inl ⟨h₁, h₂, h₄, h₃⟩)
  · rintro (⟨h₁, h₂, h₄, h₃⟩ | ⟨h₁, h₂, h₄, h₃⟩ | ⟨h₁, h₂, h₄, h₃⟩)
    · exact Or.inr ⟨Or.inl ⟨h₁, h₂, h₃⟩, h₄⟩
    · exact Or.inr ⟨Or.inr ⟨h₁, h₂, h₃⟩, h₄⟩
    · exact Or.inl ⟨⟨h₁, h₂, h₃⟩, h₄⟩

theorem fires_iff {v : NetVars} {p : Pass} {a : NetAction} :
    Fires v p a ↔
      (a = .publish ∧ p.connected = true ∧ v.lastSendTime + sendInterval < uwTick p.tMqtt) ∨
      (a = .reconnect ∧ p.connected = false ∧ v.lastMqttTime + mqttInterval < uwTick p.tMqtt) ∨
      (a = .netifRestart ∧ p.linkUp = false ∧
        v.lastNetifTime + netifInterval < uwTick p.tNetif) := by
  simp only [Fires, mem_netPass]
  constructor
  · rintro ⟨t, ⟨h₁, h₂, -, h₃⟩ | ⟨h₁, h₂, -, h₃⟩ | ⟨h₁, h₂, -, h₃⟩⟩
    · exact Or.inl ⟨h₁, h₂, h₃⟩
    · exact Or.inr (Or.inl ⟨h₁, h₂, h₃⟩)
    · exact Or.inr (Or.inr ⟨h₁, h₂, h₃⟩)
  · rintro (⟨h₁, h₂, h₃⟩ | ⟨h₁, h₂, h₃⟩ | ⟨h₁, h₂, h₃⟩)
    · exact ⟨_, Or.inl ⟨h₁, h₂, rfl, h₃⟩⟩
    · exact ⟨_, Or.inr (Or.inl ⟨h₁, h₂, rfl, h₃⟩)⟩
    · exact ⟨_, Or.inr (Or.inr ⟨h₁, h₂, rfl, h₃⟩)⟩

/-! ## The invariant: saved times are firings -/

/-- The three saved times are the counter at the latest firings, and the log
is ordered in true time. -/
structure SavedTimes (s : NetRun) : Prop where
  send : s.vars.lastSendTime = lastFiring .publish s.log
  mqtt : s.vars.lastMqttTime = lastFiring .reconnect s.log
  netif : s.vars.lastNetifTime = lastFiring .netifRestart s.log
  past : ∀ x ∈ s.log, x.2 ≤ s.clock
  ordered : s.log.Pairwise fun x y => y.2 ≤ x.2

theorem savedTimes_later {v : NetVars} {log : List (NetAction × Nat)} {c d : Nat}
    (h : SavedTimes ⟨v, log, c⟩) (hcd : c ≤ d) : SavedTimes ⟨v, log, d⟩ :=
  { h with past := fun x hx => Nat.le_trans (h.past x hx) hcd }

theorem savedTimes_mqttBranch {v : NetVars} {log : List (NetAction × Nat)} {c t u : Nat}
    (connected : Bool) (h : SavedTimes ⟨v, log, c⟩) (hcu : c ≤ u) :
    SavedTimes ⟨(mqttBranch v connected (uwTick t) (uwTick u)).1,
      record u (mqttBranch v connected (uwTick t) (uwTick u)).2 ++ log, u⟩ := by
  have hu := savedTimes_later h hcu
  unfold mqttBranch
  split <;> split
  · exact ⟨rfl, h.mqtt, h.netif, by simpa [record] using hu.past,
      List.pairwise_cons.mpr ⟨hu.past, h.ordered⟩⟩
  · exact { hu with }
  · exact ⟨h.send, rfl, h.netif, by simpa [record] using hu.past,
      List.pairwise_cons.mpr ⟨hu.past, h.ordered⟩⟩
  · exact { hu with }

theorem savedTimes_netifBranch {v : NetVars} {log : List (NetAction × Nat)} {c t u : Nat}
    (linkUp : Bool) (h : SavedTimes ⟨v, log, c⟩) (hcu : c ≤ u) :
    SavedTimes ⟨(netifBranch v linkUp (uwTick t) (uwTick u)).1,
      record u (netifBranch v linkUp (uwTick t) (uwTick u)).2 ++ log, u⟩ := by
  have hu := savedTimes_later h hcu
  unfold netifBranch
  split
  · exact hu
  · split
    · exact ⟨h.send, h.mqtt, rfl, by simpa [record] using hu.past,
        List.pairwise_cons.mpr ⟨hu.past, h.ordered⟩⟩
    · exact hu

/-- **Step lemma.** -/
theorem savedTimes_netStep {s s' : NetRun} {p : Pass}
    (h : SavedTimes s) (hs : netStep s p = some s') : SavedTimes s' := by
  unfold netStep at hs
  split at hs
  · rename_i hc
    cases hs
    obtain ⟨h₁, h₂, h₃, h₄⟩ := hc
    have hm : SavedTimes
        ⟨(mqttBranch s.vars p.connected (uwTick p.tMqtt) (uwTick p.tMqttSave)).1, _,
          p.tMqttSave⟩ := savedTimes_mqttBranch p.connected h (Nat.le_trans h₁.1 h₂.1)
    have hn : SavedTimes
        ⟨(netifBranch _ p.linkUp (uwTick p.tNetif) (uwTick p.tNetifSave)).1, _,
          p.tNetifSave⟩ := savedTimes_netifBranch p.linkUp hm (Nat.le_trans h₃.1 h₄.1)
    simpa only [netPass, List.append_assoc] using hn
  · cases hs

theorem savedTimes_start (t : Nat) : SavedTimes (start t) :=
  ⟨rfl, rfl, rfl, by simp [start], by simp [start]⟩

/-! ## The law holds exactly in phase -/

theorem timersLaw_iff_inPhase {s : NetRun} (p : Pass)
    (h : SavedTimes s) : TimersLaw s p ↔ PolledInPhase s p := by
  simp only [TimersLaw, PolledInPhase, fires_iff, ← h.send, ← h.mqtt, ← h.netif]
  refine and_congr (imp_congr_right fun hc => ?_) (and_congr (imp_congr_right fun hc => ?_)
    (imp_congr_right fun hc => ?_))
  all_goals
    rw [← naive_iff_elapsed]
    simp [hc]

/-- The saved reading belongs to the latest firing; others are no later. -/
theorem lastFiring_mem {a : NetAction} {u : Nat} {log : List (NetAction × Nat)}
    (h : log.Pairwise fun x y => y.2 ≤ x.2) (hu : (a, u) ∈ log) :
    ∃ v, (a, v) ∈ log ∧ lastFiring a log = uwTick v ∧ u ≤ v := by
  induction log with
  | nil => cases hu
  | cons x log ih =>
    obtain ⟨b, t⟩ := x
    obtain ⟨hx, hl⟩ := List.pairwise_cons.mp h
    by_cases hb : b = a
    · refine ⟨t, by simp [hb], by simp [lastFiring, hb], ?_⟩
      rcases List.mem_cons.mp hu with e | hm
      · cases e; exact Nat.le_refl _
      · exact hx _ hm
    · rcases List.mem_cons.mp hu with e | hm
      · cases e; exact absurd rfl hb
      · obtain ⟨v, hv, e, hle⟩ := ih hl hm
        exact ⟨v, List.mem_cons_of_mem _ hv, by simpa [lastFiring, hb] using e, hle⟩

/-- The law alone keeps publishes apart: the wrapped difference to the latest
one exceeds 500, and the true one is no smaller. -/
theorem publishSpaced_of_law {s : NetRun} {p : Pass} (hc : p.Clocked s.clock)
    (h : SavedTimes s) (hl : TimersLaw s p) : PublishSpaced s p := by
  intro t u hu ht
  obtain ⟨v, hv, e, huv⟩ := lastFiring_mem h.ordered hu
  have hconn : p.connected = true ∧ t = p.tMqttSave := by
    rcases mem_netPass.mp ht with ⟨-, h₁, h₂, -⟩ | ⟨h₁, -⟩ | ⟨h₁, -⟩
    · exact ⟨h₁, h₂⟩
    · cases h₁
    · cases h₁
  have helapsed := (hl.1 hconn.1).mp ⟨t, ht⟩
  rw [e] at helapsed
  have hpast := h.past _ hv
  have htrue : (uwTick p.tMqtt - uwTick v).toNat ≤ p.tMqtt - v :=
    elapsed_le (Nat.le_trans hpast hc.1.1)
  have hlt : (500 : Nat) < (uwTick p.tMqtt - uwTick v).toNat := helapsed
  have hsave := hc.2.1.1
  omega

/-- The law of the timers at a step of a run, with the distance between publishes. -/
def LawfulStep (s : NetRun) (p : Pass) (_ : NetRun) : Prop :=
  TimersLaw s p ∧ PublishSpaced s p

theorem clocked_of_netStep {s s' : NetRun} {p : Pass} (hs : netStep s p = some s') :
    p.Clocked s.clock ∧ s'.clock = p.tNetifSave := by
  unfold netStep at hs
  split at hs
  · rename_i hc
    cases hs
    exact ⟨hc, rfl⟩
  · cases hs

/-- **The timers, exactly.** Along every run the law holds throughout if and
only if every poll is in phase; so it is for `TimInterval` and `TimWait`. -/
theorem timers_law_iff (t : Nat) (ps : List Pass) :
    (Along netStep LawfulStep (start t) ps ↔
      Along netStep (fun s p _ => PolledInPhase s p) (start t) ps) ∧
    (∀ lastTick interval now save : BitVec 32,
      ((timInterval lastTick interval now save).1 = 1 ↔ interval < now - lastTick) ↔
        InPhase lastTick interval now) ∧
    (∀ lastTick wait now : BitVec 32,
      (timWait lastTick wait now = 1 ↔ wait < now - lastTick) ↔ InPhase lastTick wait now) := by
  refine ⟨?_, timInterval_law_iff, timWait_law_iff⟩
  refine along_iff (fun s p s' h hs _ => savedTimes_netStep h hs) ?_ ps (savedTimes_start t)
  intro s p s' h hs
  constructor
  · exact fun hl => (timersLaw_iff_inPhase p h).mp hl.1
  · intro hp
    have hl := (timersLaw_iff_inPhase p h).mpr hp
    exact ⟨hl, publishSpaced_of_law (clocked_of_netStep hs).1 h hl⟩

/-! ## Before and at the first wrap -/

theorem lastFiring_le {a : NetAction} {log : List (NetAction × Nat)} {c : Nat}
    (h : ∀ x ∈ log, x.2 ≤ c) : (lastFiring a log).toNat ≤ c := by
  induction log with
  | nil => simp [lastFiring]
  | cons x log ih =>
    obtain ⟨b, t⟩ := x
    have ht : t ≤ c := h (b, t) List.mem_cons_self
    unfold lastFiring
    split
    · exact Nat.le_trans (Nat.mod_le t (2 ^ 32)) ht
    · exact ih fun x hx => h x (List.mem_cons_of_mem _ hx)

theorem inPhase_early {last interval : BitVec 32} {c t : Nat} (hl : last.toNat ≤ c)
    (hi : interval.toNat ≤ 1000) (hct : c ≤ t) (ht : t < 2 ^ 32 - 1000) :
    InPhase last interval (uwTick t) := by
  have hn : (uwTick t).toNat = t := Nat.mod_eq_of_lt (by omega)
  rw [InPhase, hn]
  constructor <;> intro <;> omega

/-- Until the counter comes within 1000 ticks of its first wrap every poll is
in phase, so the law holds. -/
theorem inPhase_of_early (t : Nat) (ps : List Pass)
    (hps : ∀ p ∈ ps, p.tNetifSave < 2 ^ 32 - 1000) :
    Along netStep (fun s p _ => PolledInPhase s p) (start t) ps := by
  refine along_imp ?_ (savedTimes_start t)
    (along_of_forall fun p hp _ _ => hps p hp :
      Along netStep (fun _ p _ => p.tNetifSave < 2 ^ 32 - 1000) (start t) ps)
  intro s p s' h hs hp
  obtain ⟨h₁, h₂, h₃, h₄⟩ := (clocked_of_netStep hs).1
  have hlate : s.clock ≤ p.tMqtt ∧ p.tMqtt ≤ p.tNetif ∧ p.tNetif ≤ p.tNetifSave :=
    ⟨h₁.1, Nat.le_trans h₂.1 h₃.1, h₄.1⟩
  refine ⟨savedTimes_netStep h hs, fun _ => ?_, fun _ => ?_, fun _ => ?_⟩
  · exact inPhase_early (h.send ▸ lastFiring_le h.past) (by decide) hlate.1 (by omega)
  · exact inPhase_early (h.mqtt ▸ lastFiring_le h.past) (by decide) hlate.1 (by omega)
  · exact inPhase_early (h.netif ▸ lastFiring_le h.past) (by decide)
      (Nat.le_trans hlate.1 hlate.2.1) (by omega)

/-- A pass of a connected client with the link up, all readings at time `t`. -/
def connectedPass (t : Nat) : Pass := ⟨true, true, t, t, t, t⟩

/-- Just before the wrap two publishes come 5 ticks apart; after it, one that
is 610 ticks overdue is held back. -/
theorem timers_law_fails_at_wrap :
    ¬ Along netStep LawfulStep (start (2 ^ 32 - 400))
      [connectedPass (2 ^ 32 - 400), connectedPass (2 ^ 32 - 395)] ∧
    ¬ Along netStep LawfulStep (start (2 ^ 32 - 600))
      [connectedPass (2 ^ 32 - 600), connectedPass (2 ^ 32 + 10)] := by
  constructor
  · intro h
    have hsecond := (h _ rfl).2 _ rfl
    have hspaced := hsecond.1.2 (2 ^ 32 - 395) (2 ^ 32 - 400) (by decide) (by decide)
    omega
  · intro h
    have hsecond := (h _ rfl).2 _ rfl
    have hfires := (hsecond.1.1.1 rfl).mpr (by decide)
    rw [fires_iff] at hfires
    revert hfires
    decide

end MqttDevice.NetTimers
