import MqttDevice.Lwip.Phases
import MqttDevice.NetTimers

/-!
# The MQTT connection under `net_process`

`net_process` starts an MQTT client, and while the client is not connected it
disconnects, frees and replaces it each time its reconnect timer fires. Between
two passes of the loop the stack handles segments and timers, in any order. The
link is up throughout: nothing in the program takes it down.

* `step_inPhases`: every step keeps the client in one of its phases;
* `callbacks_safe_iff`: no callback outlives its client, along any run, if and
  only if each client is freed when the stack holds no connection of it, one
  in `SYN_SENT` apart, and memory is found for each new one;
* `reconnect_only_lost_iff`: the reconnect branch only replaces lost connections,
  along any run, if and only if no pass finds an attempt under way when the
  retry period is over.
-/

namespace MqttDevice.NetProcess

open MqttDevice.Runs MqttDevice.Tick MqttDevice.Lwip
open MqttDevice.NetTimers (NetVars NetAction mqttBranch mqttInterval Advances mqttBranch_fires)

/-! ## The system -/

/-- The stack, `none` when the program has done something undefined, the
variables of `net_process`, the time of the last reading of `uwTick`, and the
time of the last firing of the reconnect timer, 0 before the first one. -/
structure NetProc where
  net : Option Net
  vars : NetVars
  clock : Nat
  begun : Nat

/-- The body of the reconnect branch. -/
def reconnect (c : Nat) (memory : Bool) (env : InitEnv) (w : Net) : Option Net := do
  let w ← mqttDisconnect c memory w
  mqttExampleInit env (w.free c)

/-- The MQTT part of a pass of the loop; `uwTick` is read at `t` and, for the
assignment, at `tSave`. -/
def netPass (s : NetProc) (w : Net) (t tSave : Nat) (memory : Bool) (env : InitEnv) : NetProc :=
  match w.mqttClient.bind fun c => (mqttClientIsConnected c w).map fun b => (c, b) with
  | none => { s with net := none, clock := tSave }
  | some (c, connected) =>
    let (vars, action) := mqttBranch s.vars connected (uwTick t) (uwTick tSave)
    if action = some .reconnect then
      { net := reconnect c memory env w, vars := vars, clock := tSave, begun := tSave }
    else { s with vars := vars, clock := tSave }

/-- An event of the stack, or a pass of the loop. -/
inductive NetEvent where
  | tcp (id : Nat) (e : TcpEvent)
  | cyclic (c : Nat) (space memory : Bool)
  | pass (t tSave : Nat) (memory : Bool) (env : InitEnv)

def step (s : NetProc) (e : NetEvent) : Option NetProc :=
  s.net.bind fun w =>
    match e with
    | .tcp id e =>
      (w.pcb id).bind fun p => if e.enabled p then some { s with net := tcpEvent p w e } else none
    | .cyclic c space memory =>
      if c ∈ w.timeouts then
        some { s with net := mqttCyclicTimer c space memory (w.sysUntimeout c) }
      else none
    | .pass t tSave memory env =>
      if Advances s.clock t ∧ Advances t tSave then some (netPass s w t tSave memory env) else none

/-- `net_process` before its loop, at time `t`. -/
def start (env : InitEnv) (t : Nat) : NetProc := ⟨mqttExampleInit env Net.empty, {}, t, 0⟩

/-- The reconnect branch is taken in a pass that reads `uwTick` at `t`. -/
def Reconnects (s : NetProc) (w : Net) (t : Nat) : Prop :=
  (w.mqttClient.bind fun c => mqttClientIsConnected c w) = some false ∧
    s.vars.lastMqttTime + mqttInterval < uwTick t

theorem mqttBranch_saves {v : NetVars} {connected : Bool} {now save : BitVec 32}
    (h : (mqttBranch v connected now save).2 = some .reconnect) :
    (mqttBranch v connected now save).1.lastMqttTime = save := by
  obtain ⟨h', -⟩ | ⟨-, hst, hdue⟩ := mqttBranch_fires.mp h
  · cases h'
  · simp [mqttBranch, hst, hdue]

theorem mqttBranch_keeps {v : NetVars} {connected : Bool} {now save : BitVec 32}
    (h : (mqttBranch v connected now save).2 ≠ some .reconnect) :
    (mqttBranch v connected now save).1.lastMqttTime = v.lastMqttTime := by
  have hno : ¬ (connected = false ∧ v.lastMqttTime + mqttInterval < now) := fun hre =>
    h (mqttBranch_fires.mpr (.inr ⟨rfl, hre⟩))
  unfold mqttBranch
  split
  · split <;> rfl
  · rename_i hst
    rw [if_neg fun hdue => hno ⟨by simpa using hst, hdue⟩]

section Pass

variable {s : NetProc} {w : Net} {c : Nat} {cl : MqttClient} (hc : w.mqttClient = some c)
  (hcl : w.heap c = some cl) (hnet : s.net = some w) (t tSave : Nat) (memory : Bool)
  (env : InitEnv)
include hc hcl

theorem reconnects_iff : Reconnects s w t ↔
    cl.connState ≠ .mqttConnected ∧ s.vars.lastMqttTime + mqttInterval < uwTick t := by
  simp [Reconnects, hc, hcl, mqttClientIsConnected]

theorem netPass_of_reconnects (h : Reconnects s w t) :
    (netPass s w t tSave memory env).net = reconnect c memory env w := by
  obtain ⟨hst, hdue⟩ := (reconnects_iff hc hcl t).mp h
  simp [netPass, hc, hcl, mqttClientIsConnected, hst, mqttBranch, hdue]

include hnet in
theorem netPass_of_not_reconnects (h : ¬ Reconnects s w t) :
    (netPass s w t tSave memory env).net = some w := by
  have hno : (mqttBranch s.vars (decide (cl.connState = .mqttConnected)) (uwTick t)
      (uwTick tSave)).2 ≠ some .reconnect := by
    rw [reconnects_iff hc hcl] at h
    rw [Ne, mqttBranch_fires]
    rintro (⟨h', -⟩ | ⟨-, hst, hdue⟩)
    · cases h'
    · exact h ⟨of_decide_eq_false hst, hdue⟩
  simp only [netPass, hc, hcl, mqttClientIsConnected, Option.bind_eq_bind, Option.bind_some,
    Option.map_some, if_neg hno, hnet]

end Pass

/-! ## Safety -/

/-- What lwIP may still call has a live client as its argument, and `mqtt_client`
points to one. -/
structure Safe (w : Net) : Prop where
  pcbs : ∀ p ∈ w.active, p.mayCall = true → ∀ c, p.callbackArg = some c → (w.heap c).isSome
  timers : ∀ c ∈ w.timeouts, (w.heap c).isSome
  client : ∃ c, w.mqttClient = some c ∧ (w.heap c).isSome

/-- The program is defined so far, and safe. -/
def NetSafe (s : NetProc) : Prop := ∃ w, s.net = some w ∧ Safe w

theorem safe_of_phase {w : Net} {c n : Nat} (h : Phase w c n) : Safe w := by
  obtain ⟨cl, hcur⟩ := h.current
  have hlive : (w.heap c).isSome := by simp [hcur.heap]
  have harg : ∀ p ∈ w.active, p.callbackArg = some c := by
    cases h with
    | down _ hact => simp [hact]
    | connecting _ hact _ hp => simpa [hact] using hp.arg
    | up hup => simpa [hup.active] using hup.pcb.arg
    | closing _ hact _ hp => simpa [hact] using hp.arg
  have htime : ∀ d ∈ w.timeouts, d = c := by
    cases h with
    | down _ _ htime => simp [htime]
    | connecting _ _ htime => simp [htime]
    | up hup => simp [hup.timeouts]
    | closing _ _ htime => simp [htime]
  refine ⟨fun p hp _ d hd => ?_, fun d hd => ?_, c, hcur.client, hlive⟩
  · obtain rfl : d = c := Option.some.inj (hd.symm.trans (harg p hp))
    exact hlive
  · rw [htime d hd]
    exact hlive

/-! ## Replacing a client -/

/-- The stack has let go of the client: its pcb, if any, is still in `SYN_SENT`. -/
def LetGo (w : Net) : Prop :=
  ∀ p ∈ w.active, p.callbackArg = w.mqttClient → p.state = .synSent

theorem not_letGo {w : Net} {c : Nat} {cl : MqttClient} {p : TcpPcb} (hcur : w.Current c cl)
    (hact : w.active = [p]) (harg : p.callbackArg = some c) (hst : p.state ≠ .synSent) :
    ¬ LetGo w := fun h =>
  hst (h p (by simp [hact]) (harg.trans hcur.client.symm))

/-- **Disconnecting leaves a pcb** exactly if the stack has not let go of the client. -/
theorem mqttDisconnect_phase {w : Net} {c : Nat} (h : Phase w c 0) (memory : Bool) :
    ∃ w', mqttDisconnect c memory w = some w' ∧ w'.timeouts = [] ∧
      w'.nextClient = w.nextClient ∧
      ((LetGo w ∧ w'.active = []) ∨ (¬ LetGo w ∧ ∃ q, w'.active = [q] ∧ q.Lingering c)) := by
  -- `mqtt_close` from `mqtt_disconnect`, in the two phases in which there is something to close
  have hclose {cl : MqttClient} {p : TcpPcb} (hcur : w.Current c cl) (hact : w.active = [p])
      (htime : w.timeouts.erase c = []) (hconn : cl.conn = some p.id)
      (hst : cl.connState ≠ .tcpDisconnected) :
      ∃ w', mqttDisconnect c memory w = some w' ∧ w'.timeouts = [] ∧
        w'.nextClient = w.nextClient ∧ w'.active = (closed memory p).toList := by
    have hcur' := hcur.set { cl with connState := .tcpDisconnected } w.active w.timeouts
    have hdis : mqttDisconnect c memory w =
        mqttClose c .accepted memory (w.setClient c { cl with connState := .tcpDisconnected }) := by
      rw [mqttDisconnect, hcur.heap, Option.bind_eq_bind, Option.bind_some, if_pos hst]
    rw [hdis]
    exact ⟨_, mqttClose_eq hcur'.heap hact hconn (.inr rfl) memory, htime, rfl, rfl⟩
  cases h with
  | @down cl hcur hact htime _ hst =>
    refine ⟨w, ?_, htime, rfl, .inl ⟨by simp [LetGo, hact], hact⟩⟩
    simp [mqttDisconnect, hcur.heap, hst]
  | @connecting cl p hcur hact htime hp hconn hst =>
    obtain ⟨w', heq, htime', hnext, hact'⟩ :=
      hclose hcur hact (by simp [htime]) hconn (by simp [hst])
    refine ⟨w', heq, htime', hnext, .inl ⟨by simp [LetGo, hact, hp.state], ?_⟩⟩
    rw [hact', hp.closed memory]
    rfl
  | @up cl p hup hn =>
    have hst : cl.connState ≠ .tcpDisconnected := by rcases hup.connState with h | h <;> simp [h]
    obtain ⟨w', heq, htime', hnext, hact'⟩ :=
      hclose hup.cur hup.active (by simp [hup.timeouts]) hup.conn hst
    have hsyn : p.state ≠ .synSent := by rcases hup.pcb.state with h | h <;> simp [h]
    refine ⟨w', heq, htime', hnext, .inr ⟨not_letGo hup.cur hup.active hup.pcb.arg hsyn, ?_⟩⟩
    rcases hup.pcb.closed_cases memory with ⟨hun, -⟩ | ⟨-, q, hq, -, hl⟩
    · exact absurd hn hun
    · exact ⟨q, by rw [hact', hq]; rfl, hl⟩
  | @closing cl p hcur hact htime hp _ hst =>
    refine ⟨w, ?_, htime, rfl, .inr ⟨not_letGo hcur hact hp.arg hp.state, p, hact, hp⟩⟩
    simp [mqttDisconnect, hcur.heap, hst]

/-- The new client, given memory. Nothing happens to the others. -/
theorem mqttExampleInit_spec {w : Net} {env : InitEnv} (hm : env.memory = true) :
    ∃ w', mqttExampleInit env w = some w' ∧ (∀ q ∈ w.active, q ∈ w'.active) ∧
      (∀ c, c ≠ w.nextClient → w'.heap c = w.heap c) ∧
      (w.active = [] → w.timeouts = [] → Phase w' w.nextClient 0) := by
  have hinit : mqttExampleInit env w = mqttClientConnect w.nextClient env
      { w.setClient w.nextClient {} with
        nextClient := w.nextClient + 1, mqttClient := some w.nextClient } := by
    simp only [mqttExampleInit, mqttClientNew, hm, if_true]
  have hnew : (Function.update w.heap w.nextClient (some ({} : MqttClient))) w.nextClient =
      some {} := Function.update_self ..
  rw [hinit]
  simp only [mqttClientConnect, Net.setClient, hnew, Option.bind_eq_bind, Option.bind_some,
    Function.update_idem, ne_eq, not_true_eq_false, if_false]
  have hheap (cl : MqttClient) : ∀ c, c ≠ w.nextClient →
      Function.update w.heap w.nextClient (some cl) c = w.heap c := fun c hc =>
    Function.update_of_ne hc ..
  split
  · refine ⟨_, rfl, fun q hq => List.mem_cons_of_mem _ hq, hheap _, fun hact htime => ?_⟩
    rw [hact]
    exact .connecting ⟨rfl, Function.update_self .., Nat.lt_succ_self _⟩ rfl htime
      ⟨rfl, rfl, rfl, rfl, rfl, rfl, rfl, rfl, rfl, rfl⟩ rfl rfl
  · refine ⟨_, rfl, fun q hq => hq, hheap _, fun hact htime => ?_⟩
    exact .down ⟨rfl, Function.update_self .., Nat.lt_succ_self _⟩ hact htime rfl rfl

/-- Without memory there is no client left. -/
theorem mqttExampleInit_no_memory {w : Net} {env : InitEnv} (hm : env.memory = false) :
    mqttExampleInit env w = some { w with mqttClient := none } := by
  simp only [mqttExampleInit, mqttClientNew, hm, Bool.false_eq_true, if_false]

theorem not_safe_of_null {w : Net} (h : w.mqttClient = none) : ¬ Safe w := fun hs => by
  obtain ⟨c, hc, -⟩ := hs.client
  simp [h] at hc

/-- **A client is replaced safely exactly if the stack has let go of it** and
there is memory for the next one. -/
theorem reconnect_spec {w : Net} {c : Nat} (h : Phase w c 0) (memory : Bool) (env : InitEnv) :
    ∃ w', reconnect c memory env w = some w' ∧
      (env.memory = true ∧ LetGo w → ∃ c', Phase w' c' 0) ∧
      (¬ (env.memory = true ∧ LetGo w) → ¬ Safe w') := by
  obtain ⟨cl, hcur⟩ := h.current
  obtain ⟨w₁, hdis, htime, hnext, hlet⟩ := mqttDisconnect_phase h memory
  rw [reconnect, hdis, Option.bind_eq_bind, Option.bind_some]
  cases hm : env.memory with
  | false =>
    refine ⟨_, mqttExampleInit_no_memory hm, fun hg => absurd hg.1 (by simp), fun _ => ?_⟩
    exact not_safe_of_null rfl
  | true =>
    obtain ⟨w', heq, hactive, hheap, hphase⟩ := mqttExampleInit_spec (w := w₁.free c) hm
    refine ⟨w', heq, fun ⟨_, hg⟩ => ?_, fun hg => ?_⟩
    · rcases hlet with ⟨-, hact⟩ | ⟨hn, -⟩
      · exact ⟨_, hphase hact htime⟩
      · exact absurd hg hn
    · -- the pcb that was left is polled, with the client that was freed
      rcases hlet with ⟨hl, -⟩ | ⟨-, q, hact, hq⟩
      · exact absurd ⟨rfl, hl⟩ hg
      · intro hs
        have hmem : q ∈ w'.active := hactive q (by simp [Net.free, hact])
        have hlive := hs.pcbs q hmem (by simp [TcpPcb.mayCall, hq.poll]) c hq.arg
        have hne : c ≠ (w₁.free c).nextClient := by
          have := hcur.fresh
          simp only [Net.free, hnext]
          omega
        rw [hheap c hne] at hlive
        simp [Net.free] at hlive

/-! ## Along a run -/

/-- There is one client, in one of its phases. -/
def InPhases (s : NetProc) : Prop := ∃ w c, s.net = some w ∧ Phase w c 0

/-- If the reconnect branch is taken, the stack has let go of the client and there
is memory for the next one. -/
def ReplacesSafely (s : NetProc) : NetEvent → Prop
  | .tcp _ _ | .cyclic _ _ _ => True
  | .pass t _ _ env => ∀ w, s.net = some w → Reconnects s w t → env.memory = true ∧ LetGo w

/-- **Every step keeps the client in its phases**, as long as a client that is replaced
is replaced safely; a step that does not is not safe. -/
theorem step_inPhases {s u : NetProc} {e : NetEvent} (hi : InPhases s) (h : step s e = some u) :
    (ReplacesSafely s e → InPhases u) ∧ (¬ ReplacesSafely s e → ¬ NetSafe u) := by
  obtain ⟨w, c, hnet, hphase⟩ := hi
  rw [step, hnet, Option.bind_some] at h
  cases e with
  | tcp id e =>
    obtain ⟨p, hp, h⟩ := Option.bind_eq_some_iff.mp h
    obtain ⟨he, hu⟩ := Option.ite_none_right_eq_some.mp h
    obtain ⟨w', heq, h'⟩ := tcpEvent_phase hphase (List.mem_of_find?_eq_some hp) he
    cases hu
    exact ⟨fun _ => ⟨w', c, heq, h'⟩, fun hn => absurd trivial hn⟩
  | cyclic d space memory =>
    obtain ⟨hd, hu⟩ := Option.ite_none_right_eq_some.mp h
    obtain ⟨w', heq, h'⟩ := mqttCyclicTimer_phase hphase hd space memory
    cases hu
    exact ⟨fun _ => ⟨w', c, heq, h'⟩, fun hn => absurd trivial hn⟩
  | pass t tSave memory env =>
    obtain ⟨-, hu⟩ := Option.ite_none_right_eq_some.mp h
    cases hu
    obtain ⟨cl, hcur⟩ := hphase.current
    by_cases hre : Reconnects s w t
    · have hnet' := netPass_of_reconnects hcur.client hcur.heap t tSave memory env hre
      obtain ⟨w', heq, hsafe, hunsafe⟩ := reconnect_spec hphase memory env
      refine ⟨fun hg => ?_, fun hg hu => ?_⟩
      · obtain ⟨c', h'⟩ := hsafe (hg w hnet hre)
        exact ⟨w', c', hnet'.trans heq, h'⟩
      · obtain ⟨w'', hw'', hs⟩ := hu
        obtain rfl : w' = w'' := Option.some.inj ((hnet'.trans heq).symm.trans hw'')
        refine hunsafe (fun hg' => hg fun w₂ hw₂ _ => ?_) hs
        obtain rfl : w = w₂ := Option.some.inj (hnet.symm.trans hw₂)
        exact hg'
    · have hnet' :=
        netPass_of_not_reconnects hcur.client hcur.heap hnet t tSave memory env hre
      refine ⟨fun _ => ⟨w, c, hnet', hphase⟩, fun hg => absurd (fun w₂ hw₂ hre₂ => ?_) hg⟩
      obtain rfl : w = w₂ := Option.some.inj (hnet.symm.trans hw₂)
      exact absurd hre₂ hre

theorem InPhases.safe {s : NetProc} (h : InPhases s) : NetSafe s := by
  obtain ⟨w, c, hnet, hphase⟩ := h
  exact ⟨w, hnet, safe_of_phase hphase⟩

/-- The first client, if there is memory for it. -/
theorem start_inPhases (env : InitEnv) (t : Nat) :
    (env.memory = true → InPhases (start env t)) ∧
      (env.memory = false → ¬ NetSafe (start env t)) := by
  refine ⟨fun hm => ?_, fun hm hs => ?_⟩
  · obtain ⟨w, heq, -, -, hphase⟩ := mqttExampleInit_spec (w := Net.empty) hm
    exact ⟨w, _, heq, hphase rfl rfl⟩
  · obtain ⟨w, hw, hsafe⟩ := hs
    obtain rfl := Option.some.inj ((mqttExampleInit_no_memory (w := Net.empty) hm).symm.trans hw)
    exact not_safe_of_null rfl hsafe

/-- **No callback outlives its client**, along any run, if and only if there is memory for
the first client, and each one is replaced when the stack has let go of it and there is
memory for the next. -/
theorem callbacks_safe_iff (env : InitEnv) (t : Nat) (es : List NetEvent) :
    (NetSafe (start env t) ∧ Along step (fun _ _ u => NetSafe u) (start env t) es) ↔
      (env.memory = true ∧ Along step (fun s e _ => ReplacesSafely s e) (start env t) es) := by
  have hsafe {s u : NetProc} {e : NetEvent} (hi : InPhases s) (h : step s e = some u) :
      NetSafe u ↔ ReplacesSafely s e :=
    ⟨fun hu => not_imp_not.mp (step_inPhases hi h).2 hu, fun hg => ((step_inPhases hi h).1 hg).safe⟩
  cases hm : env.memory with
  | false => simp [(start_inPhases env t).2 hm]
  | true =>
    have hi := (start_inPhases env t).1 hm
    rw [along_iff (fun s e u hi h hg => (step_inPhases hi h).1 hg)
      (fun s e u hi h => hsafe hi h) es hi]
    simp [hi.safe]

/-- The server accepts a client, then closes the connection. -/
def lostRun : List NetEvent :=
  [.tcp 0 .synAck, .tcp 0 (.segment { acked := true, len := 4 } [(.connack 2 0, true)] true),
    .tcp 0 (.segment { fin := true } [] true)]

/-- The pcb waits for the last ACK when the client is freed, and is polled with it;
and when there is no memory, `mqtt_client` is null. -/
theorem callbacks_outlive_client :
    ¬ (NetSafe (start {} 0) ∧ Along step (fun _ _ u => NetSafe u) (start {} 0)
        (lostRun ++ [.pass 1001 1001 true {}])) ∧
      ¬ (NetSafe (start { memory := false } 0) ∧
        Along step (fun _ _ u => NetSafe u) (start { memory := false } 0) []) := by
  refine ⟨fun ⟨_, h⟩ => ?_, fun ⟨h, _⟩ => ?_⟩
  · obtain ⟨w, hw, hs⟩ := ((along_append _ lostRun _).mp h).2 _ rfl _ rfl |>.1
    cases hw
    have hlive := hs.pcbs _ (List.mem_cons_of_mem _ List.mem_cons_self) rfl 0 rfl
    cases hlive
  · exact (start_inPhases _ 0).2 rfl h

/-! ## Attempts to connect -/

/-- An attempt to connect is under way. -/
def InProgress (cl : MqttClient) : Prop :=
  cl.connState = .tcpConnecting ∨ cl.connState = .mqttConnecting

/-- `mqtt_client` points to the client `cl`. -/
def Client (s : NetProc) (w : Net) (cl : MqttClient) : Prop :=
  s.net = some w ∧ ∃ c, w.mqttClient = some c ∧ w.heap c = some cl

/-- The reconnect branch is only taken for a client without a connection, and a pass
does not touch an attempt that is under way. -/
def OnlyLost (s : NetProc) (e : NetEvent) (u : NetProc) : Prop :=
  match e with
  | .tcp _ _ | .cyclic _ _ _ => True
  | .pass t _ _ _ => ∀ w cl, Client s w cl →
    (Reconnects s w t → cl.connState = .tcpDisconnected) ∧
      (InProgress cl → u.net = some w)

/-- The retry period, of 1000 ticks after `begun`, is over at `t` for the counter. -/
def PeriodOver (begun t : Nat) : Prop := (begun + 1000) % 2 ^ 32 < t % 2 ^ 32

/-- No attempt is under way when the retry period is over. -/
def InTime (s : NetProc) : NetEvent → Prop
  | .tcp _ _ | .cyclic _ _ _ => True
  | .pass t _ _ _ => ∀ w cl, Client s w cl → InProgress cl → ¬ PeriodOver s.begun t

/-- `last_mqtt_time` is the time of the last firing. -/
def Stamped (s : NetProc) : Prop := s.vars.lastMqttTime = uwTick s.begun

theorem Stamped.due_iff {s : NetProc} (h : Stamped s) (t : Nat) :
    s.vars.lastMqttTime + mqttInterval < uwTick t ↔ PeriodOver s.begun t := by
  have hsum : (uwTick s.begun + mqttInterval).toNat = (s.begun + 1000) % 2 ^ 32 := by
    simp [uwTick, mqttInterval, Nat.add_mod]
  rw [h, BitVec.lt_def, hsum, uwTick, BitVec.toNat_ofNat, PeriodOver]

/-- The timer is saved exactly when the branch is taken. -/
theorem netPass_stamped {s : NetProc} (hi : Stamped s) (w : Net) (t tSave : Nat) (memory : Bool)
    (env : InitEnv) : Stamped (netPass s w t tSave memory env) := by
  unfold netPass
  split
  · exact hi
  · rename_i c connected _
    dsimp only
    split
    · rename_i hre
      exact mqttBranch_saves hre
    · rename_i hre
      exact (mqttBranch_keeps hre).trans hi

theorem step_stamped {s u : NetProc} {e : NetEvent} (hi : Stamped s) (h : step s e = some u) :
    Stamped u := by
  obtain ⟨w, hnet, h⟩ := Option.bind_eq_some_iff.mp h
  cases e with
  | tcp id e =>
    obtain ⟨p, hp, h⟩ := Option.bind_eq_some_iff.mp h
    obtain ⟨he, hu⟩ := Option.ite_none_right_eq_some.mp h
    cases hu
    exact hi
  | cyclic d space memory =>
    obtain ⟨hd, hu⟩ := Option.ite_none_right_eq_some.mp h
    cases hu
    exact hi
  | pass t tSave memory env =>
    obtain ⟨-, hu⟩ := Option.ite_none_right_eq_some.mp h
    cases hu
    exact netPass_stamped hi w t tSave memory env

theorem onlyLost_iff {s u : NetProc} {e : NetEvent} (hi : Stamped s) (h : step s e = some u) :
    OnlyLost s e u ↔ InTime s e := by
  cases e with
  | tcp | cyclic => exact Iff.rfl
  | pass t tSave memory env =>
    obtain ⟨w₀, hnet, h⟩ := Option.bind_eq_some_iff.mp h
    obtain ⟨-, hu⟩ := Option.ite_none_right_eq_some.mp h
    cases hu
    refine forall_congr' fun w => forall_congr' fun cl => forall_congr' fun ⟨hw, c, hc, hcl⟩ => ?_
    obtain rfl : w₀ = w := Option.some.inj (hnet.symm.trans hw)
    have hre : Reconnects s w₀ t ↔ cl.connState ≠ .mqttConnected ∧ PeriodOver s.begun t := by
      rw [reconnects_iff hc hcl, hi.due_iff]
    constructor
    · rintro ⟨hlost, -⟩ hprog hover
      have hst : cl.connState ≠ .mqttConnected := by rcases hprog with h | h <;> simp [h]
      have hdown := hlost (hre.mpr ⟨hst, hover⟩)
      rcases hprog with h | h <;> simp [h] at hdown
    · refine fun hin => ⟨fun hr => ?_, fun hprog => ?_⟩
      · obtain ⟨hst, hover⟩ := hre.mp hr
        have hno : ¬ InProgress cl := fun hprog => hin hprog hover
        cases hc : cl.connState <;> simp_all [InProgress]
      · refine (netPass_of_not_reconnects hc hcl hnet t tSave memory env fun hr => ?_)
        exact hin hprog (hre.mp hr).2

/-- **The reconnect branch only replaces lost connections**, along any run, if and only
if every attempt to connect is decided before its retry period is over. -/
theorem reconnect_only_lost_iff (env : InitEnv) (t : Nat) (es : List NetEvent) :
    Along step OnlyLost (start env t) es ↔
      Along step (fun s e _ => InTime s e) (start env t) es :=
  along_iff (fun _ _ _ hi h _ => step_stamped hi h) (fun _ _ _ hi h => onlyLost_iff hi h) es rfl

/-- A client that waits for the SYN|ACK, and one that waits for the CONNACK, are both
replaced after 1001 ticks. -/
theorem reconnect_tears_down_attempts :
    ¬ Along step OnlyLost (start {} 0) [.pass 1001 1001 true {}] ∧
      ¬ Along step OnlyLost (start {} 0) [.tcp 0 .synAck, .pass 1001 1001 true {}] := by
  constructor
  · intro h
    have hlost := ((h _ rfl).1 _ _ ⟨rfl, 0, rfl, rfl⟩).1 ⟨rfl, by decide⟩
    cases hlost
  · intro h
    have hlost := (((h _ rfl).2 _ rfl).1 _ _ ⟨rfl, 0, rfl, rfl⟩).1 ⟨rfl, by decide⟩
    cases hlost

end MqttDevice.NetProcess
