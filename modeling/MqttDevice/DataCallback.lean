import MqttDevice.NetProcess
import MqttDevice.Lwip.MqttParse
import MqttDevice.Lwip.Linked

/-!
# The callback for received data

A client gets its callbacks for incoming messages with the CONNACK that accepts
it. `mqtt_message_received` tests the one for a topic before it is called, not the
one for data, and takes a PUBLISH in every state of the connection.

* `parse_accepted`, `parse_waiting`: the calls of `data_cb` that are made for a
  segment;
* `step_linked`: however clients are replaced, data gets to the one whose
  callbacks the next CONNACK installs;
* `data_cb_installed_iff`: along any run `data_cb` is only called when it is
  installed, if and only if no PUBLISH is delivered to a client that waits for
  its CONNACK.
-/

namespace MqttDevice.DataCallback

open MqttDevice.Runs MqttDevice.Lwip
open MqttDevice.NetProcess (NetProc NetEvent netPass reconnect)

/-! ## The system, with the bytes of its segments -/

/-- The system of `net_process`, the buffers of the clients, and the calls of `data_cb`
of the last step. -/
structure RecvProc where
  proc : NetProc
  rx : Nat → RxState := fun _ => {}
  data : List DataCall := []

/-- A segment with its bytes, the results of `mqtt_take_request` for its messages, the
number of rounds for which the loop is followed, and the result of `tcp_send_fin`; or
another event of `net_process`. -/
inductive RecvEvent where
  | segment (id : Nat) (seg : Segment) (bytes : List (BitVec 8)) (found : Nat → Bool)
      (rounds : Nat) (memory : Bool)
  | other (e : NetEvent)

def isSegment : NetEvent → Bool
  | .tcp _ (.segment _ _ _) => true
  | _ => false

/-- `mqtt_tcp_connect_cb` resets `msg_idx`. The buffer of a new client is all zero. -/
def rxAfter (s : RecvProc) : NetEvent → Nat → RxState
  | .tcp id .synAck =>
    match (s.proc.net.bind fun w => w.pcb id).bind fun p => p.callbackArg with
    | some c => Function.update s.rx c { s.rx c with msgIdx := 0 }
    | none => s.rx
  | _ => s.rx

def segmentOf (seg : Segment) (bytes : List (BitVec 8)) : Segment :=
  { seg with len := bytes.length }

/-- The client that gets the data of a segment, and the net when it gets them. -/
def receiver (s : RecvProc) (id : Nat) (seg : Segment) (bytes : List (BitVec 8)) :
    Option (Nat × Net) :=
  s.proc.net.bind fun w => (w.pcb id).bind fun p => tcpInputTo p (segmentOf seg bytes) w

/-- The loop of `mqtt_parse_incoming` before its first round. -/
def scanOf (s : RecvProc) (c : Nat) (bytes : List (BitVec 8)) : Scan :=
  { rx := s.rx c, rest := bytes }

section System

variable (shiftOut : BitVec 32 → Nat → BitVec 32)

/-- An event that cannot happen in the state has no next state. After a call through a
null pointer, and while the loop runs, the stack has none. -/
def step (s : RecvProc) : RecvEvent → Option RecvProc
  | .segment id seg bytes found rounds memory =>
    let next (ms : List (Message × Bool)) : Option NetProc :=
      NetProcess.step s.proc (.tcp id (.segment (segmentOf seg bytes) ms memory))
    match receiver s id seg bytes with
    | none => (next []).map fun proc => { s with proc := proc, data := [] }
    | some (c, w) =>
      let r := mqttParseIncomingBytes shiftOut found c rounds (scanOf s c bytes) w
      (next (r.received.map Received.call)).map fun proc =>
        match r.result with
        | none => { s with proc := { proc with net := none }, data := r.data }
        | some (_, rx, _) => ⟨proc, Function.update s.rx c rx, r.data⟩
  | .other e =>
    if isSegment e then none
    else (NetProcess.step s.proc e).map fun proc => ⟨proc, rxAfter s e, []⟩

def start (env : InitEnv) (t : Nat) : RecvProc := { proc := NetProcess.start env t }

end System

/-! ## The data of a segment -/

/-- The packets of a segment, as long as each is taken. -/
def packets (shiftOut : BitVec 32 → Nat → BitVec 32) (found : Nat → Bool) :
    Nat → Scan → List Received
  | 0, _ => []
  | n + 1, s =>
    if s.rest = [] then []
    else
      match s.round shiftOut found with
      | (none, t) => packets shiftOut found n t
      | (some k, t) => k :: packets shiftOut found n t

/-- The packet ends the wait for the CONNACK: it accepts the client, or the connection is
closed for it. -/
def ends (k : Received) : Bool :=
  match k.message with
  | .connack length code => k.checked || (2 ≤ length && code == 0)
  | .other accepted => k.checked && !accepted

/-- The client waits for its CONNACK. -/
def Waiting (w : Net) (c : Nat) : Prop :=
  w.mqttClient = some c ∧ ∃ cl, w.heap c = some cl ∧ cl.connState = .mqttConnecting ∧
    cl.connectCb = true ∧ cl.inpub = false

/-- The client is connected, with its callbacks. -/
def Accepted (w : Net) (c : Nat) : Prop :=
  ∃ cl, w.heap c = some cl ∧ cl.connState = .mqttConnected ∧ cl.inpub = true

/-- What is delivered does not end the wait. -/
theorem ends_of_data {k : Received} {d : DataArgs} (h : k.data = some d) : ends k = false := by
  unfold Received.data at h
  obtain ⟨⟨hfits, htype⟩, h⟩ := Option.ite_none_right_eq_some.mp h
  have hsome : k.publish.isSome = true := by
    cases hpub : k.publish with
    | none => simp [hpub] at h
    | some => rfl
  simp [ends, Received.message, hfits, htype, hsome]

/-- A message for a client that is connected. -/
theorem received_accepted {c : Nat} {k : Received} {w : Net} (hw : Accepted w c)
    {data : List DataCall} {res : Option (ConnStatus × Net)}
    (h : mqttMessageReceivedBytes c k w = (data, res)) :
    (∀ d ∈ data, d.installed = true) ∧ ∀ st w', res = some (st, w') → Accepted w' c := by
  obtain ⟨cl, hcl, hst, hin⟩ := hw
  have hmsg (st : ConnStatus) (w' : Net) (h : mqttMessageReceived c k.message w = some (st, w')) :
      w' = w := by
    rcases mqttMessageReceived_cases h with rfl | ⟨cl', hcl', hst', -⟩
    · rfl
    · obtain rfl := Option.some.inj (hcl.symm.trans hcl')
      cases hst.symm.trans hst'
  unfold mqttMessageReceivedBytes at h
  cases hd : k.data with
  | none =>
    rw [hd] at h
    cases h
    refine ⟨List.forall_mem_nil _, fun st w' hres => ?_⟩
    rw [hmsg st w' hres]
    exact ⟨cl, hcl, hst, hin⟩
  | some d =>
    simp only [hd, hcl, hin, if_true] at h
    cases h
    refine ⟨fun d' hd' => ?_, fun st w' hres => ?_⟩
    · rw [List.mem_singleton.mp hd']
    · rw [hmsg st w' hres]
      exact ⟨cl, hcl, hst, hin⟩

/-- A message for a client that waits. -/
theorem received_waiting {c : Nat} {k : Received} {w : Net} (hw : Waiting w c)
    (hd : k.data = none) :
    ∃ res w', mqttMessageReceivedBytes c k w = ([], some (res, w')) ∧
      (ends k = false ∧ ¬ (k.checked = true ∧ res ≠ .accepted) ∧ w' = w ∨
        ends k = true ∧ (k.checked = true ∧ res ≠ .accepted) ∨
        ends k = true ∧ Accepted w' c) := by
  obtain ⟨hc, cl, hcl, hst, hcb, hin⟩ := hw
  have hbytes : mqttMessageReceivedBytes c k w = ([], mqttMessageReceived c k.message w) := by
    rw [mqttMessageReceivedBytes, hd]
  rw [hbytes, ends]
  cases hm : k.message with
  | other accepted =>
    refine ⟨if accepted then .accepted else .disconnected, w, rfl, ?_⟩
    cases accepted <;> cases k.checked <;> simp
  | connack length code =>
    simp only [mqttMessageReceived, hcl, hst, Option.bind_eq_bind, Option.bind_some, if_true]
    by_cases hlen : length < 2
    · refine ⟨.disconnected, w, by rw [if_pos hlen], ?_⟩
      cases k.checked <;> simp [hlen]
    · rw [if_neg hlen]
      by_cases hcode : code = 0
      · -- the connection callback installs the callbacks
        have hcall : mqttConnectionCb .accepted
            (w.setClient c { cl with cyclicTick := 0, connState := .mqttConnected }) =
              some (w.setClient c
                { cl with cyclicTick := 0, connState := .mqttConnected, inpub := true }) := by
          simp [mqttConnectionCb, Net.setClient, hc]
        refine ⟨.accepted, w.setClient c
          { cl with cyclicTick := 0, connState := .mqttConnected, inpub := true }, ?_,
          .inr (.inr ⟨?_, ?_⟩)⟩
        · rw [if_pos hcode, if_pos hcb, hcall]
          rfl
        · simp [hcode, Nat.not_lt.mp hlen]
        · exact ⟨_, Function.update_self .., rfl, rfl⟩
      · refine ⟨.refused code, w, by rw [if_neg hcode], ?_⟩
        cases k.checked <;> simp [hcode]

theorem received_null {c : Nat} {k : Received} {w : Net} (hw : Waiting w c) {d : DataArgs}
    (hd : k.data = some d) {data : List DataCall} {res : Option (ConnStatus × Net)}
    (h : mqttMessageReceivedBytes c k w = (data, res)) :
    res = none ∧ ∃ call ∈ data, call.installed = false := by
  obtain ⟨-, cl, hcl, -, -, hin⟩ := hw
  simp only [mqttMessageReceivedBytes, hd, hcl, hin, Bool.false_eq_true, if_false] at h
  cases h
  exact ⟨rfl, _, List.mem_singleton_self _, rfl⟩

theorem received_waiting_some {c : Nat} {k : Received} {w w' : Net} (hw : Waiting w c)
    {data : List DataCall} {res : ConnStatus}
    (h : mqttMessageReceivedBytes c k w = (data, some (res, w'))) :
    k.data = none ∧ data = [] ∧
      (ends k = false ∧ ¬ (k.checked = true ∧ res ≠ .accepted) ∧ w' = w ∨
        ends k = true ∧ (k.checked = true ∧ res ≠ .accepted) ∨
        ends k = true ∧ Accepted w' c) := by
  cases hd : k.data with
  | some d => cases (received_null hw hd h).1
  | none =>
    obtain ⟨res', w'', heq, hcases⟩ := received_waiting hw hd
    cases heq.symm.trans h
    exact ⟨rfl, rfl, hcases⟩

section Parse

variable (shiftOut : BitVec 32 → Nat → BitVec 32) (found : Nat → Bool)

/-- **Once the client is accepted**, data is delivered to the callback. -/
theorem parse_accepted {c : Nat} (rounds : Nat) (s : Scan) {w : Net} (hw : Accepted w c) :
    ∀ d ∈ (mqttParseIncomingBytes shiftOut found c rounds s w).data, d.installed = true := by
  revert hw
  apply mqttParseIncomingBytes_rule shiftOut found (c := c)
    (motive := fun _ _ w r => Accepted w c → ∀ d ∈ r.data, d.installed = true)
  case done =>
    intro n s w _ _
    exact List.forall_mem_nil _
  case running =>
    intro s w _ _
    exact List.forall_mem_nil _
  case skip =>
    intro n s t w _ _ ih
    exact ih
  case undefined =>
    intro n s t w k data _ _ hk hw
    exact (received_accepted hw hk).1
  case stop =>
    intro n s t w k data res w' _ _ hk _ hw
    exact (received_accepted hw hk).1
  case next =>
    intro n s t w k data res w' _ _ hk _ r ih hw
    obtain ⟨hdata, hnext⟩ := received_accepted hw hk
    exact List.forall_mem_append.mpr ⟨hdata, ih (hnext res w' rfl)⟩

/-- **While the client waits**, data is only delivered to the callback if no packet up to
the CONNACK delivers any. -/
theorem parse_waiting {c : Nat} (rounds : Nat) (s : Scan) {w : Net} (hw : Waiting w c) :
    (∀ d ∈ (mqttParseIncomingBytes shiftOut found c rounds s w).data, d.installed = true) ↔
      ∀ k ∈ (packets shiftOut found rounds s).takeWhile fun k => !ends k, k.data = none := by
  revert hw
  apply mqttParseIncomingBytes_rule shiftOut found (c := c)
    (motive := fun n s w r => Waiting w c → ((∀ d ∈ r.data, d.installed = true) ↔
      ∀ k ∈ (packets shiftOut found n s).takeWhile fun k => !ends k, k.data = none))
  case done =>
    intro n s w hrest _
    cases n <;> simp [packets, hrest]
  case running =>
    intro s w _ _
    simp [packets]
  case skip =>
    intro n s t w hrest hround ih hw
    simpa [packets, hrest, hround] using ih hw
  case undefined =>
    intro n s t w k data hrest hround hk hw
    simp only [packets, hrest, hround, if_false]
    cases hd : k.data with
    | none =>
      obtain ⟨res, w', heq, -⟩ := received_waiting hw hd
      cases heq.symm.trans hk
    | some d =>
      obtain ⟨-, call, hcall, hnot⟩ := received_null hw hd hk
      refine iff_of_false (fun h => ?_) (fun h => ?_)
      · cases hnot.symm.trans (h call hcall)
      · have hmem := h k (by simp [ends_of_data hd])
        cases hd.symm.trans hmem
  case stop =>
    intro n s t w k data res w' hrest hround hk hstop hw
    simp only [packets, hrest, hround, if_false]
    obtain ⟨hd, rfl, ⟨-, hno, -⟩ | ⟨hends, -⟩ | ⟨hends, -⟩⟩ := received_waiting_some hw hk
    · exact absurd hstop hno
    · simp [hends]
    · simp [hends]
  case next =>
    intro n s t w k data res w' hrest hround hk hnext r ih hw
    simp only [packets, hrest, hround, if_false]
    obtain ⟨hd, rfl, ⟨hends, -, rfl⟩ | ⟨-, hstop⟩ | ⟨hends, haccepted⟩⟩ :=
      received_waiting_some hw hk
    · simpa [List.takeWhile_cons, hends, hd] using ih hw
    · exact absurd hstop hnext
    · -- after the CONNACK nothing more is asked
      simpa [List.takeWhile_cons, hends] using
        parse_accepted shiftOut found n t haccepted

end Parse

/-! ## Along a run -/

/-- The pcbs are in line, if the stack is defined. -/
def LinkedNow (s : NetProc) : Prop := ∀ w, s.net = some w → w.Linked

theorem reconnect_linked {c : Nat} {memory : Bool} {env : InitEnv} {w w' : Net} (hw : w.Linked)
    (hc : w.mqttClient = some c) (h : reconnect c memory env w = some w') : w'.Linked := by
  obtain ⟨w₁, hdisc, h⟩ := Option.bind_eq_some_iff.mp h
  have hquiet : w₁.Quiet := mqttDisconnect_quiet hw hc hdisc
  exact mqttExampleInit_linked (w := w₁.free c) hquiet h

theorem netPass_linked {s : NetProc} {w : Net} (hs : LinkedNow s) (hw : w.Linked) (t tSave : Nat)
    (memory : Bool) (env : InitEnv) : LinkedNow (netPass s w t tSave memory env) := by
  intro w' h
  unfold netPass at h
  split at h
  · cases h
  · rename_i c connected hbind
    obtain ⟨c', hc, hconn⟩ := Option.bind_eq_some_iff.mp hbind
    obtain ⟨b, -, heq⟩ := Option.map_eq_some_iff.mp hconn
    cases heq
    dsimp only at h
    split at h
    · exact reconnect_linked hw hc h
    · exact hs w' h

/-- **Every step** of the system keeps the pcbs in line, also where a client is replaced
that lwIP can still call. -/
theorem netStep_linked {s u : NetProc} {e : NetEvent} (hs : LinkedNow s)
    (h : NetProcess.step s e = some u) : LinkedNow u := by
  obtain ⟨w, hnet, h⟩ := Option.bind_eq_some_iff.mp h
  have hw := hs w hnet
  cases e with
  | tcp id e =>
    obtain ⟨p, hp, h⟩ := Option.bind_eq_some_iff.mp h
    obtain ⟨he, hu⟩ := Option.ite_none_right_eq_some.mp h
    cases hu
    exact fun w' h' => tcpEvent_linked hw (Net.mem_of_pcb hp).1 he h'
  | cyclic c space memory =>
    obtain ⟨-, hu⟩ := Option.ite_none_right_eq_some.mp h
    cases hu
    exact fun w' h' => mqttCyclicTimer_linked (hw.sysUntimeout c) h'
  | pass t tSave memory env =>
    obtain ⟨-, hu⟩ := Option.ite_none_right_eq_some.mp h
    cases hu
    exact netPass_linked hs hw t tSave memory env

theorem start_linked (env : InitEnv) (t : Nat) : LinkedNow (NetProcess.start env t) :=
  fun _ h => mqttExampleInit_linked (w := Net.empty) (fun _ hp => absurd hp List.not_mem_nil) h

section Run

variable (shiftOut : BitVec 32 → Nat → BitVec 32)

theorem step_linked {s u : RecvProc} {e : RecvEvent} (hs : LinkedNow s.proc)
    (h : step shiftOut s e = some u) : LinkedNow u.proc := by
  cases e with
  | other e =>
    obtain ⟨-, h⟩ := Option.ite_none_left_eq_some.mp h
    obtain ⟨proc, hproc, rfl⟩ := Option.map_eq_some_iff.mp h
    exact netStep_linked hs hproc
  | segment id seg bytes found rounds memory =>
    unfold step at h
    dsimp only at h
    split at h
    · obtain ⟨proc, hproc, rfl⟩ := Option.map_eq_some_iff.mp h
      exact netStep_linked hs hproc
    · obtain ⟨proc, hproc, rfl⟩ := Option.map_eq_some_iff.mp h
      split
      · exact fun w h => by cases h
      · exact netStep_linked hs hproc

/-- Who gets data is the client of `mqtt_client`, at one of two stages. -/
theorem tcpInputTo_stage {p : TcpPcb} {seg : Segment} {c : Nat} {w w' : Net} (hw : w.Linked)
    (hp : p ∈ w.active) (hst : p.state ≠ .synSent) (h : tcpInputTo p seg w = some (c, w')) :
    Waiting w' c ∨ Accepted w' c := by
  obtain ⟨w₁, hacked, h⟩ := Option.bind_eq_some_iff.mp h
  obtain ⟨-, h⟩ := Option.ite_none_left_eq_some.mp h
  obtain ⟨p', hp', h⟩ := Option.bind_eq_some_iff.mp h
  obtain ⟨⟨-, -, hrecv⟩, h⟩ := Option.ite_none_right_eq_some.mp h
  obtain ⟨c', harg, h⟩ := Option.bind_eq_some_iff.mp h
  obtain ⟨cl, hcl, h⟩ := Option.bind_eq_some_iff.mp h
  cases h
  have hw₁ := (tcpInputSent_linked (tcpProcess_linked hw hp hst) hacked).1
  obtain ⟨c', cl', hs⟩ := hw₁.serves (Net.mem_of_pcb hp').1 (.inl hrecv)
  obtain rfl := Option.some.inj (harg.symm.trans hs.arg)
  cases hs.stage with
  | opening _ _ hno => cases hno.symm.trans hrecv
  | waiting _ hst hcb hin => exact .inl ⟨hs.client, cl', hs.heap, hst, hcb, hin⟩
  | accepted _ hst hin => exact .inr ⟨cl', hs.heap, hst, hin⟩

/-- No packet is delivered to a client that waits for its CONNACK. -/
def AfterConnack (s : RecvProc) : RecvEvent → Prop
  | .segment id seg bytes found rounds _ =>
    ∀ c w cl, receiver s id seg bytes = some (c, w) → w.heap c = some cl →
      cl.connState = .mqttConnecting →
        ∀ k ∈ (packets shiftOut found rounds (scanOf s c bytes)).takeWhile fun k => !ends k,
          k.data = none
  | .other _ => True

/-- The calls of a step are those of the loop for its segment. -/
theorem step_data {s u : RecvProc} {id c : Nat} {seg : Segment} {bytes : List (BitVec 8)}
    {found : Nat → Bool} {rounds : Nat} {memory : Bool} {w : Net}
    (hreceiver : receiver s id seg bytes = some (c, w))
    (h : step shiftOut s (.segment id seg bytes found rounds memory) = some u) :
    u.data = (mqttParseIncomingBytes shiftOut found c rounds (scanOf s c bytes) w).data := by
  simp only [step, hreceiver] at h
  obtain ⟨proc, -, rfl⟩ := Option.map_eq_some_iff.mp h
  split <;> rfl

theorem step_data_none {s u : RecvProc} {id : Nat} {seg : Segment} {bytes : List (BitVec 8)}
    {found : Nat → Bool} {rounds : Nat} {memory : Bool} (hreceiver : receiver s id seg bytes = none)
    (h : step shiftOut s (.segment id seg bytes found rounds memory) = some u) : u.data = [] := by
  simp only [step, hreceiver] at h
  obtain ⟨proc, -, rfl⟩ := Option.map_eq_some_iff.mp h
  rfl

theorem step_data_other {s u : RecvProc} {e : NetEvent} (h : step shiftOut s (.other e) = some u) :
    u.data = [] := by
  obtain ⟨-, h⟩ := Option.ite_none_left_eq_some.mp h
  obtain ⟨proc, -, rfl⟩ := Option.map_eq_some_iff.mp h
  rfl

/-- **Data that is delivered** lies in `rx_buffer`, along every run. -/
theorem run_inside {env : InitEnv} {t : Nat} {es : List RecvEvent} {u : RecvProc}
    (h : run (step shiftOut) (start env t) es = some u) :
    ∀ d ∈ u.data, d.start + d.len ≤ mqttVarHeaderBufferLen := by
  refine run_inv (I := fun u => ∀ d ∈ u.data, d.start + d.len ≤ mqttVarHeaderBufferLen) ?_
    (List.forall_mem_nil _) h
  intro s e u _ hstep
  cases e with
  | other e =>
    rw [step_data_other shiftOut hstep]
    exact List.forall_mem_nil _
  | segment id seg bytes found rounds memory =>
    cases hreceiver : receiver s id seg bytes with
    | none =>
      rw [step_data_none shiftOut hreceiver hstep]
      exact List.forall_mem_nil _
    | some cw =>
      rw [step_data shiftOut hreceiver hstep]
      exact mqttParseIncomingBytes_inside shiftOut found cw.1 rounds _ cw.2

/-- `data_cb` is only called when it is installed. -/
def Delivers (u : RecvProc) : Prop := ∀ d ∈ u.data, d.installed = true

theorem receiver_stage {s : RecvProc} {proc : NetProc} {id c : Nat} {seg : Segment}
    {bytes : List (BitVec 8)} {ms : List (Message × Bool)} {memory : Bool} {w : Net}
    (hs : LinkedNow s.proc)
    (hstep : NetProcess.step s.proc (.tcp id (.segment (segmentOf seg bytes) ms memory)) =
      some proc)
    (h : receiver s id seg bytes = some (c, w)) : Waiting w c ∨ Accepted w c := by
  obtain ⟨w₀, hnet, h⟩ := Option.bind_eq_some_iff.mp h
  obtain ⟨p, hp, h⟩ := Option.bind_eq_some_iff.mp h
  have hst : p.state ≠ .synSent := by
    simp only [NetProcess.step, hnet, Option.bind_some, hp] at hstep
    simpa [TcpEvent.enabled] using (Option.ite_none_right_eq_some.mp hstep).1
  exact tcpInputTo_stage (hs w₀ hnet) (Net.mem_of_pcb hp).1 hst h

theorem afterConnack_of {s : RecvProc} {id c : Nat} {seg : Segment} {bytes : List (BitVec 8)}
    {w : Net} (h : receiver s id seg bytes = some (c, w)) {found : Nat → Bool} {rounds : Nat}
    {memory : Bool} :
    AfterConnack shiftOut s (.segment id seg bytes found rounds memory) ↔
      ∀ cl, w.heap c = some cl → cl.connState = .mqttConnecting →
        ∀ k ∈ (packets shiftOut found rounds (scanOf s c bytes)).takeWhile fun k => !ends k,
          k.data = none := by
  refine ⟨fun hg cl => hg c w cl h, fun hg c' w' cl h' => ?_⟩
  cases h.symm.trans h'
  exact hg cl

theorem delivers_iff {s u : RecvProc} {e : RecvEvent} (hs : LinkedNow s.proc)
    (h : step shiftOut s e = some u) : Delivers u ↔ AfterConnack shiftOut s e := by
  cases e with
  | other e =>
    rw [Delivers, step_data_other shiftOut h]
    exact iff_of_true (List.forall_mem_nil _) trivial
  | segment id seg bytes found rounds memory =>
    cases hreceiver : receiver s id seg bytes with
    | none =>
      rw [Delivers, step_data_none shiftOut hreceiver h]
      refine iff_of_true (List.forall_mem_nil _) fun c w cl hsome => ?_
      cases hreceiver.symm.trans hsome
    | some cw =>
      obtain ⟨c, w'⟩ := cw
      rw [Delivers, step_data shiftOut hreceiver h, afterConnack_of shiftOut hreceiver]
      simp only [step, hreceiver] at h
      obtain ⟨proc, hproc, -⟩ := Option.map_eq_some_iff.mp h
      obtain hwaiting | haccepted := receiver_stage hs hproc hreceiver
      · have ⟨_, cl, hcl, hst, _⟩ := hwaiting
        rw [parse_waiting shiftOut found rounds _ hwaiting]
        exact ⟨fun h _ _ _ => h, fun h => h cl hcl hst⟩
      · have ⟨cl, hcl, hst, _⟩ := haccepted
        refine iff_of_true (parse_accepted shiftOut found rounds _ haccepted) ?_
        intro cl' hcl' hst'
        obtain rfl := Option.some.inj (hcl.symm.trans hcl')
        cases hst.symm.trans hst'

/-- **`data_cb` is only called when `mqtt_connection_cb` has installed it** for this client,
along any run, if and only if no PUBLISH is delivered to a client that waits for its
CONNACK. -/
theorem data_cb_installed_iff (env : InitEnv) (t : Nat) (es : List RecvEvent) :
    Along (step shiftOut) (fun _ _ u => Delivers u) (start env t) es ↔
      Along (step shiftOut) (fun s e _ => AfterConnack shiftOut s e) (start env t) es :=
  along_iff (fun _ _ _ hs h _ => step_linked shiftOut hs h)
    (fun _ _ _ hs h => delivers_iff shiftOut hs h) es (start_linked env t)

end Run

/-- Behind the CONNACK, and cut in two, the same PUBLISH is delivered. -/
example : (run (step fun x n => x <<< n) (start {} 0)
    [.other (.tcp 0 .synAck),
      .segment 0 {} [0x20, 0x02, 0x00, 0x00, 0x30, 0x04, 0x00] (fun _ => false) 9 true,
      .segment 0 {} [0x01, 0x61, 0x62] (fun _ => false) 9 true]).map
        (fun u => u.data.map fun d => (d.installed, d.rxBuffer d.start, d.len)) =
      some [(true, 0x62, 1)] := by
  decide +kernel

/-- The server sends a PUBLISH as soon as the connection is up. -/
def earlyPublish : List RecvEvent :=
  [.other (.tcp 0 .synAck),
    .segment 0 {} [0x30, 0x04, 0x00, 0x01, 0x61, 0x62] (fun _ => false) 8 true]

/-- `data_cb` is called through the null pointer. -/
theorem data_cb_null :
    ¬ Along (step fun x n => x <<< n) (fun _ _ u => Delivers u) (start {} 0) earlyPublish := by
  intro h
  have hcall := (h _ rfl).2 _ rfl |>.1 _ (List.mem_singleton_self _)
  cases hcall

end MqttDevice.DataCallback
