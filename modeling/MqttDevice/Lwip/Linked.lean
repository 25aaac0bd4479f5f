import MqttDevice.Lwip.Phases

/-!
# Whom lwIP may call

However clients are replaced, a pcb whose data, error or connected callback can
still be made belongs to the client that `mqtt_client` points to, and that
client has its callbacks for incoming messages exactly when its CONNACK was
accepted.

* `tcpEvent_linked`, `mqttCyclicTimer_linked`: events of the stack keep this;
* `mqttDisconnect_quiet`: after `mqtt_disconnect` no such pcb is left.
-/

namespace MqttDevice.Lwip

/-- The data, error or connected callback can still be made for the pcb. -/
def TcpPcb.Wired (p : TcpPcb) : Prop := p.recv = true ∨ p.errf = true ∨ p.state = .synSent

/-- The stages of a connection, with the callbacks that are installed. -/
inductive Stage (cl : MqttClient) (p : TcpPcb) : Prop where
  | opening (hp : p.state = .synSent) (hconnected : p.connected = true) (hrecv : p.recv = false)
      (hst : cl.connState = .tcpConnecting) (hcb : cl.connectCb = true) (hin : cl.inpub = false)
  | waiting (hp : p.state ≠ .synSent) (hst : cl.connState = .mqttConnecting)
      (hcb : cl.connectCb = true) (hin : cl.inpub = false)
  | accepted (hp : p.state ≠ .synSent) (hst : cl.connState = .mqttConnected)
      (hin : cl.inpub = true)

/-- The pcb is the connection of the client that `mqtt_client` points to. -/
structure Net.Serves (w : Net) (p : TcpPcb) (c : Nat) (cl : MqttClient) : Prop where
  arg : p.callbackArg = some c
  client : w.mqttClient = some c
  heap : w.heap c = some cl
  conn : cl.conn = some p.id
  stage : Stage cl p

/-- Every wired pcb is such a connection, one with the number `x` apart. -/
def Net.LinkedBut (x : Option Nat) (w : Net) : Prop :=
  ∀ p ∈ w.active, some p.id ≠ x → p.Wired → ∃ c cl, w.Serves p c cl

abbrev Net.Linked (w : Net) : Prop := w.LinkedBut none

theorem Net.Linked.serves {w : Net} (h : w.Linked) {p : TcpPcb} (hp : p ∈ w.active)
    (hw : p.Wired) : ∃ c cl, w.Serves p c cl :=
  h p hp nofun hw

theorem Net.Linked.but {w : Net} (h : w.Linked) (x : Option Nat) : w.LinkedBut x :=
  fun _ hp _ hw => h.serves hp hw

/-- Timeouts do not matter. -/
theorem Net.LinkedBut.of_eq {w w' : Net} {x : Option Nat} (h : w.LinkedBut x)
    (hact : w'.active = w.active) (hclient : w'.mqttClient = w.mqttClient)
    (hheap : w'.heap = w.heap) : w'.LinkedBut x := by
  intro p hp hx hw
  obtain ⟨c, cl, hs⟩ := h p (hact ▸ hp) hx hw
  exact ⟨c, cl, hs.arg, hclient.trans hs.client, (congrFun hheap c).trans hs.heap, hs.conn,
    hs.stage⟩

theorem Net.LinkedBut.sysTimeout {w : Net} {x : Option Nat} (h : w.LinkedBut x) (c : Nat) :
    (w.sysTimeout c).LinkedBut x := h.of_eq rfl rfl rfl

theorem Net.LinkedBut.sysUntimeout {w : Net} {x : Option Nat} (h : w.LinkedBut x) (c : Nat) :
    (w.sysUntimeout c).LinkedBut x := h.of_eq rfl rfl rfl

/-- There is nothing to call. -/
def Net.Quiet (w : Net) : Prop := ∀ p ∈ w.active, ¬ p.Wired

theorem Net.Quiet.linked {w : Net} (h : w.Quiet) : w.Linked := fun p hp _ hw => absurd hw (h p hp)

/-! ## Changes of a pcb -/

/-- A pcb that the same callbacks can be made for, or fewer. -/
structure TcpPcb.Follows (q p : TcpPcb) : Prop where
  id : q.id = p.id
  callbackArg : q.callbackArg = p.callbackArg
  connected : q.connected = p.connected
  recv : q.recv = p.recv
  errf : q.errf = p.errf
  state : q.state = .synSent ↔ p.state = .synSent

theorem TcpPcb.Follows.wired {p q : TcpPcb} (h : q.Follows p) : q.Wired ↔ p.Wired := by
  rw [Wired, Wired, h.recv, h.errf, h.state]

theorem TcpPcb.Follows.serves {p q : TcpPcb} (h : q.Follows p) {w : Net} {c : Nat}
    {cl : MqttClient} (hs : w.Serves p c cl) : w.Serves q c cl := by
  refine ⟨h.callbackArg.trans hs.arg, hs.client, hs.heap, ?_, ?_⟩
  · rw [hs.conn, h.id]
  · cases hs.stage with
    | opening hp hconnected hrecv hst hcb hin =>
      exact .opening (h.state.mpr hp) (h.connected.trans hconnected) (h.recv.trans hrecv) hst hcb
        hin
    | waiting hp hst hcb hin => exact .waiting (mt h.state.mp hp) hst hcb hin
    | accepted hp hst hin => exact .accepted (mt h.state.mp hp) hst hin

theorem TcpPcb.follows_recved (p : TcpPcb) (len : Nat) : (p.recved len).Follows p :=
  ⟨rfl, rfl, rfl, rfl, rfl, Iff.rfl⟩

theorem TcpPcb.follows_tcpProcess {p : TcpPcb} (h : p.state ≠ .synSent) (seg : Segment) :
    (tcpProcess seg p).Follows p := by
  have hst : (tcpProcess seg p).state ≠ .synSent := tcpProcess_state h
  rw [tcpProcess_eq] at hst ⊢
  exact ⟨rfl, rfl, rfl, rfl, rfl, iff_of_false hst h⟩

/-- `tcp_fasttmr` sends a FIN that had to wait. -/
theorem TcpPcb.follows_closePend (p : TcpPcb) (memory : Bool) :
    (tcpCloseShutdownFin memory { p with closePend := false }).2.Follows p := by
  cases hst : p.state <;> cases memory <;>
    simp only [tcpCloseShutdownFin, tcpCloseShutdownFin.finish, tcpSendFin] <;>
    exact ⟨rfl, rfl, rfl, rfl, rfl, by simp [hst]⟩

theorem Net.mem_setPcb {w : Net} {id : Nat} {q : Option TcpPcb} {p : TcpPcb}
    (h : p ∈ (w.setPcb id q).active) : p ∈ w.active ∧ p.id ≠ id ∨ q = some p := by
  obtain ⟨p', hp', hmem⟩ := List.mem_flatMap.mp h
  split at hmem
  · exact .inr (Option.mem_toList.mp hmem)
  · rename_i hid
    obtain rfl := List.mem_singleton.mp hmem
    exact .inl ⟨hp', hid⟩

/-- Of the other pcbs nothing changes. -/
theorem Net.LinkedBut.setPcb {w : Net} {x : Option Nat} {id : Nat}
    (h : w.LinkedBut (some id)) {q : Option TcpPcb}
    (hq : ∀ p, q = some p → some p.id ≠ x → p.Wired → ∃ c cl, w.Serves p c cl) :
    (w.setPcb id q).LinkedBut x := by
  intro p hp hx hw
  have hs : ∃ c cl, w.Serves p c cl := by
    rcases mem_setPcb hp with ⟨hmem, hid⟩ | hp
    · exact h p hmem (fun heq => hid (Option.some.inj heq)) hw
    · exact hq p hp hx hw
  obtain ⟨c, cl, hs⟩ := hs
  exact ⟨c, cl, hs.arg, hs.client, hs.heap, hs.conn, hs.stage⟩

/-- A pcb is taken off the list. -/
theorem Net.LinkedBut.remove {w : Net} {id : Nat} (h : w.LinkedBut (some id)) :
    (w.setPcb id none).Linked := by
  apply h.setPcb
  intro p hp
  cases hp

theorem Net.Linked.followPcb {w : Net} (h : w.Linked) {p q : TcpPcb} (hp : p ∈ w.active)
    (hq : q.Follows p) (id : Nat) : (w.setPcb id (some q)).Linked := by
  refine (h.but _).setPcb ?_
  intro q' hq' _ hw
  obtain rfl := Option.some.inj hq'
  obtain ⟨c, cl, hs⟩ := h.serves hp (hq.wired.mp hw)
  exact ⟨c, cl, hq.serves hs⟩

theorem Net.mem_of_pcb {w : Net} {id : Nat} {p : TcpPcb} (h : w.pcb id = some p) :
    p ∈ w.active ∧ p.id = id :=
  ⟨List.mem_of_find?_eq_some h, by simpa using List.find?_some h⟩

/-! ## Changes of a client -/

/-- A client whose connection has come as far. -/
structure MqttClient.Follows (d cl : MqttClient) : Prop where
  conn : d.conn = cl.conn
  connState : d.connState = cl.connState
  connectCb : d.connectCb = cl.connectCb
  inpub : d.inpub = cl.inpub

theorem Stage.follow {cl d : MqttClient} {p : TcpPcb} (h : Stage cl p) (hd : d.Follows cl) :
    Stage d p := by
  cases h with
  | opening hp hconnected hrecv hst hcb hin =>
    exact .opening hp hconnected hrecv (hd.connState.trans hst) (hd.connectCb.trans hcb)
      (hd.inpub.trans hin)
  | waiting hp hst hcb hin =>
    exact .waiting hp (hd.connState.trans hst) (hd.connectCb.trans hcb) (hd.inpub.trans hin)
  | accepted hp hst hin => exact .accepted hp (hd.connState.trans hst) (hd.inpub.trans hin)

/-- The client `c` becomes `d`, which is at the right stage of its connections. -/
theorem Net.LinkedBut.setClient {w : Net} {x : Option Nat} (h : w.LinkedBut x) {c : Nat}
    {d : MqttClient}
    (hd : ∀ p ∈ w.active, some p.id ≠ x → ∀ cl, w.Serves p c cl → d.conn = cl.conn ∧ Stage d p) :
    (w.setClient c d).LinkedBut x := by
  intro p hp hx hw
  obtain ⟨c', cl, hs⟩ := h p hp hx hw
  by_cases hc : c' = c
  · subst hc
    obtain ⟨hconn, hstage⟩ := hd p hp hx cl hs
    exact ⟨c', d, hs.arg, hs.client, Function.update_self .., hconn.trans hs.conn, hstage⟩
  · exact ⟨c', cl, hs.arg, hs.client, (Function.update_of_ne hc ..).trans hs.heap, hs.conn,
      hs.stage⟩

theorem Net.LinkedBut.followClient {w : Net} {x : Option Nat} (h : w.LinkedBut x) {c : Nat}
    {cl d : MqttClient} (hcl : w.heap c = some cl) (hd : d.Follows cl) :
    (w.setClient c d).LinkedBut x := by
  refine h.setClient fun p _ _ cl' hs => ?_
  obtain rfl := Option.some.inj (hcl.symm.trans hs.heap)
  exact ⟨hd.conn, hs.stage.follow hd⟩

/-- Whatever becomes of a client, only its own pcb is concerned. -/
theorem Net.Linked.setClient {w : Net} (h : w.Linked) {c : Nat} {cl : MqttClient}
    (hcl : w.heap c = some cl) (d : MqttClient) : (w.setClient c d).LinkedBut cl.conn := by
  refine (h.but cl.conn).setClient fun p _ hx cl' hs => ?_
  obtain rfl := Option.some.inj (hcl.symm.trans hs.heap)
  exact absurd hs.conn.symm hx

theorem Net.Serves.setClient {w : Net} {p : TcpPcb} {c : Nat} {cl : MqttClient}
    (hs : w.Serves p c cl) (hw : w.Linked) (d : MqttClient) :
    (w.setClient c d).LinkedBut (some p.id) :=
  hs.conn ▸ hw.setClient hs.heap d

/-! ## Closing -/

/-- `tcp_close` on a pcb without callbacks. -/
theorem tcpCloseShutdown_quiet {rst memory : Bool} {p q : TcpPcb} (hrecv : p.recv = false)
    (herrf : p.errf = false) (h : (tcpCloseShutdown rst memory p).2 = some q) : ¬ q.Wired := by
  unfold tcpCloseShutdown at h
  split at h
  · cases h
  · split at h
    · cases h
    · cases h
    · cases h
    · rename_i hst
      obtain ⟨-, hslots, hsyn⟩ := tcpCloseShutdownFin_spec memory p
      have heq : (tcpCloseShutdownFin memory p).2 = q := Option.some.inj h
      rw [heq] at hslots hsyn
      rintro (hw | hw | hw)
      · cases hw.symm.trans (hslots.recv.trans hrecv)
      · cases hw.symm.trans (hslots.errf.trans herrf)
      · exact hsyn hst hw

theorem tcpClose_quiet {memory : Bool} {p q : TcpPcb} (hrecv : p.recv = false)
    (herrf : p.errf = false) (h : (tcpClose memory p).2 = some q) : ¬ q.Wired := by
  refine tcpCloseShutdown_quiet ?_ ?_ h
  · split <;> exact hrecv
  · split <;> exact herrf

/-- The pcb that is closed is the one that may be out of line. -/
theorem closeConn_linked {memory : Bool} {conn : Option Nat} {w w' : Net}
    (h : w.LinkedBut conn) (hclose : closeConn memory conn w = some w') : w'.Linked := by
  cases conn with
  | none =>
    cases hclose
    exact h
  | some id =>
    obtain ⟨p, -, hclose⟩ := Option.bind_eq_some_iff.mp hclose
    simp only [tcpClose_ok, if_true, Option.some.injEq] at hclose
    subst hclose
    exact h.setPcb fun q hq _ hw => absurd hw (tcpClose_quiet rfl rfl hq)

/-- `closeConn` does not look at the clients. -/
theorem closeConn_setClient (memory : Bool) (conn : Option Nat) (w : Net) (c : Nat)
    (d : MqttClient) :
    closeConn memory conn (w.setClient c d) =
      (closeConn memory conn w).map fun w => w.setClient c d := by
  cases conn with
  | none => rfl
  | some id =>
    simp only [closeConn, Net.pcb, Net.setClient]
    cases w.active.find? fun p => p.id == id with
    | none => rfl
    | some p => rfl

theorem closeConn_client {memory : Bool} {conn : Option Nat} {w w' : Net}
    (h : closeConn memory conn w = some w') : w'.mqttClient = w.mqttClient := by
  cases conn with
  | none =>
    cases h
    rfl
  | some id =>
    obtain ⟨p, -, h⟩ := Option.bind_eq_some_iff.mp h
    cases h
    rfl

/-- What is left of `mqtt_close` when the callback for it does nothing. -/
theorem mqttClose_inv {c : Nat} {reason : ConnStatus} {memory : Bool} {w w' : Net}
    {cl : MqttClient} (hcl : w.heap c = some cl)
    (hr : reason ≠ .accepted ∨ cl.connState = .tcpDisconnected)
    (h : mqttClose c reason memory w = some w') :
    ∃ w₁ d, closeConn memory cl.conn w = some w₁ ∧ d.conn = none ∧
      d.connState = .tcpDisconnected ∧ w' = (w₁.setClient c d).sysUntimeout c := by
  simp only [mqttClose, hcl, Option.bind_eq_bind, Option.bind_some] at h
  obtain ⟨w₁, hclose, h⟩ := Option.bind_eq_some_iff.mp h
  by_cases hst : cl.connState = .tcpDisconnected
  · simp only [hst, ne_eq, not_true_eq_false, if_false, Option.some.injEq] at h
    exact ⟨w₁, { cl with conn := none }, hclose, rfl, hst, h ▸ hst ▸ rfl⟩
  · simp only [hst, ne_eq, not_false_eq_true, if_true,
      mqttConnectionCb_lost (hr.resolve_right hst), ite_self, Option.some.injEq] at h
    refine ⟨w₁, { cl with conn := none, connState := .tcpDisconnected }, hclose, rfl, rfl, ?_⟩
    rw [← h]
    simp [Net.setClient, Net.sysUntimeout]

/-- **`mqtt_close`** when its own pcb may be out of line. -/
theorem mqttClose_linked {c : Nat} {reason : ConnStatus} {memory : Bool} {w w' : Net}
    {cl : MqttClient} (hcl : w.heap c = some cl)
    (hr : reason ≠ .accepted ∨ cl.connState = .tcpDisconnected)
    (hw : ∀ d, (w.setClient c d).LinkedBut cl.conn) (h : mqttClose c reason memory w = some w') :
    w'.Linked := by
  obtain ⟨w₁, d, hclose, -, -, rfl⟩ := mqttClose_inv hcl hr h
  have hset : closeConn memory cl.conn (w.setClient c d) = some (w₁.setClient c d) := by
    rw [closeConn_setClient, hclose]
    rfl
  exact (closeConn_linked (hw d) hset).sysUntimeout c

theorem mqttClose_keeps {c : Nat} {reason : ConnStatus} (hr : reason ≠ .accepted) {memory : Bool}
    {w w' : Net} (hw : w.Linked) (h : mqttClose c reason memory w = some w') : w'.Linked := by
  obtain ⟨cl, hcl, -⟩ := Option.bind_eq_some_iff.mp h
  exact mqttClose_linked hcl (.inl hr) (hw.setClient hcl) h

/-- `mqtt_disconnect` leaves nothing to call. -/
theorem mqttDisconnect_quiet {c : Nat} {memory : Bool} {w w' : Net} (hw : w.Linked)
    (hc : w.mqttClient = some c) (h : mqttDisconnect c memory w = some w') : w'.Quiet := by
  obtain ⟨cl, hcl, h⟩ := Option.bind_eq_some_iff.mp h
  split at h
  · have hdown : (w.setClient c { cl with connState := .tcpDisconnected }).heap c =
        some { cl with connState := .tcpDisconnected } := Function.update_self ..
    obtain ⟨w₁, d, hclose, hconn, -, heq⟩ := mqttClose_inv hdown (.inr rfl) h
    have hlinked : w'.Linked := mqttClose_linked hdown (.inr rfl) (fun d => by
      simpa [Net.setClient] using hw.setClient hcl d) h
    have hclient : w'.mqttClient = some c := by
      rw [heq]
      exact (closeConn_client hclose).trans hc
    have hheap : w'.heap c = some d := by
      rw [heq]
      exact Function.update_self ..
    intro p hp hwired
    obtain ⟨c', cl', hs⟩ := hlinked.serves hp hwired
    obtain rfl := Option.some.inj (hclient.symm.trans hs.client)
    obtain rfl := Option.some.inj (hheap.symm.trans hs.heap)
    cases hconn.symm.trans hs.conn
  · rename_i hst
    cases h
    intro p hp hwired
    obtain ⟨c', cl', hs⟩ := hw.serves hp hwired
    obtain rfl := Option.some.inj (hc.symm.trans hs.client)
    obtain rfl := Option.some.inj (hcl.symm.trans hs.heap)
    cases hs.stage with
    | opening _ _ _ h => exact hst (by simp [h])
    | waiting _ h => exact hst (by simp [h])
    | accepted _ h => exact hst (by simp [h])

/-! ## The cyclic timer -/

theorem keepAliveTick_follows (space : Bool) (cl : MqttClient) :
    (keepAliveTick space cl).Follows cl := by
  unfold keepAliveTick
  split
  · split <;> exact ⟨rfl, rfl, rfl, rfl⟩
  · exact ⟨rfl, rfl, rfl, rfl⟩

theorem cyclicConnecting_linked {c : Nat} {memory restart : Bool} {cl : MqttClient} {w w' : Net}
    (hw : w.Linked) (hcl : w.heap c = some cl)
    (h : cyclicConnecting c memory cl w = some (restart, w')) : w'.Linked := by
  have hset := hw.followClient hcl (d := { cl with cyclicTick := cl.cyclicTick + 1 })
    ⟨rfl, rfl, rfl, rfl⟩
  unfold cyclicConnecting at h
  dsimp only at h
  split at h
  · obtain ⟨w₁, hclose, heq⟩ := Option.map_eq_some_iff.mp h
    cases heq
    exact mqttClose_keeps (nofun : ConnStatus.timeout ≠ .accepted) hset hclose
  · cases h
    exact hset

theorem cyclicConnected_linked {c : Nat} {space memory restart : Bool} {cl : MqttClient}
    {w w' : Net} (hw : w.Linked) (hcl : w.heap c = some cl)
    (h : cyclicConnected c space memory cl w = some (restart, w')) : w'.Linked := by
  have hset := hw.followClient hcl (d := { cl with serverWatchdog := cl.serverWatchdog + 1 })
    ⟨rfl, rfl, rfl, rfl⟩
  unfold cyclicConnected at h
  dsimp only at h
  split at h
  · split at h
    · obtain ⟨w₁, hclose, h⟩ := Option.bind_eq_some_iff.mp h
      obtain ⟨cl₁, hcl₁, h⟩ := Option.bind_eq_some_iff.mp h
      cases h
      have hclosed := mqttClose_keeps (nofun : ConnStatus.timeout ≠ .accepted) hset hclose
      exact hclosed.followClient hcl₁ (keepAliveTick_follows space cl₁)
    · cases h
      exact hset.followClient (Function.update_self ..) (keepAliveTick_follows space _)
  · cases h
    exact hw

/-- **The cyclic timer** of any client. -/
theorem mqttCyclicTimer_linked {c : Nat} {space memory : Bool} {w w' : Net} (hw : w.Linked)
    (h : mqttCyclicTimer c space memory w = some w') : w'.Linked := by
  obtain ⟨cl, hcl, h⟩ := Option.bind_eq_some_iff.mp h
  obtain ⟨⟨restart, w₁⟩, hbody, h⟩ := Option.bind_eq_some_iff.mp h
  have hlinked : w₁.Linked := by
    unfold cyclicBody at hbody
    split at hbody
    · exact cyclicConnecting_linked hw hcl hbody
    · exact cyclicConnected_linked hw hcl hbody
    · cases hbody
      exact hw
  cases h
  split
  · exact hlinked.sysTimeout c
  · exact hlinked

/-! ## Incoming messages -/

/-- A message changes nothing, or it is the CONNACK that accepts a client. -/
theorem mqttMessageReceived_cases {c : Nat} {m : Message} {res : ConnStatus} {w w' : Net}
    (h : mqttMessageReceived c m w = some (res, w')) :
    w' = w ∨ ∃ cl, w.heap c = some cl ∧ cl.connState = .mqttConnecting ∧
      (if cl.connectCb then
        mqttConnectionCb .accepted
          (w.setClient c { cl with cyclicTick := 0, connState := .mqttConnected })
      else some (w.setClient c { cl with cyclicTick := 0, connState := .mqttConnected })) =
        some w' := by
  cases m with
  | other accepted =>
    cases h
    exact .inl rfl
  | connack length code =>
    obtain ⟨cl, hcl, h⟩ := Option.bind_eq_some_iff.mp h
    split at h
    case isFalse =>
      cases h
      exact .inl rfl
    case isTrue hst =>
      split at h
      · cases h
        exact .inl rfl
      · split at h
        case isFalse =>
          cases h
          exact .inl rfl
        case isTrue =>
          obtain ⟨w₁, hcb, h⟩ := Option.bind_eq_some_iff.mp h
          cases h
          exact .inr ⟨cl, hcl, hst, hcb⟩

/-- The client is accepted, and its callbacks are installed. -/
theorem mqttConnectionCb_linked {c : Nat} {cl : MqttClient} {w w' : Net} (hw : w.Linked)
    (hc : w.mqttClient = some c) (hcl : w.heap c = some cl) (hst : cl.connState = .mqttConnecting)
    (h : (if cl.connectCb then
        mqttConnectionCb .accepted
          (w.setClient c { cl with cyclicTick := 0, connState := .mqttConnected })
      else some (w.setClient c { cl with cyclicTick := 0, connState := .mqttConnected })) =
        some w') : w'.Linked ∧ w'.mqttClient = some c := by
  have hstage (p : TcpPcb) (d : MqttClient) (hs : w.Serves p c d) :
      d = cl ∧ p.state ≠ .synSent ∧ cl.connectCb = true := by
    obtain rfl := Option.some.inj (hcl.symm.trans hs.heap)
    cases hs.stage with
    | opening _ _ _ h => cases hst.symm.trans h
    | waiting hp _ hcb => exact ⟨rfl, hp, hcb⟩
    | accepted _ h => cases hst.symm.trans h
  split at h
  · have heq : w' = w.setClient c
        { cl with cyclicTick := 0, connState := .mqttConnected, inpub := true } := by
      simpa [mqttConnectionCb, Net.setClient, hc, eq_comm] using h
    subst heq
    refine ⟨Net.LinkedBut.setClient hw fun p _ _ d hs => ?_, hc⟩
    obtain ⟨rfl, hp, -⟩ := hstage p d hs
    exact ⟨rfl, .accepted hp rfl rfl⟩
  · rename_i hcb
    cases h
    refine ⟨Net.LinkedBut.setClient hw fun p _ _ d hs => ?_, hc⟩
    exact absurd (hstage p d hs).2.2 hcb

theorem mqttMessageReceived_linked {c : Nat} {m : Message} {res : ConnStatus} {w w' : Net}
    (hw : w.Linked) (hc : w.mqttClient = some c) (h : mqttMessageReceived c m w = some (res, w')) :
    w'.Linked ∧ w'.mqttClient = some c := by
  rcases mqttMessageReceived_cases h with rfl | ⟨cl, hcl, hst, hcb⟩
  · exact ⟨hw, hc⟩
  · exact mqttConnectionCb_linked hw hc hcl hst hcb

theorem mqttParseIncoming_linked {c : Nat} {ms : List (Message × Bool)} {res : ConnStatus}
    {w w' : Net} (hw : w.Linked) (hc : w.mqttClient = some c)
    (h : mqttParseIncoming c ms w = some (res, w')) : w'.Linked := by
  induction ms generalizing w with
  | nil =>
    cases h
    exact hw
  | cons m ms ih =>
    obtain ⟨m, checked⟩ := m
    obtain ⟨⟨res₁, w₁⟩, hm, h⟩ := Option.bind_eq_some_iff.mp h
    obtain ⟨hw₁, hc₁⟩ := mqttMessageReceived_linked hw hc hm
    dsimp only at h
    split at h
    · cases h
      exact hw₁
    · exact ih hw₁ hc₁ h

/-! ## The callbacks of a pcb -/

theorem mqttTcpRecvCb_linked {c id len : Nat} {ms : List (Message × Bool)} {memory : Bool}
    {w w' : Net} (hw : w.Linked) (hc : w.mqttClient = some c)
    (h : mqttTcpRecvCb c id len ms memory w = some w') : w'.Linked := by
  obtain ⟨-, -, h⟩ := Option.bind_eq_some_iff.mp h
  obtain ⟨p, hp, h⟩ := Option.bind_eq_some_iff.mp h
  obtain ⟨⟨res, w₁⟩, hparse, h⟩ := Option.bind_eq_some_iff.mp h
  obtain ⟨w₂, hclose, h⟩ := Option.bind_eq_some_iff.mp h
  obtain ⟨cl, hcl, h⟩ := Option.bind_eq_some_iff.mp h
  have hset := hw.followPcb (Net.mem_of_pcb hp).1 (p.follows_recved len) id
  have hw₁ : w₁.Linked := mqttParseIncoming_linked hset hc hparse
  have hw₂ : w₂.Linked := by
    split at hclose
    · rename_i hres
      exact mqttClose_keeps hres hw₁ hclose
    · cases hclose
      exact hw₁
  cases h
  split
  · exact hw₂.followClient hcl ⟨rfl, rfl, rfl, rfl⟩
  · exact hw₂

theorem mqttTcpSentCb_linked {c : Nat} {w w' : Net} (hw : w.Linked)
    (h : mqttTcpSentCb c w = some w') : w'.Linked ∧ w'.active = w.active := by
  obtain ⟨cl, hcl, h⟩ := Option.bind_eq_some_iff.mp h
  split at h
  · cases h
    exact ⟨hw.followClient hcl ⟨rfl, rfl, rfl, rfl⟩, rfl⟩
  · cases h
    exact ⟨hw, rfl⟩

/-- The pcb of the client is gone, or will be. -/
theorem mqttTcpErrCb_linked {c : Nat} {cl : MqttClient} {w w' : Net} (hw : w.Linked)
    (hcl : w.heap c = some cl) (h : mqttTcpErrCb c w = some w') :
    w'.LinkedBut cl.conn ∧ w'.active = w.active := by
  obtain ⟨cl', hcl', h⟩ := Option.bind_eq_some_iff.mp h
  obtain rfl := Option.some.inj (hcl.symm.trans hcl')
  obtain ⟨w₁, d, hclose, -, -, rfl⟩ := mqttClose_inv (Function.update_self ..)
    (.inl (nofun : ConnStatus.disconnected ≠ .accepted)) h
  cases hclose
  have heq : ((w.setClient c { cl with conn := none }).setClient c d) = w.setClient c d := by
    simp [Net.setClient]
  rw [heq]
  exact ⟨(hw.setClient hcl d).sysUntimeout c, rfl⟩

/-- `TCP_EVENT_ERR` for a pcb that is taken off the list after it. -/
theorem tcpEventErr_linked {p : TcpPcb} {w w' : Net} (hw : w.Linked)
    (hp : p.Wired → ∃ c cl, w.Serves p c cl) (h : tcpEventErr p w = some w') :
    w'.LinkedBut (some p.id) ∧ w'.active = w.active := by
  unfold tcpEventErr TcpPcb.callback at h
  split at h
  · rename_i herrf
    obtain ⟨c, cl, hs⟩ := hp (.inr (.inl herrf))
    rw [hs.arg, Option.bind_some] at h
    rw [← hs.conn]
    exact mqttTcpErrCb_linked hw hs.heap h
  · cases h
    exact ⟨hw.but _, rfl⟩

/-- It may also be off the list before. -/
theorem tcpEventErr_removed {p : TcpPcb} {w w' : Net} (hw : w.Linked) (hp : p ∈ w.active)
    (h : tcpEventErr p (w.setPcb p.id none) = some w') : w'.Linked := by
  have hremoved : (w.setPcb p.id none).Linked := (hw.but _).remove
  obtain ⟨hlinked, hact⟩ := tcpEventErr_linked hremoved (fun hwired => by
    obtain ⟨c, cl, hs⟩ := hw.serves hp hwired
    exact ⟨c, cl, hs.arg, hs.client, hs.heap, hs.conn, hs.stage⟩) h
  intro q hq _ hwired
  have hmem : q ∈ (w.setPcb p.id none).active := hact ▸ hq
  rcases Net.mem_setPcb hmem with ⟨-, hid⟩ | hq'
  · exact hlinked q hq (fun heq => hid (Option.some.inj heq)) hwired
  · cases hq'

/-- The SYN|ACK: the client waits for its CONNACK. -/
theorem mqttTcpConnectCb_linked {p : TcpPcb} {c : Nat} {cl : MqttClient} {w w' : Net}
    (hw : w.Linked) (hs : w.Serves p c cl) (hp : p.state = .synSent)
    (h : mqttTcpConnectCb c p.id (w.setPcb p.id (some { p with state := .established })) =
      some w') : w'.Linked := by
  obtain ⟨cl', hcl, h⟩ := Option.bind_eq_some_iff.mp h
  obtain rfl := Option.some.inj (hs.heap.symm.trans hcl)
  obtain ⟨q, hq, h⟩ := Option.bind_eq_some_iff.mp h
  obtain ⟨hmem, hid⟩ := Net.mem_of_pcb hq
  have hq : q = { p with state := .established } := by
    rcases Net.mem_setPcb hmem with ⟨-, hne⟩ | heq
    · exact absurd hid hne
    · exact (Option.some.inj heq).symm
  cases h
  have hcb : cl.connectCb = true ∧ cl.inpub = false := by
    cases hs.stage with
    | opening _ _ _ _ hcb hin => exact ⟨hcb, hin⟩
    | waiting hne => exact absurd hp hne
    | accepted hne => exact absurd hp hne
  -- the client waits first, then its pcb is put in line
  have hset := hs.setClient hw { cl with connState := .mqttConnecting, cyclicTick := 0 }
  have hfirst := hset.setPcb (x := some p.id) (q := some { p with state := .established })
    fun p' hp' hx _ => absurd (congrArg some (congrArg TcpPcb.id (Option.some.inj hp').symm)) hx
  refine (hfirst.setPcb fun p' hp' _ _ => ?_).sysTimeout c
  obtain rfl := Option.some.inj hp'
  rw [hq]
  exact ⟨c, _, hs.arg, hs.client, Function.update_self .., hs.conn, .waiting nofun rfl hcb.1 hcb.2⟩

/-! ## Events of the stack -/

theorem tcpInputData_linked {id len : Nat} {ms : List (Message × Bool)} {memory : Bool}
    {w w' : Net} (hw : w.Linked) (h : tcpInputData id len ms memory w = some w') : w'.Linked := by
  unfold tcpInputData at h
  split at h
  · cases h
    exact hw
  · rename_i p hp
    obtain ⟨hmem, rfl⟩ := Net.mem_of_pcb hp
    split at h
    · cases h
      exact hw
    · split at h
      · exact tcpEventErr_removed hw hmem h
      · split at h
        · rename_i hrecv
          obtain ⟨c, cl, hs⟩ := hw.serves hmem (.inl hrecv)
          rw [TcpPcb.callback_of hrecv hs.arg] at h
          exact mqttTcpRecvCb_linked hw hs.client h
        · cases h
          exact hw.followPcb hmem (p.follows_recved len) p.id

theorem tcpInputFin_linked {id : Nat} {memory : Bool} {w w' : Net} (hw : w.Linked)
    (h : tcpInputFin id memory w = some w') : w'.Linked := by
  unfold tcpInputFin at h
  split at h
  · cases h
    exact hw
  · rename_i p hp
    obtain ⟨hmem, rfl⟩ := Net.mem_of_pcb hp
    have hset := hw.followPcb hmem (p.follows_recved 1) p.id
    by_cases hrecv : p.recv = true
    · obtain ⟨c, cl, hs⟩ := hw.serves hmem (.inl hrecv)
      rw [TcpPcb.callback_of hrecv hs.arg] at h
      exact mqttClose_keeps (nofun : ConnStatus.disconnected ≠ .accepted) hset h
    · simp only [TcpPcb.callback, hrecv] at h
      cases h
      exact hset

/-- The callback for what is acknowledged. -/
theorem tcpInputSent_linked {p : TcpPcb} {acked : Bool} {w w' : Net} (hw : w.Linked)
    (h : (if acked then p.callback p.sent mqttTcpSentCb w else some w) = some w') :
    w'.Linked ∧ w'.active = w.active := by
  split at h
  · unfold TcpPcb.callback at h
    split at h
    · obtain ⟨c, -, h⟩ := Option.bind_eq_some_iff.mp h
      exact mqttTcpSentCb_linked hw h
    · cases h
      exact ⟨hw, rfl⟩
  · cases h
    exact ⟨hw, rfl⟩

/-- The pcb of a segment, after `tcp_process`. -/
theorem tcpProcess_linked {p : TcpPcb} {seg : Segment} {w : Net} (hw : w.Linked)
    (hp : p ∈ w.active) (hst : p.state ≠ .synSent) :
    (w.setPcb p.id (if (tcpProcess seg p).state = .timeWait then none
      else some (tcpProcess seg p))).Linked := by
  split
  · exact (hw.but _).remove
  · exact hw.followPcb hp (TcpPcb.follows_tcpProcess hst seg) p.id

/-- The last ACK leaves the pcb on the list until `tcp_input` takes it off. -/
theorem mem_of_closes {p : TcpPcb} {seg : Segment} {w w' : Net} (hp : p ∈ w.active)
    (hcloses : seg.closes p = true)
    (hact : w'.active = (w.setPcb p.id (if (tcpProcess seg p).state = .timeWait then none
      else some (tcpProcess seg p))).active) : tcpProcess seg p ∈ w'.active := by
  have hlast : p.state = .lastAck := by
    simp only [Segment.closes, Bool.and_eq_true, beq_iff_eq] at hcloses
    exact hcloses.1
  have hq : (tcpProcess seg p).state = .lastAck := by simp [tcpProcess, hlast]
  rw [hact, hq, if_neg (by simp)]
  exact List.mem_flatMap.mpr ⟨p, hp, by simp⟩

theorem tcpClosed_linked {q : TcpPcb} {w w' : Net} (hw : w.Linked) (hq : q ∈ w.active)
    (h : (if q.rxClosed then some w else tcpEventErr q w) = some w') :
    w'.LinkedBut (some q.id) := by
  split at h
  · cases h
    exact hw.but _
  · exact (tcpEventErr_linked hw (hw.serves hq) h).1

theorem tcpInput_linked {p : TcpPcb} {seg : Segment} {ms : List (Message × Bool)} {memory : Bool}
    {w w' : Net} (hw : w.Linked) (hp : p ∈ w.active) (hst : p.state ≠ .synSent)
    (h : tcpInput p seg ms memory w = some w') : w'.Linked := by
  obtain ⟨w₁, hsent, h⟩ := Option.bind_eq_some_iff.mp h
  obtain ⟨hw₁, hact⟩ := tcpInputSent_linked (tcpProcess_linked hw hp hst) hsent
  split at h
  · rename_i hcloses
    obtain ⟨w₂, herr, h⟩ := Option.bind_eq_some_iff.mp h
    cases h
    have hclosed := tcpClosed_linked hw₁ (mem_of_closes hp hcloses hact) herr
    rw [(TcpPcb.follows_tcpProcess hst seg).id] at hclosed
    exact hclosed.remove
  · obtain ⟨w₂, hdata, h⟩ := Option.bind_eq_some_iff.mp h
    have hw₂ := tcpInputData_linked hw₁ hdata
    split at h
    · exact tcpInputFin_linked hw₂ h
    · cases h
      exact hw₂

/-- **Every event of the stack** keeps the pcbs in line, whichever client it is for. -/
theorem tcpEvent_linked {p : TcpPcb} {e : TcpEvent} {w w' : Net} (hw : w.Linked)
    (hp : p ∈ w.active) (he : e.enabled p = true) (h : tcpEvent p w e = some w') : w'.Linked := by
  cases e with
  | synAck =>
    have hst : p.state = .synSent := by simpa [TcpEvent.enabled] using he
    obtain ⟨c, cl, hs⟩ := hw.serves hp (.inr (.inr hst))
    have hconnected : p.connected = true := by
      cases hs.stage with
      | opening _ hconnected => exact hconnected
      | waiting hne => exact absurd hst hne
      | accepted hne => exact absurd hst hne
    rw [tcpEvent, TcpPcb.callback_of hconnected hs.arg] at h
    exact mqttTcpConnectCb_linked hw hs hst h
  | segment seg ms memory =>
    have hst : p.state ≠ .synSent := by simpa [TcpEvent.enabled] using he
    exact tcpInput_linked hw hp hst h
  | reset =>
    obtain ⟨w₁, herr, h⟩ := Option.map_eq_some_iff.mp h
    rw [← h]
    exact (tcpEventErr_linked hw (hw.serves hp) herr).1.remove
  | remove => exact tcpEventErr_removed hw hp h
  | poll =>
    change p.callback p.poll mqttTcpPollCb w = some w' at h
    unfold TcpPcb.callback at h
    split at h
    · obtain ⟨c, -, h⟩ := Option.bind_eq_some_iff.mp h
      obtain ⟨cl, -, h⟩ := Option.bind_eq_some_iff.mp h
      cases h
      exact hw
    · cases h
      exact hw
  | closePend memory =>
    cases h
    exact hw.followPcb hp (p.follows_closePend memory) p.id

/-! ## A new client -/

/-- `mqtt_client_connect` for a client that was just allocated. -/
theorem mqttClientConnect_linked {c : Nat} {env : InitEnv} {w w' : Net} (hw : w.Quiet)
    (hc : w.mqttClient = some c) (hcl : w.heap c = some {})
    (h : mqttClientConnect c env w = some w') : w'.Linked := by
  simp only [mqttClientConnect, hcl, Option.bind_eq_bind, Option.bind_some, ne_eq,
    not_true_eq_false, if_false] at h
  split at h
  · cases h
    intro p hp _ hwired
    rcases List.mem_cons.mp hp with rfl | hp
    · exact ⟨c, _, rfl, hc, Function.update_self .., rfl, .opening rfl rfl rfl rfl rfl rfl⟩
    · exact absurd hwired (hw p hp)
  · cases h
    exact Net.Quiet.linked hw

theorem mqttExampleInit_linked {env : InitEnv} {w w' : Net} (hw : w.Quiet)
    (h : mqttExampleInit env w = some w') : w'.Linked := by
  unfold mqttExampleInit mqttClientNew at h
  split at h
  rename_i client w₁ hnew
  split at hnew
  · cases hnew
    refine mqttClientConnect_linked (w := { w.setClient w.nextClient {} with
      nextClient := w.nextClient + 1, mqttClient := some w.nextClient }) hw rfl ?_ h
    exact Function.update_self ..
  · cases hnew
    cases h
    exact Net.Quiet.linked hw

end MqttDevice.Lwip
