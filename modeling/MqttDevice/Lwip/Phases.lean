import MqttDevice.Lwip.Events

/-!
# The phases of a client

As long as a client is only freed when the stack has let go of it, there is one
client at a time with at most one pcb, and the two are in one of four phases.

* `mqttClose_eq`: what `mqtt_close` leaves;
* `tcpEvent_phase`, `mqttCyclicTimer_phase`: every event of the stack leads from
  a phase to a phase.
-/

namespace MqttDevice.Lwip

/-! ## Nets with one pcb -/

theorem Net.pcb_single {w : Net} {p : TcpPcb} (h : w.active = [p]) : w.pcb p.id = some p := by
  simp [Net.pcb, h]

theorem Net.setPcb_single {w : Net} {p : TcpPcb} (h : w.active = [p]) (q : Option TcpPcb) :
    w.setPcb p.id q = { w with active := q.toList } := by
  simp [Net.setPcb, h]

/-- Where `mqtt_close` leaves a pcb that is on the active list. -/
def closed (memory : Bool) (p : TcpPcb) : Option TcpPcb :=
  (tcpClose memory { p with recv := false, errf := false, sent := false }).2

/-- The callback for a connection that is lost does nothing. -/
theorem mqttConnectionCb_lost {reason : ConnStatus} (hr : reason ≠ .accepted) (w : Net) :
    mqttConnectionCb reason w = some w := by
  cases reason with
  | accepted => exact absurd rfl hr
  | refused | disconnected | timeout => rfl

/-- What `mqtt_close` leaves when its pcb is gone from the client. -/
theorem mqttClose_of {w : Net} {c : Nat} {cl : MqttClient} (hcl : w.heap c = some cl)
    {memory : Bool} {active : List TcpPcb}
    (hclose : closeConn memory cl.conn w = some { w with active := active })
    {reason : ConnStatus} (hr : reason ≠ .accepted ∨ cl.connState = .tcpDisconnected) :
    mqttClose c reason memory w =
      some { w with
        heap := Function.update w.heap c
          (some { cl with conn := none, connState := .tcpDisconnected })
        active := active
        timeouts := w.timeouts.erase c } := by
  simp only [mqttClose, hcl, hclose, Option.bind_eq_bind, Option.bind_some, Net.setClient,
    Net.sysUntimeout, Function.update_idem]
  by_cases hst : cl.connState = .tcpDisconnected
  · simp [hst]
  · simp [hst, mqttConnectionCb_lost (hr.resolve_right hst)]

/-- A client without a pcb is closed. -/
theorem mqttClose_none {w : Net} {c : Nat} {cl : MqttClient} (hcl : w.heap c = some cl)
    (hconn : cl.conn = none) {reason : ConnStatus} (hr : reason ≠ .accepted) (memory : Bool) :
    mqttClose c reason memory w =
      some { w with
        heap := Function.update w.heap c (some { cl with connState := .tcpDisconnected })
        timeouts := w.timeouts.erase c } := by
  have hclose : closeConn memory cl.conn w = some { w with active := w.active } := by
    rw [hconn]
    rfl
  rw [mqttClose_of hcl hclose (.inl hr), ← hconn]

/-- **What `mqtt_close` leaves** of a client and its pcb. -/
theorem mqttClose_eq {w : Net} {c : Nat} {cl : MqttClient} {p : TcpPcb}
    (hcl : w.heap c = some cl) (hact : w.active = [p]) (hconn : cl.conn = some p.id)
    {reason : ConnStatus} (hr : reason ≠ .accepted ∨ cl.connState = .tcpDisconnected)
    (memory : Bool) :
    mqttClose c reason memory w =
      some { w with
        heap := Function.update w.heap c
          (some { cl with conn := none, connState := .tcpDisconnected })
        active := (closed memory p).toList
        timeouts := w.timeouts.erase c } := by
  refine mqttClose_of hcl ?_ hr
  rw [hconn]
  simp only [closeConn, Net.pcb_single hact, Option.bind_eq_bind, Option.bind_some,
    Net.setPcb_single hact, tcpClose_ok, if_true]
  rfl

/-! ## The phases -/

/-- The pcb of a client that waits for the SYN|ACK. -/
structure TcpPcb.Connecting (p : TcpPcb) (c : Nat) : Prop where
  state : p.state = .synSent
  arg : p.callbackArg = some c
  connected : p.connected = true
  recv : p.recv = false
  sent : p.sent = false
  poll : p.poll = false
  errf : p.errf = true
  rxClosed : p.rxClosed = false
  closePend : p.closePend = false
  unread : p.unread = 0

/-- The pcb of a client with a connection. -/
structure TcpPcb.Open (p : TcpPcb) (c : Nat) : Prop where
  state : p.state = .established ∨ p.state = .closeWait
  arg : p.callbackArg = some c
  recv : p.recv = true
  sent : p.sent = true
  poll : p.poll = true
  errf : p.errf = true
  rxClosed : p.rxClosed = false
  closePend : p.closePend = false

/-- A pcb that the client has closed. It is still polled. -/
structure TcpPcb.Lingering (p : TcpPcb) (c : Nat) : Prop where
  state : p.state ≠ .synSent
  arg : p.callbackArg = some c
  recv : p.recv = false
  sent : p.sent = false
  poll : p.poll = true
  errf : p.errf = false
  rxClosed : p.rxClosed = true

/-- `mqtt_client` points to the client `cl`, which has the number `c`. -/
structure Net.Current (w : Net) (c : Nat) (cl : MqttClient) : Prop where
  client : w.mqttClient = some c
  heap : w.heap c = some cl
  fresh : c < w.nextClient

/-- The client and its open pcb `p`. -/
structure Net.Up (w : Net) (c : Nat) (cl : MqttClient) (p : TcpPcb) : Prop where
  cur : w.Current c cl
  active : w.active = [p]
  timeouts : w.timeouts = [c]
  pcb : p.Open c
  conn : cl.conn = some p.id
  connState : cl.connState = .mqttConnecting ∨ cl.connState = .mqttConnected

/-- The phases of the client `c`. In the phase `up`, `n` received bytes are not
taken yet. -/
inductive Phase (w : Net) (c n : Nat) : Prop where
  | down {cl} (hcur : w.Current c cl) (hact : w.active = []) (htime : w.timeouts = [])
      (hconn : cl.conn = none) (hst : cl.connState = .tcpDisconnected)
  | connecting {cl p} (hcur : w.Current c cl) (hact : w.active = [p]) (htime : w.timeouts = [])
      (hp : p.Connecting c) (hconn : cl.conn = some p.id) (hst : cl.connState = .tcpConnecting)
  | up {cl p} (hup : w.Up c cl p) (hn : p.unread = n)
  | closing {cl p} (hcur : w.Current c cl) (hact : w.active = [p]) (htime : w.timeouts = [])
      (hp : p.Lingering c) (hconn : cl.conn = none) (hst : cl.connState = .tcpDisconnected)

theorem Net.Current.set {w : Net} {c : Nat} {cl : MqttClient} (h : w.Current c cl)
    (cl' : MqttClient) (active : List TcpPcb) (timeouts : List Nat) :
    Net.Current { w with
      heap := Function.update w.heap c (some cl'), active := active, timeouts := timeouts } c cl' :=
  ⟨h.client, Function.update_self .., h.fresh⟩

theorem Net.Up.setClient {w : Net} {c : Nat} {cl : MqttClient} {p : TcpPcb} (h : w.Up c cl p)
    (cl' : MqttClient) (hconn : cl'.conn = cl.conn)
    (hst : cl'.connState = .mqttConnecting ∨ cl'.connState = .mqttConnected) :
    (w.setClient c cl').Up c cl' p :=
  ⟨h.cur.set cl' w.active w.timeouts, h.active, h.timeouts, h.pcb, hconn.trans h.conn, hst⟩

theorem Phase.current {w : Net} {c n : Nat} (h : Phase w c n) : ∃ cl, w.Current c cl := by
  cases h with
  | down hcur => exact ⟨_, hcur⟩
  | connecting hcur => exact ⟨_, hcur⟩
  | up hup => exact ⟨_, hup.cur⟩
  | closing hcur => exact ⟨_, hcur⟩

/-- Counters of the client may change in every phase. -/
theorem Phase.setClient {w : Net} {c n : Nat} {cl cl' : MqttClient} (h : Phase w c n)
    (hcl : w.heap c = some cl) (hconn : cl'.conn = cl.conn) (hst : cl'.connState = cl.connState) :
    Phase (w.setClient c cl') c n := by
  have hsame {cl₀ : MqttClient} (hcur : w.Current c cl₀) : cl₀ = cl :=
    Option.some.inj (hcur.heap.symm.trans hcl)
  cases h with
  | down hcur hact htime hc hs =>
    obtain rfl := hsame hcur
    exact .down (hcur.set cl' _ _) hact htime (hconn.trans hc) (hst.trans hs)
  | connecting hcur hact htime hp hc hs =>
    obtain rfl := hsame hcur
    exact .connecting (hcur.set cl' _ _) hact htime hp (hconn.trans hc) (hst.trans hs)
  | up hup hn =>
    obtain rfl := hsame hup.cur
    exact .up (hup.setClient cl' hconn (hst ▸ hup.connState)) hn
  | closing hcur hact htime hp hc hs =>
    obtain rfl := hsame hcur
    exact .closing (hcur.set cl' _ _) hact htime hp (hconn.trans hc) (hst.trans hs)

/-- An open pcb that the client closes stays on the list, with the poll callback
alone, unless bytes were not taken. -/
theorem TcpPcb.Open.closed_cases {p : TcpPcb} {c : Nat} (h : p.Open c) (memory : Bool) :
    (p.unread ≠ 0 ∧ closed memory p = none) ∨
      (p.unread = 0 ∧ ∃ q, closed memory p = some q ∧ q.id = p.id ∧ q.Lingering c) := by
  rcases tcpClose_open memory (p := { p with recv := false, errf := false, sent := false })
    h.state with ⟨hn, hq⟩ | ⟨hn, q, hq, hs, hst⟩
  · exact .inl ⟨hn, hq⟩
  · refine .inr ⟨hn, q, hq, hs.id, hst, ?_, hs.recv, hs.sent, ?_, hs.errf, hs.rxClosed⟩
    · exact hs.callbackArg.trans h.arg
    · exact hs.poll.trans h.poll

theorem TcpPcb.Connecting.closed {p : TcpPcb} {c : Nat} (h : p.Connecting c) (memory : Bool) :
    closed memory p = none := tcpClose_synSent memory h.state

/-- All pcbs on the active list, there is at most one, have this number. -/
def Net.Only (w : Net) (id : Nat) : Prop := ∀ q ∈ w.active, q.id = id

theorem Net.Up.only {w : Net} {c : Nat} {cl : MqttClient} {p : TcpPcb} (h : w.Up c cl p) :
    w.Only p.id := by
  simp [Net.Only, h.active]

/-- `mqtt_close` of an open connection. -/
theorem mqttClose_phase {w : Net} {c : Nat} {cl : MqttClient} {p : TcpPcb}
    (hcur : w.Current c cl) (hact : w.active = [p]) (htime : w.timeouts.erase c = [])
    (hp : p.Open c) (hconn : cl.conn = some p.id) {reason : ConnStatus}
    (hr : reason ≠ .accepted) (memory : Bool) (n : Nat) :
    ∃ w', mqttClose c reason memory w = some w' ∧ Phase w' c n ∧ w'.Only p.id := by
  refine ⟨_, mqttClose_eq hcur.heap hact hconn (.inl hr) memory, ?_⟩
  rcases hp.closed_cases memory with ⟨-, hq⟩ | ⟨-, q, hq, hid, hl⟩
  · refine ⟨.down (hcur.set _ _ _) (by rw [hq]; rfl) htime rfl rfl, ?_⟩
    simp [Net.Only, hq]
  · refine ⟨.closing (hcur.set _ _ _) (by rw [hq]; rfl) htime hl rfl rfl, ?_⟩
    simp [Net.Only, hq, hid]

theorem Net.Up.close {w : Net} {c : Nat} {cl : MqttClient} {p : TcpPcb} (h : w.Up c cl p)
    {reason : ConnStatus} (hr : reason ≠ .accepted) (memory : Bool) (n : Nat) :
    ∃ w', mqttClose c reason memory w = some w' ∧ Phase w' c n ∧ w'.Only p.id :=
  mqttClose_phase h.cur h.active (by simp [h.timeouts]) h.pcb h.conn hr memory n

/-! ## Incoming messages -/

theorem mqttMessageReceived_up {w : Net} {c : Nat} {cl : MqttClient} {p : TcpPcb}
    (h : w.Up c cl p) (m : Message) :
    ∃ res w' cl', mqttMessageReceived c m w = some (res, w') ∧ w'.Up c cl' p := by
  cases m with
  | other accepted => exact ⟨_, w, cl, rfl, h⟩
  | connack length code =>
    simp only [mqttMessageReceived, h.cur.heap, Option.bind_eq_bind, Option.bind_some]
    split
    case isFalse => exact ⟨_, w, cl, rfl, h⟩
    case isTrue =>
      split
      · exact ⟨_, w, cl, rfl, h⟩
      · split
        · -- accepted: the client is connected, then the connection callback is made
          have h' := h.setClient { cl with cyclicTick := 0, connState := .mqttConnected } rfl
            (.inr rfl)
          split
          · have hcb := h'.setClient
              { cl with cyclicTick := 0, connState := .mqttConnected, inpub := true } rfl (.inr rfl)
            refine ⟨.accepted, _, _, ?_, hcb⟩
            simp only [mqttConnectionCb, h'.cur.client, h'.cur.heap, Option.bind_eq_bind,
              Option.bind_some]
          · exact ⟨_, _, _, rfl, h'⟩
        · exact ⟨_, w, cl, rfl, h⟩

theorem mqttParseIncoming_up {w : Net} {c : Nat} {cl : MqttClient} {p : TcpPcb}
    (h : w.Up c cl p) (ms : List (Message × Bool)) :
    ∃ res w' cl', mqttParseIncoming c ms w = some (res, w') ∧ w'.Up c cl' p := by
  induction ms generalizing w cl with
  | nil => exact ⟨.accepted, w, cl, rfl, h⟩
  | cons m ms ih =>
    obtain ⟨m, checked⟩ := m
    obtain ⟨res, w', cl', heq, h'⟩ := mqttMessageReceived_up h m
    rw [mqttParseIncoming, heq, Option.bind_eq_bind, Option.bind_some]
    dsimp only
    split
    · exact ⟨res, w', cl', rfl, h'⟩
    · exact ih h'

/-! ## Segments -/

/-- The window of the open pcb moves. -/
theorem Net.Up.setPcb {w : Net} {c : Nat} {cl : MqttClient} {p q : TcpPcb} (h : w.Up c cl p)
    (hid : q.id = p.id) (hq : q.Open c) : (w.setPcb p.id (some q)).Up c cl q := by
  rw [Net.setPcb_single h.active]
  exact ⟨⟨h.cur.client, h.cur.heap, h.cur.fresh⟩, rfl, h.timeouts, hq,
    h.conn.trans (congrArg some hid.symm), h.connState⟩

theorem TcpPcb.Open.recved {p : TcpPcb} {c : Nat} (h : p.Open c) (len : Nat) :
    (p.recved len).Open c :=
  ⟨h.state, h.arg, h.recv, h.sent, h.poll, h.errf, h.rxClosed, h.closePend⟩

/-- Data is taken in full, whatever the client makes of it. -/
theorem mqttTcpRecvCb_up {w : Net} {c : Nat} {cl : MqttClient} {p : TcpPcb} (h : w.Up c cl p)
    {len n : Nat} (hn : p.unread = len + n) (ms : List (Message × Bool)) (memory : Bool) :
    ∃ w', mqttTcpRecvCb c p.id len ms memory w = some w' ∧ Phase w' c n ∧ w'.Only p.id := by
  have h₁ : (w.setPcb p.id (some (p.recved len))).Up c cl (p.recved len) :=
    h.setPcb rfl (h.pcb.recved len)
  obtain ⟨res, w₂, cl₂, hparse, h₂⟩ := mqttParseIncoming_up h₁ ms
  have hclose : ∃ w₃, (if res ≠ .accepted then mqttClose c res memory w₂ else some w₂) = some w₃ ∧
      Phase w₃ c n ∧ w₃.Only p.id := by
    by_cases hres : res = .accepted
    · refine ⟨w₂, by simp [hres], .up h₂ ?_, h₂.only⟩
      simp only [TcpPcb.recved]
      omega
    · rw [if_pos hres]
      exact h₂.close hres memory n
  obtain ⟨w₃, heq, h₃, honly⟩ := hclose
  obtain ⟨cl₃, hcur₃⟩ := h₃.current
  simp only [mqttTcpRecvCb, h.cur.heap, Net.pcb_single h.active, hparse, heq, hcur₃.heap,
    Option.bind_eq_bind, Option.bind_some]
  split
  · exact ⟨_, rfl, h₃.setClient hcur₃.heap rfl rfl, honly⟩
  · exact ⟨_, rfl, h₃, honly⟩

theorem mqttTcpSentCb_up {w : Net} {c : Nat} {cl : MqttClient} {p : TcpPcb} (h : w.Up c cl p) :
    ∃ w' cl', mqttTcpSentCb c w = some w' ∧ w'.Up c cl' p := by
  simp only [mqttTcpSentCb, h.cur.heap, Option.bind_eq_bind, Option.bind_some]
  split
  · exact ⟨_, _, rfl, h.setClient _ rfl h.connState⟩
  · exact ⟨w, cl, rfl, h⟩

/-- A segment for an open pcb is counted as received. -/
theorem TcpPcb.Open.process {p : TcpPcb} {c : Nat} (h : p.Open c) (seg : Segment) :
    (tcpProcess seg p).Open c ∧ (tcpProcess seg p).id = p.id ∧
      (tcpProcess seg p).unread = p.unread + seg.len + seg.fin.toNat ∧
      (tcpProcess seg p).state ≠ .timeWait ∧ seg.closes p = false := by
  have hst : (tcpProcess seg p).state = .established ∨ (tcpProcess seg p).state = .closeWait := by
    rcases h.state with hs | hs <;> simp only [tcpProcess, hs] <;> split <;> simp
  have hcl : seg.closes p = false := by rcases h.state with hs | hs <;> simp [Segment.closes, hs]
  refine ⟨?_, ?_, ?_, ?_, hcl⟩
  · rw [tcpProcess_eq]
    exact ⟨hst, h.arg, h.recv, h.sent, h.poll, h.errf, h.rxClosed, h.closePend⟩
  · rw [tcpProcess_eq]
  · rw [tcpProcess_eq]
  · rcases hst with hs | hs <;> simp [hs]

/-- The data of a segment. -/
theorem tcpInputData_phase {w : Net} {c len n : Nat} {cl : MqttClient} {p : TcpPcb}
    (h : w.Up c cl p) (hn : p.unread = len + n) (ms : List (Message × Bool)) (memory : Bool) :
    ∃ w', tcpInputData p.id len ms memory w = some w' ∧ Phase w' c n ∧ w'.Only p.id := by
  simp only [tcpInputData, Net.pcb_single h.active, h.pcb.rxClosed, h.pcb.recv,
    TcpPcb.callback, h.pcb.arg, Bool.false_eq_true, if_false, if_true, Option.bind_some]
  split
  · exact ⟨w, rfl, .up h (by omega), h.only⟩
  · exact mqttTcpRecvCb_up h hn ms memory

theorem TcpPcb.Lingering.recved {p : TcpPcb} {c : Nat} (h : p.Lingering c) (len : Nat) :
    (p.recved len).Lingering c :=
  ⟨h.state, h.arg, h.recv, h.sent, h.poll, h.errf, h.rxClosed⟩

/-- The FIN of a segment. -/
theorem tcpInputFin_phase {w : Net} {c id : Nat} (h : Phase w c 1) (hid : w.Only id)
    (memory : Bool) : ∃ w', tcpInputFin id memory w = some w' ∧ Phase w' c 0 := by
  cases h with
  | down hcur hact htime hconn hst =>
    have hno : w.pcb id = none := by simp [Net.pcb, hact]
    exact ⟨w, by simp [tcpInputFin, hno], .down hcur hact htime hconn hst⟩
  | @connecting cl p hcur hact htime hp hconn hst =>
    obtain rfl : p.id = id := hid p (by simp [hact])
    refine ⟨{ w with active := [p.recved 1] }, ?_, .connecting ⟨hcur.client, hcur.heap, hcur.fresh⟩
      rfl htime ⟨hp.state, hp.arg, hp.connected, hp.recv, hp.sent, hp.poll, hp.errf, hp.rxClosed,
        hp.closePend, by simp [TcpPcb.recved, hp.unread]⟩ hconn hst⟩
    simp [tcpInputFin, Net.pcb_single hact, Net.setPcb_single hact, TcpPcb.callback, hp.recv]
  | @up cl p hup hn =>
    obtain rfl : p.id = id := hid p (by simp [hup.active])
    obtain ⟨w', heq, h', -⟩ := (hup.setPcb (q := p.recved 1) rfl (hup.pcb.recved 1)).close
      (by simp : ConnStatus.disconnected ≠ .accepted) memory 0
    refine ⟨w', ?_, h'⟩
    simp only [tcpInputFin, Net.pcb_single hup.active, TcpPcb.callback, hup.pcb.recv, hup.pcb.arg,
      if_true, Option.bind_some]
    exact heq
  | @closing cl p hcur hact htime hp hconn hst =>
    obtain rfl : p.id = id := hid p (by simp [hact])
    refine ⟨{ w with active := [p.recved 1] }, ?_, .closing ⟨hcur.client, hcur.heap, hcur.fresh⟩
      rfl htime (hp.recved 1) hconn hst⟩
    simp [tcpInputFin, Net.pcb_single hact, Net.setPcb_single hact, TcpPcb.callback, hp.recv]

/-- A segment for an open pcb. -/
theorem tcpInput_up {w : Net} {c : Nat} {cl : MqttClient} {p : TcpPcb} (h : w.Up c cl p)
    (hn : p.unread = 0) (seg : Segment) (ms : List (Message × Bool)) (memory : Bool) :
    ∃ w', tcpInput p seg ms memory w = some w' ∧ Phase w' c 0 := by
  obtain ⟨hq, hid, hunread, htw, hcl⟩ := h.pcb.process seg
  have h₁ := h.setPcb hid hq
  -- the acknowledged data
  obtain ⟨w₂, cl₂, hsent, h₂⟩ : ∃ w₂ cl₂,
      (if seg.acked then (tcpProcess seg p).callback (tcpProcess seg p).sent mqttTcpSentCb
        (w.setPcb p.id (some (tcpProcess seg p))) else
          some (w.setPcb p.id (some (tcpProcess seg p)))) = some w₂ ∧
        w₂.Up c cl₂ (tcpProcess seg p) := by
    split
    · simp only [TcpPcb.callback, hq.sent, hq.arg, if_true, Option.bind_some]
      exact mqttTcpSentCb_up h₁
    · exact ⟨_, cl, rfl, h₁⟩
  -- the data, then the FIN
  obtain ⟨w₃, hdata, h₃, honly⟩ := tcpInputData_phase h₂
    (show (tcpProcess seg p).unread = seg.len + seg.fin.toNat by omega) ms memory
  rw [hid] at hdata honly
  simp only [tcpInput, if_neg htw, hsent, hcl, Bool.false_eq_true, if_false, hdata,
    Option.bind_eq_bind, Option.bind_some]
  cases hf : seg.fin with
  | false =>
    rw [hf] at h₃
    exact ⟨w₃, rfl, h₃⟩
  | true =>
    rw [hf] at h₃
    exact tcpInputFin_phase h₃ honly memory

theorem TcpPcb.Lingering.process {p : TcpPcb} {c : Nat} (h : p.Lingering c) (seg : Segment) :
    (tcpProcess seg p).Lingering c ∧ (tcpProcess seg p).id = p.id := by
  rw [tcpProcess_eq]
  exact ⟨⟨tcpProcess_state h.state, h.arg, h.recv, h.sent, h.poll, h.errf, h.rxClosed⟩, rfl⟩

/-- A segment for a pcb that was closed calls nothing. -/
theorem tcpInput_closing {w : Net} {c : Nat} {cl : MqttClient} {p : TcpPcb}
    (hcur : w.Current c cl) (hact : w.active = [p]) (htime : w.timeouts = [])
    (hp : p.Lingering c) (hconn : cl.conn = none) (hst : cl.connState = .tcpDisconnected)
    (seg : Segment) (ms : List (Message × Bool)) (memory : Bool) :
    ∃ w', tcpInput p seg ms memory w = some w' ∧ Phase w' c 0 := by
  obtain ⟨hq, hid⟩ := hp.process seg
  have hdown (n : Nat) : Phase { w with active := [] } c n :=
    .down ⟨hcur.client, hcur.heap, hcur.fresh⟩ rfl htime hconn hst
  have hclosing (n : Nat) : Phase { w with active := [tcpProcess seg p] } c n :=
    .closing ⟨hcur.client, hcur.heap, hcur.fresh⟩ rfl htime hq hconn hst
  have hsent (w' : Net) : (if seg.acked then
      (tcpProcess seg p).callback (tcpProcess seg p).sent mqttTcpSentCb w' else some w') =
        some w' := by simp [TcpPcb.callback, hq.sent]
  simp only [tcpInput, Net.setPcb_single hact, hsent, hq.rxClosed, if_true, Option.bind_eq_bind,
    Option.bind_some]
  have hfin {w' : Net} (h : ∀ n, Phase w' c n) (hid : w'.Only p.id) :
      ∃ w'', (if seg.fin then tcpInputFin p.id memory w' else some w') = some w'' ∧
        Phase w'' c 0 := by
    split
    · exact tcpInputFin_phase (h 1) hid memory
    · exact ⟨w', rfl, h 0⟩
  by_cases hcl : seg.closes p = true
  · refine ⟨{ w with active := [] }, ?_, hdown 0⟩
    simp only [hcl, if_true]
    split <;> simp [Net.setPcb, hid]
  by_cases htw : (tcpProcess seg p).state = .timeWait
  · have hdata : tcpInputData p.id seg.len ms memory { w with active := [] } =
        some { w with active := [] } := rfl
    simp only [htw, hcl, if_true, Option.toList_none, hdata, Option.bind_some]
    exact hfin hdown (by simp [Net.Only])
  · have hact₁ : ({ w with active := [tcpProcess seg p] } : Net).active = [tcpProcess seg p] := rfl
    have hpcb := Net.pcb_single hact₁
    have hset := Net.setPcb_single hact₁ none
    rw [hid] at hpcb hset
    by_cases hlen : seg.len = 0
    · have hdata : tcpInputData p.id seg.len ms memory { w with active := [tcpProcess seg p] } =
          some { w with active := [tcpProcess seg p] } := by simp [tcpInputData, hpcb, hlen]
      simp only [htw, hcl, if_false, Option.toList_some, hdata, Option.bind_some]
      exact hfin hclosing (by simp [Net.Only, hid])
    · -- data for a closed pcb: it is aborted, and there is no error callback
      have hdata : tcpInputData p.id seg.len ms memory { w with active := [tcpProcess seg p] } =
          some { w with active := [] } := by
        simp [tcpInputData, hpcb, hlen, hq.rxClosed, hset, tcpEventErr, TcpPcb.callback, hq.errf]
      simp only [htw, hcl, if_false, Option.toList_some, hdata, Option.bind_some]
      exact hfin hdown (by simp [Net.Only])

/-! ## The other events -/

theorem mqttTcpErrCb_eq {w : Net} {c : Nat} {cl : MqttClient} (h : w.heap c = some cl) :
    mqttTcpErrCb c w = some { w with
      heap := Function.update w.heap c
        (some { cl with conn := none, connState := .tcpDisconnected })
      timeouts := w.timeouts.erase c } := by
  have hheap : (w.setClient c { cl with conn := none }).heap c = some { cl with conn := none } :=
    Function.update_self ..
  simp only [mqttTcpErrCb, h, Option.bind_eq_bind, Option.bind_some]
  rw [mqttClose_none hheap rfl (by simp)]
  simp [Net.setClient]

/-- The end of a connection that is not closed yet: error callback and removal
from the list, in either order. -/
theorem tcpEventErr_phase {w : Net} {c : Nat} {cl : MqttClient} {p : TcpPcb}
    (hcur : w.Current c cl) (hact : w.active = [p]) (htime : w.timeouts.erase c = [])
    (harg : p.callbackArg = some c) (herrf : p.errf = true) :
    ∃ w', tcpEventErr p (w.setPcb p.id none) = some w' ∧
      (tcpEventErr p w).map (fun w => w.setPcb p.id none) = some w' ∧ Phase w' c 0 := by
  have hev (w' : Net) (h : w'.heap c = some cl) :
      tcpEventErr p w' = some { w' with
        heap := Function.update w'.heap c
          (some { cl with conn := none, connState := .tcpDisconnected })
        timeouts := w'.timeouts.erase c } := by
    rw [tcpEventErr, TcpPcb.callback_of herrf harg, mqttTcpErrCb_eq h]
  rw [Net.setPcb_single hact, hev w hcur.heap]
  refine ⟨_, hev _ hcur.heap, ?_, ?_⟩
  · simp [Net.setPcb, hact]
  · exact .down (hcur.set _ _ _) rfl htime rfl rfl

theorem mqttTcpConnectCb_eq {w : Net} {c : Nat} {cl : MqttClient} {p : TcpPcb}
    (h : w.heap c = some cl) (hact : w.active = [p]) :
    mqttTcpConnectCb c p.id w = some { w with
      heap := Function.update w.heap c
        (some { cl with connState := .mqttConnecting, cyclicTick := 0 })
      active := [{ p with recv := true, sent := true, poll := true }]
      timeouts := w.timeouts ++ [c] } := by
  simp only [mqttTcpConnectCb, h, Net.pcb_single hact, Net.setPcb_single hact,
    Option.bind_eq_bind, Option.bind_some]
  rfl

/-- The SYN|ACK arrives. -/
theorem synAck_phase {w : Net} {c : Nat} {cl : MqttClient} {p : TcpPcb} (hcur : w.Current c cl)
    (hact : w.active = [p]) (htime : w.timeouts = []) (hp : p.Connecting c)
    (hconn : cl.conn = some p.id) : ∃ w', tcpEvent p w .synAck = some w' ∧ Phase w' c 0 := by
  let q : TcpPcb := { p with state := .established }
  rw [tcpEvent, TcpPcb.callback_of hp.connected hp.arg, Net.setPcb_single hact]
  refine ⟨_, mqttTcpConnectCb_eq (p := q) hcur.heap rfl, ?_⟩
  refine .up ⟨hcur.set _ _ _, rfl, ?_, ?_, hconn, .inl rfl⟩ hp.unread
  · rw [htime]
    rfl
  · exact ⟨.inl rfl, hp.arg, rfl, rfl, rfl, hp.errf, hp.rxClosed, hp.closePend⟩

theorem tcpEvent_connecting {w : Net} {c : Nat} {cl : MqttClient} {p : TcpPcb}
    (hcur : w.Current c cl) (hact : w.active = [p]) (htime : w.timeouts = [])
    (hp : p.Connecting c) (hconn : cl.conn = some p.id) (hst : cl.connState = .tcpConnecting)
    {e : TcpEvent} (he : e.enabled p = true) :
    ∃ w', tcpEvent p w e = some w' ∧ Phase w' c 0 := by
  have herase : w.timeouts.erase c = [] := by simp [htime]
  obtain ⟨w', hrem, hres, h'⟩ := tcpEventErr_phase hcur hact herase hp.arg hp.errf
  cases e with
  | synAck => exact synAck_phase hcur hact htime hp hconn
  | segment => simp [TcpEvent.enabled, hp.state] at he
  | reset => exact ⟨w', hres, h'⟩
  | remove => exact ⟨w', hrem, h'⟩
  | poll =>
    refine ⟨w, ?_, .connecting hcur hact htime hp hconn hst⟩
    simp [tcpEvent, TcpPcb.callback, hp.poll]
  | closePend => simp [TcpEvent.enabled, hp.closePend] at he

theorem tcpEvent_up {w : Net} {c : Nat} {cl : MqttClient} {p : TcpPcb} (hup : w.Up c cl p)
    (hn : p.unread = 0) {e : TcpEvent} (he : e.enabled p = true) :
    ∃ w', tcpEvent p w e = some w' ∧ Phase w' c 0 := by
  have herase : w.timeouts.erase c = [] := by simp [hup.timeouts]
  obtain ⟨w', hrem, hres, h'⟩ :=
    tcpEventErr_phase hup.cur hup.active herase hup.pcb.arg hup.pcb.errf
  cases e with
  | synAck => rcases hup.pcb.state with hs | hs <;> simp [TcpEvent.enabled, hs] at he
  | segment seg ms memory => exact tcpInput_up hup hn seg ms memory
  | reset => exact ⟨w', hres, h'⟩
  | remove => exact ⟨w', hrem, h'⟩
  | poll =>
    refine ⟨w, ?_, .up hup hn⟩
    rw [tcpEvent, TcpPcb.callback_of hup.pcb.poll hup.pcb.arg, mqttTcpPollCb, hup.cur.heap]
    rfl
  | closePend => simp [TcpEvent.enabled, hup.pcb.closePend] at he

theorem tcpEvent_closing {w : Net} {c : Nat} {cl : MqttClient} {p : TcpPcb}
    (hcur : w.Current c cl) (hact : w.active = [p]) (htime : w.timeouts = [])
    (hp : p.Lingering c) (hconn : cl.conn = none) (hst : cl.connState = .tcpDisconnected)
    {e : TcpEvent} (he : e.enabled p = true) :
    ∃ w', tcpEvent p w e = some w' ∧ Phase w' c 0 := by
  have hgone : Phase { w with active := [] } c 0 :=
    .down ⟨hcur.client, hcur.heap, hcur.fresh⟩ rfl htime hconn hst
  cases e with
  | synAck => simp [TcpEvent.enabled, hp.state] at he
  | segment seg ms memory => exact tcpInput_closing hcur hact htime hp hconn hst seg ms memory
  | reset =>
    refine ⟨_, ?_, hgone⟩
    simp [tcpEvent, tcpEventErr, TcpPcb.callback, hp.errf, Net.setPcb_single hact]
  | remove =>
    refine ⟨_, ?_, hgone⟩
    simp [tcpEvent, tcpEventErr, TcpPcb.callback, hp.errf, Net.setPcb_single hact]
  | poll =>
    refine ⟨w, ?_, .closing hcur hact htime hp hconn hst⟩
    rw [tcpEvent, TcpPcb.callback_of hp.poll hp.arg, mqttTcpPollCb, hcur.heap]
    rfl
  | closePend memory =>
    obtain ⟨-, hs, hst'⟩ := tcpCloseShutdownFin_spec memory { p with closePend := false }
    refine ⟨_, rfl, ?_⟩
    rw [Net.setPcb_single hact]
    refine .closing ⟨hcur.client, hcur.heap, hcur.fresh⟩ rfl htime ?_ hconn hst
    exact ⟨hst' hp.state, hs.callbackArg.trans hp.arg, hs.recv.trans hp.recv,
      hs.sent.trans hp.sent, hs.poll.trans hp.poll, hs.errf.trans hp.errf,
      hs.rxClosed.trans hp.rxClosed⟩

/-- **Events of the stack lead from phase to phase**, and the program is defined. -/
theorem tcpEvent_phase {w : Net} {c : Nat} (h : Phase w c 0) {p : TcpPcb} (hp : p ∈ w.active)
    {e : TcpEvent} (he : e.enabled p = true) :
    ∃ w', tcpEvent p w e = some w' ∧ Phase w' c 0 := by
  cases h with
  | down hcur hact => rw [hact] at hp; cases hp
  | @connecting cl q hcur hact htime hq hconn hst =>
    obtain rfl : p = q := by simpa [hact] using hp
    exact tcpEvent_connecting hcur hact htime hq hconn hst he
  | @up cl q hup hn =>
    obtain rfl : p = q := by simpa [hup.active] using hp
    exact tcpEvent_up hup hn he
  | @closing cl q hcur hact htime hq hconn hst =>
    obtain rfl : p = q := by simpa [hact] using hp
    exact tcpEvent_closing hcur hact htime hq hconn hst he

/-! ## The cyclic timer -/

section Cyclic

variable {w : Net} {c : Nat} {cl : MqttClient} {p : TcpPcb} (hcur : w.Current c cl)
  (hact : w.active = [p]) (htime : w.timeouts = []) (hp : p.Open c) (hn : p.unread = 0)
  (hconn : cl.conn = some p.id)
include hcur hact htime hp hn hconn

/-- The timer is started again, with other counters in the client. -/
theorem restart_phase (cl' : MqttClient) (hconn' : cl'.conn = cl.conn)
    (hst : cl'.connState = .mqttConnecting ∨ cl'.connState = .mqttConnected) :
    Phase ((w.setClient c cl').sysTimeout c) c 0 := by
  have hcur' := hcur.set cl' w.active w.timeouts
  refine .up ⟨⟨hcur'.client, hcur'.heap, hcur'.fresh⟩, hact, ?_, hp, hconn'.trans hconn, hst⟩ hn
  show w.timeouts ++ [c] = [c]
  rw [htime]
  rfl

omit hn in
/-- The connection is closed by the timer, which is not started again. -/
theorem timeout_phase (cl' : MqttClient) (hconn' : cl'.conn = cl.conn) (memory : Bool) :
    ∃ w', mqttClose c .timeout memory (w.setClient c cl') = some w' ∧ Phase w' c 0 := by
  obtain ⟨w', heq, h', -⟩ := mqttClose_phase (hcur.set cl' w.active w.timeouts) hact
    (by simp [htime]) hp (hconn'.trans hconn) (by simp : ConnStatus.timeout ≠ .accepted) memory 0
  exact ⟨w', heq, h'⟩

theorem cyclicConnecting_phase (hst : cl.connState = .mqttConnecting) (memory : Bool) :
    ∃ r, cyclicConnecting c memory cl w = some r ∧
      Phase (if r.1 then r.2.sysTimeout c else r.2) c 0 := by
  rw [cyclicConnecting]
  split
  · obtain ⟨w', heq, h'⟩ := timeout_phase hcur hact htime hp hconn
      { cl with cyclicTick := cl.cyclicTick + 1 } rfl memory
    exact ⟨(false, w'), by rw [heq]; rfl, h'⟩
  · exact ⟨_, rfl, restart_phase hcur hact htime hp hn hconn _ rfl (.inl hst)⟩

theorem cyclicConnected_phase (hst : cl.connState = .mqttConnected) (space memory : Bool) :
    ∃ r, cyclicConnected c space memory cl w = some r ∧
      Phase (if r.1 then r.2.sysTimeout c else r.2) c 0 := by
  rw [cyclicConnected]
  split
  case isFalse =>
    refine ⟨_, rfl, ?_⟩
    have h := restart_phase hcur hact htime hp hn hconn cl rfl (.inr hst)
    rwa [Net.setClient, Function.update_eq_self_iff.mpr hcur.heap.symm] at h
  case isTrue =>
    have htick (cl : MqttClient) : (keepAliveTick space cl).conn = cl.conn ∧
        (keepAliveTick space cl).connState = cl.connState := by
      unfold keepAliveTick
      repeat' split
      all_goals exact ⟨rfl, rfl⟩
    let cl₁ := { cl with serverWatchdog := cl.serverWatchdog + 1 }
    dsimp only
    split
    · -- closed; the counters are still updated
      obtain ⟨w', heq, h'⟩ := timeout_phase hcur hact htime hp hconn cl₁ rfl memory
      obtain ⟨cl', hcur'⟩ := h'.current
      refine ⟨(false, w'.setClient c (keepAliveTick space cl')), ?_,
        h'.setClient hcur'.heap (htick cl').1 (htick cl').2⟩
      rw [heq, Option.bind_eq_bind, Option.bind_some, hcur'.heap]
      rfl
    · refine ⟨_, rfl, ?_⟩
      have h := restart_phase hcur hact htime hp hn hconn (keepAliveTick space cl₁)
        (htick cl₁).1 (.inr ((htick cl₁).2.trans hst))
      simpa [Net.setClient] using h

end Cyclic

/-- The timer of a client expires. -/
theorem mqttCyclicTimer_phase {w : Net} {c d : Nat} (h : Phase w c 0) (hd : d ∈ w.timeouts)
    (space memory : Bool) :
    ∃ w', mqttCyclicTimer d space memory (w.sysUntimeout d) = some w' ∧ Phase w' c 0 := by
  cases h with
  | down hcur hact htime => rw [htime] at hd; cases hd
  | connecting hcur hact htime => rw [htime] at hd; cases hd
  | closing hcur hact htime => rw [htime] at hd; cases hd
  | @up cl p hup hn =>
    obtain rfl : d = c := by simpa [hup.timeouts] using hd
    have hcur : (w.sysUntimeout d).Current d cl := ⟨hup.cur.client, hup.cur.heap, hup.cur.fresh⟩
    have htime : (w.sysUntimeout d).timeouts = [] := by simp [Net.sysUntimeout, hup.timeouts]
    have hbody : ∃ r, cyclicBody d space memory cl (w.sysUntimeout d) = some r ∧
        Phase (if r.1 then r.2.sysTimeout d else r.2) d 0 := by
      rcases hup.connState with hst | hst <;> rw [cyclicBody, hst]
      · exact cyclicConnecting_phase hcur hup.active htime hup.pcb hn hup.conn hst memory
      · exact cyclicConnected_phase hcur hup.active htime hup.pcb hn hup.conn hst space memory
    obtain ⟨r, heq, h'⟩ := hbody
    refine ⟨_, ?_, h'⟩
    rw [mqttCyclicTimer, hcur.heap, Option.bind_eq_bind, Option.bind_some, heq]
    rfl

end MqttDevice.Lwip
