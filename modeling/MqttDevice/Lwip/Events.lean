import MqttDevice.Lwip.MqttClient

/-!
# What reaches the MQTT client from lwIP (`tcp_input`, `tcp_slowtmr`, `sys_check_timeouts`)

An event is a segment, a timer of the stack or the end of a connection, for one
pcb of the active list, or the expiry of a `mqtt_cyclic_timer`. Each of them makes
the callbacks that the source makes, in its order.
-/

namespace MqttDevice.Lwip

/-- A callback slot of a pcb: nothing, or a call with the pcb's argument. -/
def TcpPcb.callback (p : TcpPcb) (slot : Bool) (f : Nat → Net → Option Net) (w : Net) :
    Option Net :=
  if slot then p.callbackArg.bind fun c => f c w else some w

theorem TcpPcb.callback_of {p : TcpPcb} {slot : Bool} {c : Nat} (h : slot = true)
    (harg : p.callbackArg = some c) (f : Nat → Net → Option Net) (w : Net) :
    p.callback slot f w = f c w := by
  simp [callback, h, harg]

/-- `TCP_EVENT_ERR`. -/
def tcpEventErr (p : TcpPcb) : Net → Option Net := p.callback p.errf mqttTcpErrCb

/-- The rest of `tcp_input` for received data. -/
def tcpInputData (id len : Nat) (ms : List (Message × Bool)) (memory : Bool) (w : Net) :
    Option Net :=
  match w.pcb id with
  | none => some w
  | some p =>
    if len = 0 then some w
    else if p.rxClosed then tcpEventErr p (w.setPcb id none)
    else if p.recv then
      p.callback p.recv (fun c => mqttTcpRecvCb c id len ms memory) w
    else some (w.setPcb id (some (p.recved len)))

/-- The rest of `tcp_input` for a FIN. The slot `recv` of a pcb that got so far
holds `mqtt_tcp_recv_cb` or `NULL`. -/
def tcpInputFin (id : Nat) (memory : Bool) (w : Net) : Option Net :=
  match w.pcb id with
  | none => some w
  | some p =>
    p.callback p.recv (fun c => mqttTcpClosedCb c memory) (w.setPcb id (some (p.recved 1)))

/-- `tcp_input` for a segment in a synchronized state. A pcb in `TIME_WAIT` is
off the active list; of its callbacks only `poll` can still be set. -/
def tcpInput (p : TcpPcb) (seg : Segment) (ms : List (Message × Bool)) (memory : Bool) (w : Net) :
    Option Net := do
  let q := tcpProcess seg p
  let w := w.setPcb p.id (if q.state = .timeWait then none else some q)
  let w ← (if seg.acked then q.callback q.sent mqttTcpSentCb w else some w)
  if seg.closes p then
    let w ← (if q.rxClosed then some w else tcpEventErr q w)
    some (w.setPcb p.id none)
  else
    let w ← tcpInputData p.id seg.len ms memory w
    if seg.fin then tcpInputFin p.id memory w else some w

/-- What happens to a pcb of the active list. -/
inductive TcpEvent where
  /-- The SYN|ACK of the server. -/
  | synAck
  /-- A segment, the calls of `mqtt_message_received` made of its data, and the
  result of `tcp_send_fin` should the connection be closed. -/
  | segment (seg : Segment) (ms : List (Message × Bool)) (memory : Bool)
  /-- An acceptable RST. -/
  | reset
  /-- `tcp_slowtmr` gives the connection up, or `tcp_alloc` needs the pcb. -/
  | remove
  /-- `tcp_slowtmr` polls the application. -/
  | poll
  /-- `tcp_fasttmr` tries again to send a FIN. -/
  | closePend (memory : Bool)

/-- The states in which an event can happen. -/
def TcpEvent.enabled (p : TcpPcb) : TcpEvent → Bool
  | .synAck => p.state == .synSent
  | .segment _ _ _ => p.state != .synSent
  | .closePend _ => p.closePend
  | _ => true

def tcpEvent (p : TcpPcb) (w : Net) : TcpEvent → Option Net
  | .synAck =>
    p.callback p.connected (fun c => mqttTcpConnectCb c p.id)
      (w.setPcb p.id (some { p with state := .established }))
  | .segment seg ms memory => tcpInput p seg ms memory w
  | .reset => (tcpEventErr p w).map fun w => w.setPcb p.id none
  | .remove => tcpEventErr p (w.setPcb p.id none)
  | .poll => p.callback p.poll mqttTcpPollCb w
  | .closePend memory =>
    some (w.setPcb p.id (some (tcpCloseShutdownFin memory { p with closePend := false }).2))

end MqttDevice.Lwip
