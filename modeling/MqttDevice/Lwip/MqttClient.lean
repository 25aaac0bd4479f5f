import MqttDevice.Lwip.Tcp

/-!
# The MQTT client over lwIP (`mqtt.c`, `mqtt_client.c`)

The functions of `mqtt.c` that connect, close and run a client, over the pcbs on
the active list, the pending `mqtt_cyclic_timer` timeouts and the heap of client
objects. A function that reads a client that is not on the heap, or goes
through a null pointer, has no result (`none`): what the program then does is
not defined.

Not modelled, since they change neither connections nor timers nor clients'
lifetimes: the output ring and the request queue, the bytes behind the messages
of a segment (a segment comes with the calls of `mqtt_message_received` that
`mqtt_parse_incoming` makes of it), and the payloads of PUBLISH messages.
-/

namespace MqttDevice.Lwip

def mqttCyclicTimerInterval : Nat := 5
def mqttConnectTimout : Nat := 100

/-- `client->conn_state`. -/
inductive ConnState where
  | tcpDisconnected
  | tcpConnecting
  | mqttConnecting
  | mqttConnected
  deriving DecidableEq, Repr

/-- `mqtt_connection_status_t`; of a CONNACK any byte is taken as a status. -/
inductive ConnStatus where
  | accepted
  | refused (code : Nat)
  | disconnected
  | timeout
  deriving DecidableEq, Repr

/-- `mqtt_client_t`; `inpub` says whether the callbacks for incoming messages
are set. All zero when it is allocated. -/
structure MqttClient where
  connState : ConnState := .tcpDisconnected
  conn : Option Nat := none
  cyclicTick : Nat := 0
  serverWatchdog : Nat := 0
  keepAlive : Nat := 0
  connectCb : Bool := false
  inpub : Bool := false
  deriving DecidableEq, Repr

/-- The state of the stack. A client is named by a number that is not used
again; `heap` has those that were allocated and not freed. `timeouts` are the
arguments of the pending `mqtt_cyclic_timer` timeouts. -/
structure Net where
  heap : Nat → Option MqttClient
  active : List TcpPcb
  timeouts : List Nat
  mqttClient : Option Nat
  nextPcb : Nat
  nextClient : Nat

namespace Net

def empty : Net := ⟨fun _ => none, [], [], none, 0, 0⟩

def pcb (w : Net) (id : Nat) : Option TcpPcb := w.active.find? fun p => p.id == id

/-- The pcb with this number becomes `q`, or is taken off the list. -/
def setPcb (w : Net) (id : Nat) (q : Option TcpPcb) : Net :=
  { w with active := w.active.flatMap fun p => if p.id = id then q.toList else [p] }

def setClient (w : Net) (c : Nat) (cl : MqttClient) : Net :=
  { w with heap := Function.update w.heap c (some cl) }

def free (w : Net) (c : Nat) : Net := { w with heap := Function.update w.heap c none }

/-- `sys_timeout` of `mqtt_cyclic_timer`. The pool has eight entries to spare. -/
def sysTimeout (w : Net) (c : Nat) : Net := { w with timeouts := w.timeouts ++ [c] }

/-- `sys_untimeout` of `mqtt_cyclic_timer`: the first match. -/
def sysUntimeout (w : Net) (c : Nat) : Net := { w with timeouts := w.timeouts.erase c }

end Net

/-! ## `mqtt_client.c`: the connection callback -/

/-- `mqtt_connection_cb`: `mqtt_set_inpub_callback` for the client that
`mqtt_client` points to. -/
def mqttConnectionCb (status : ConnStatus) (w : Net) : Option Net :=
  match status with
  | .accepted => do
    let g ← w.mqttClient
    let cl ← w.heap g
    some (w.setClient g { cl with inpub := true })
  | _ => some w

/-! ## Closing -/

/-- The part of `mqtt_close` for `client->conn`. -/
def closeConn (memory : Bool) (conn : Option Nat) (w : Net) : Option Net :=
  match conn with
  | none => some w
  | some id => do
    let p ← w.pcb id
    let (res, q) := tcpClose memory { p with recv := false, errf := false, sent := false }
    -- `altcp_abort`, without an error callback
    some (w.setPcb id (if res = .ok then q else none))

def mqttClose (c : Nat) (reason : ConnStatus) (memory : Bool) (w : Net) : Option Net := do
  let cl ← w.heap c
  let w ← closeConn memory cl.conn w
  let w := (w.setClient c { cl with conn := none }).sysUntimeout c
  if cl.connState ≠ .tcpDisconnected then
    let w := w.setClient c { cl with conn := none, connState := .tcpDisconnected }
    if cl.connectCb then mqttConnectionCb reason w else some w
  else some w

/-! ## The cyclic timer -/

/-- What `mqtt_cyclic_timer` does with a client that waits for the CONNACK. The
flag is `restart_timer`. -/
def cyclicConnecting (c : Nat) (memory : Bool) (cl : MqttClient) (w : Net) :
    Option (Bool × Net) :=
  let w := w.setClient c { cl with cyclicTick := cl.cyclicTick + 1 }
  if (cl.cyclicTick + 1) * mqttCyclicTimerInterval ≥ mqttConnectTimout then
    (mqttClose c .timeout memory w).map fun w => (false, w)
  else some (true, w)

/-- The part for the keep-alive message; `space` says whether a PINGREQ fits in
the output ring. -/
def keepAliveTick (space : Bool) (cl : MqttClient) : MqttClient :=
  if cl.cyclicTick * mqttCyclicTimerInterval ≥ cl.keepAlive then
    if space then { cl with cyclicTick := 0 } else cl
  else { cl with cyclicTick := cl.cyclicTick + 1 }

/-- With a client that is connected. -/
def cyclicConnected (c : Nat) (space memory : Bool) (cl : MqttClient) (w : Net) :
    Option (Bool × Net) :=
  if cl.keepAlive > 0 then
    let cl := { cl with serverWatchdog := cl.serverWatchdog + 1 }
    let w := w.setClient c cl
    if cl.serverWatchdog * mqttCyclicTimerInterval > cl.keepAlive + cl.keepAlive / 2 then do
      let w ← mqttClose c .timeout memory w
      let cl ← w.heap c
      some (false, w.setClient c (keepAliveTick space cl))
    else some (true, w.setClient c (keepAliveTick space cl))
  else some (true, w)

def cyclicBody (c : Nat) (space memory : Bool) (cl : MqttClient) (w : Net) :
    Option (Bool × Net) :=
  match cl.connState with
  | .mqttConnecting => cyclicConnecting c memory cl w
  | .mqttConnected => cyclicConnected c space memory cl w
  | _ => some (false, w)

/-- `mqtt_cyclic_timer`, taken off the list of timeouts by `sys_check_timeouts`. -/
def mqttCyclicTimer (c : Nat) (space memory : Bool) (w : Net) : Option Net := do
  let cl ← w.heap c
  let (restartTimer, w) ← cyclicBody c space memory cl w
  some (if restartTimer then w.sysTimeout c else w)

/-! ## Incoming messages -/

/-- One call of `mqtt_message_received`: a CONNACK with the length of what
follows its fixed header and its return code, or any other packet, accepted or
not. -/
inductive Message where
  | connack (length code : Nat)
  | other (accepted : Bool)

def mqttMessageReceived (c : Nat) (m : Message) (w : Net) : Option (ConnStatus × Net) :=
  match m with
  | .connack length code => do
    let cl ← w.heap c
    if cl.connState = .mqttConnecting then
      if length < 2 then some (.disconnected, w)
      else if code = 0 then
        let w := w.setClient c { cl with cyclicTick := 0, connState := .mqttConnected }
        let w ← (if cl.connectCb then mqttConnectionCb .accepted w else some w)
        some (.accepted, w)
      else some (.refused code, w)
    else some (.accepted, w)
  | .other accepted => some (if accepted then .accepted else .disconnected, w)

/-- The loop of `mqtt_parse_incoming`. The result of a packet without anything
behind its fixed header is not looked at. -/
def mqttParseIncoming (c : Nat) : List (Message × Bool) → Net → Option (ConnStatus × Net)
  | [], w => some (.accepted, w)
  | (m, checked) :: ms, w => do
    let (res, w) ← mqttMessageReceived c m w
    if checked ∧ res ≠ .accepted then some (res, w) else mqttParseIncoming c ms w

/-! ## The callbacks of a pcb -/

/-- `mqtt_tcp_recv_cb` with data in the pcb `id`. -/
def mqttTcpRecvCb (c id len : Nat) (ms : List (Message × Bool)) (memory : Bool) (w : Net) :
    Option Net := do
  let _ ← w.heap c
  let p ← w.pcb id
  let w := w.setPcb id (some (p.recved len))
  let (res, w) ← mqttParseIncoming c ms w
  let w ← (if res ≠ .accepted then mqttClose c res memory w else some w)
  let cl ← w.heap c
  some (if cl.keepAlive ≠ 0 then w.setClient c { cl with serverWatchdog := 0 } else w)

/-- `mqtt_tcp_recv_cb` without data: the peer has closed. -/
def mqttTcpClosedCb (c : Nat) (memory : Bool) (w : Net) : Option Net :=
  mqttClose c .disconnected memory w

def mqttTcpSentCb (c : Nat) (w : Net) : Option Net := do
  let cl ← w.heap c
  if cl.connState = .mqttConnected then
    some (w.setClient c { cl with cyclicTick := 0, serverWatchdog := 0 })
  else some w

def mqttTcpErrCb (c : Nat) (w : Net) : Option Net := do
  let cl ← w.heap c
  mqttClose c .disconnected true (w.setClient c { cl with conn := none })

/-- `mqtt_tcp_poll_cb` reads the client; it sends what is left in the output ring. -/
def mqttTcpPollCb (c : Nat) (w : Net) : Option Net := do
  let _ ← w.heap c
  some w

def mqttTcpConnectCb (c : Nat) (id : Nat) (w : Net) : Option Net := do
  let cl ← w.heap c
  let p ← w.pcb id
  let w := w.setPcb id (some { p with recv := true, sent := true, poll := true })
  some ((w.setClient c { cl with connState := .mqttConnecting, cyclicTick := 0 }).sysTimeout c)

/-! ## Connecting and disconnecting -/

/-- What `mqtt_example_init` finds: memory for a client, a pcb, and the results
of `tcp_bind` and `tcp_connect`. -/
structure InitEnv where
  memory : Bool := true
  pcb : Bool := true
  bind : ErrT := .ok
  connect : ErrT := .ok

/-- `mqtt_client_connect` with `mqtt_client_info`. The CONNECT message always
fits in the empty output ring; a failed connect leaves no pcb behind. -/
def mqttClientConnect (c : Nat) (env : InitEnv) (w : Net) : Option Net := do
  let cl ← w.heap c
  if cl.connState ≠ .tcpDisconnected then some w
  else
    let cl : MqttClient := { connectCb := true, keepAlive := 10 }
    if env.pcb && env.bind = .ok && env.connect = .ok then
      let p : TcpPcb :=
        { id := w.nextPcb, state := .synSent, callbackArg := some c, connected := true
          errf := true }
      let w := { w with active := p :: w.active, nextPcb := w.nextPcb + 1 }
      some (w.setClient c { cl with conn := some p.id, connState := .tcpConnecting })
    else some (w.setClient c cl)

def mqttDisconnect (c : Nat) (memory : Bool) (w : Net) : Option Net := do
  let cl ← w.heap c
  if cl.connState ≠ .tcpDisconnected then
    mqttClose c .accepted memory (w.setClient c { cl with connState := .tcpDisconnected })
  else some w

/-- `mqtt_client_new`. -/
def mqttClientNew (memory : Bool) (w : Net) : Option Nat × Net :=
  if memory then
    (some w.nextClient, { w.setClient w.nextClient {} with nextClient := w.nextClient + 1 })
  else (none, w)

/-- `mqtt_example_init`. Without memory `mqtt_client_connect` is called with the
null pointer; that call is left out, and the state has a null `mqtt_client`. -/
def mqttExampleInit (env : InitEnv) (w : Net) : Option Net :=
  let (client, w) := mqttClientNew env.memory w
  let w := { w with mqttClient := client }
  match client with
  | none => some w
  | some c => mqttClientConnect c env w

def mqttClientIsConnected (c : Nat) (w : Net) : Option Bool := do
  let cl ← w.heap c
  some (cl.connState = .mqttConnected)

end MqttDevice.Lwip
