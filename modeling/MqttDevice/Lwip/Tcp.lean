import Mathlib.Tactic

/-!
# Connections of lwIP (`tcp.c`, `tcp_in.c`)

A `tcp_pcb` is reduced to what decides which callbacks lwIP may make and with
which argument: the state, the callback slots, the two close flags and the bytes
that the application has not taken yet. Which segments arrive, what they
acknowledge and when a timer gives up is left to the environment. Of the
callback slots it is known that only `mqtt.c` fills them.

* `tcpClose`: where `tcp_close` leaves a connection;
* `tcpProcess`: the states through which the peer takes it.
-/

namespace MqttDevice.Lwip

/-- `err_t`, as far as it is told apart. -/
inductive ErrT where
  | ok
  | mem
  | other
  deriving DecidableEq, Repr

inductive TcpState where
  | closed
  | listen
  | synSent
  | synRcvd
  | established
  | finWait1
  | finWait2
  | closeWait
  | closing
  | lastAck
  | timeWait
  deriving DecidableEq, Repr

/-- `struct tcp_pcb`. An object is named by a number that is not used again.
A slot is set when it holds a function of `mqtt.c`; else it is `NULL` or
`tcp_recv_null`. `unread` is `TCP_WND_MAX - rcv_wnd`. -/
structure TcpPcb where
  id : Nat
  state : TcpState := .closed
  callbackArg : Option Nat := none
  connected : Bool := false
  recv : Bool := false
  sent : Bool := false
  poll : Bool := false
  errf : Bool := false
  rxClosed : Bool := false
  closePend : Bool := false
  unread : Nat := 0
  deriving DecidableEq, Repr

/-- lwIP may still call a function of `mqtt.c` for this pcb. The connected
callback is made when a pcb leaves `SYN_SENT` and never again. -/
def TcpPcb.mayCall (p : TcpPcb) : Bool :=
  p.recv || p.sent || p.poll || p.errf || (p.connected && p.state == .synSent)

/-! ## Closing -/

/-- The result of `tcp_send_fin`: the FIN is queued if there is memory for it. -/
def tcpSendFin (memory : Bool) : ErrT := if memory then .ok else .mem

def tcpCloseShutdownFin (memory : Bool) (p : TcpPcb) : ErrT × TcpPcb :=
  match p.state with
  | .synRcvd | .established => finish { p with state := .finWait1 }
  | .closeWait => finish { p with state := .lastAck }
  | _ => (.ok, p)
where
  /-- The end of the function, for a pcb that goes to `q` if the FIN could be queued. -/
  finish (q : TcpPcb) : ErrT × TcpPcb :=
    match tcpSendFin memory with
    | .ok => (.ok, q)
    | .mem => (.ok, { p with closePend := true })
    | err => (err, p)

/-- `tcp_close_shutdown`: the pcb afterwards, `none` when it was taken off its
list and freed. -/
def tcpCloseShutdown (rstOnUnackedData memory : Bool) (p : TcpPcb) : ErrT × Option TcpPcb :=
  if rstOnUnackedData && (p.state == .established || p.state == .closeWait) && p.unread != 0 then
    (.ok, none)
  else
    match p.state with
    | .closed | .listen | .synSent => (.ok, none)
    | _ =>
      let (err, p) := tcpCloseShutdownFin memory p
      (err, some p)

def tcpClose (memory : Bool) (p : TcpPcb) : ErrT × Option TcpPcb :=
  tcpCloseShutdown true memory (if p.state = .listen then p else { p with rxClosed := true })

/-! ## Segments -/

/-- A segment that `tcp_process` accepts in a synchronized state: it may
acknowledge data (`recv_acked > 0`), carry `len` bytes in order, carry a FIN, and
acknowledge all that was sent, the FIN included. -/
structure Segment where
  acked : Bool := false
  len : Nat := 0
  fin : Bool := false
  allAcked : Bool := false

def TcpPcb.recved (p : TcpPcb) (len : Nat) : TcpPcb := { p with unread := p.unread - len }

/-- `tcp_process` in a synchronized state, after `tcp_receive`. -/
def tcpProcess (seg : Segment) (p : TcpPcb) : TcpPcb :=
  let p := { p with unread := p.unread + seg.len + seg.fin.toNat }
  match p.state with
  | .established | .closeWait => if seg.fin then { p with state := .closeWait } else p
  | .finWait1 =>
    if seg.fin then { p with state := if seg.allAcked then .timeWait else .closing }
    else if seg.allAcked then { p with state := .finWait2 } else p
  | .finWait2 => if seg.fin then { p with state := .timeWait } else p
  | .closing => if seg.allAcked then { p with state := .timeWait } else p
  | _ => p

/-- `TF_CLOSED`: the FIN that was sent in `CLOSE_WAIT` is acknowledged. -/
def Segment.closes (seg : Segment) (p : TcpPcb) : Bool := p.state == .lastAck && seg.allAcked

/-- A segment moves the state and the window of a pcb. -/
theorem tcpProcess_eq (seg : Segment) (p : TcpPcb) :
    tcpProcess seg p = { p with
      state := (tcpProcess seg p).state, unread := p.unread + seg.len + seg.fin.toNat } := by
  simp only [tcpProcess]
  split <;> repeat' split
  all_goals rfl

/-- A connection never goes back to `SYN_SENT`. -/
theorem tcpProcess_state {seg : Segment} {p : TcpPcb} (h : p.state ≠ .synSent) :
    (tcpProcess seg p).state ≠ .synSent := by
  simp only [tcpProcess]
  split <;> repeat' split
  all_goals first | exact h | simp

/-! ## What closing leaves -/

/-- The callbacks of a pcb and their argument. -/
structure SameSlots (p q : TcpPcb) : Prop where
  id : q.id = p.id
  callbackArg : q.callbackArg = p.callbackArg
  recv : q.recv = p.recv
  sent : q.sent = p.sent
  poll : q.poll = p.poll
  errf : q.errf = p.errf
  rxClosed : q.rxClosed = p.rxClosed

theorem tcpCloseShutdownFin_spec (memory : Bool) (p : TcpPcb) :
    (tcpCloseShutdownFin memory p).1 = .ok ∧ SameSlots p (tcpCloseShutdownFin memory p).2 ∧
      (p.state ≠ .synSent → (tcpCloseShutdownFin memory p).2.state ≠ .synSent) := by
  cases memory <;> unfold tcpCloseShutdownFin tcpCloseShutdownFin.finish <;> split <;>
    exact ⟨rfl, ⟨rfl, rfl, rfl, rfl, rfl, rfl, rfl⟩, by simp [tcpSendFin]⟩

theorem tcpClose_ok (memory : Bool) (p : TcpPcb) : (tcpClose memory p).1 = .ok := by
  have h (rst : Bool) (q : TcpPcb) : (tcpCloseShutdown rst memory q).1 = .ok := by
    rw [tcpCloseShutdown]
    split
    · rfl
    · cases q.state <;> first | rfl | exact (tcpCloseShutdownFin_spec memory q).1
  exact h true _

/-- An open connection stays on the list when it is closed, with `TF_RXCLOSED` set,
unless data was not taken. -/
theorem tcpClose_open (memory : Bool) {p : TcpPcb}
    (h : p.state = .established ∨ p.state = .closeWait) :
    (p.unread ≠ 0 ∧ (tcpClose memory p).2 = none) ∨
      (p.unread = 0 ∧ ∃ q, (tcpClose memory p).2 = some q ∧
        SameSlots { p with rxClosed := true } q ∧ q.state ≠ .synSent) := by
  have hspec := tcpCloseShutdownFin_spec memory { p with rxClosed := true }
  by_cases hn : p.unread = 0
  · right
    refine ⟨hn, (tcpCloseShutdownFin memory { p with rxClosed := true }).2, ?_, hspec.2.1, ?_⟩
    · rcases h with h | h <;> simp [tcpClose, tcpCloseShutdown, h, hn]
    · rcases h with h | h <;> exact hspec.2.2 (by simp [h])
  · left
    refine ⟨hn, ?_⟩
    rcases h with h | h <;> simp [tcpClose, tcpCloseShutdown, h, hn]

/-- A connection that is not up yet is given up. -/
theorem tcpClose_synSent (memory : Bool) {p : TcpPcb} (h : p.state = .synSent) :
    (tcpClose memory p).2 = none := by
  simp [tcpClose, tcpCloseShutdown, h]

end MqttDevice.Lwip
