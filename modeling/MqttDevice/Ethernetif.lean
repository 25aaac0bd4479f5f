import MqttDevice.Enc28j60.Send
import MqttDevice.Lib.Runs

/-!
# The network interface (`ethernetif.c`): output

`low_level_output` gathers the segments of a pbuf chain in `lwip_buf` and hands
them to `ENC28J60_Packet_Send`.

* `gather_flatten`: what is handed over is the chain;
* `output_in_area_iff`: a frame, with its control byte and its status vector,
  stays in the transmit area if and only if it has at most 1511 bytes;
* `output_delivered`: along every run whose calls find the transmitter at rest,
  nothing is written under a transmission and every frame gets out once, in
  order and unchanged;
* `output_overwrites`: the driver does not wait, so two calls in a row are enough
  to break it.
-/

namespace MqttDevice.Ethernetif

open MqttDevice.Ascii MqttDevice.Ring MqttDevice.Runs MqttDevice.Enc28j60
open MqttDevice.Enc28j60.Core (memSize)

/-! ## `low_level_output` -/

/-- The `memcpy` calls of `low_level_output`: `lwip_buf` and `send_len`. -/
def gather : List (List Byte) → Nat → (Nat → Byte) → (Nat → Byte) × Nat
  | [], sendLen, lwipBuf => (lwipBuf, sendLen)
  | q :: qs, sendLen, lwipBuf => gather qs (sendLen + q.length) (putAt lwipBuf sendLen q)

def errOk : Int := 0

/-- `low_level_output` for the payloads of a pbuf chain. -/
def lowLevelOutput (env : Env) (p : List (List Byte)) (lwipBuf : Nat → Byte) (d : Dev) :
    Int × (Nat → Byte) × Dev :=
  let (lwipBuf, sendLen) := gather p 0 lwipBuf
  (errOk, lwipBuf, packetSend env ((List.range sendLen).map lwipBuf) d)

/-- The longest frame that lwIP passes down: `netif->mtu`, which
`low_level_init` sets to `MAX_FRAMELEN`, and the Ethernet header. -/
def maxOutput : Nat := maxFramelen + 14

theorem map_putAt (buf : Nat → Byte) (n : Nat) (q : List Byte) :
    (List.range (n + q.length)).map (putAt buf n q) = (List.range n).map buf ++ q := by
  induction q generalizing buf n with
  | nil => simp [putAt]
  | cons b q ih =>
    rw [List.length_cons, putAt, ← Nat.add_assoc, Nat.add_right_comm, ih, List.range_succ,
      List.map_append, List.append_assoc]
    congr 1
    · refine List.map_congr_left fun j hj => Function.update_of_ne ?_ _ _
      exact Nat.ne_of_lt (List.mem_range.mp hj)
    · simp

theorem gather_spec (p : List (List Byte)) (n : Nat) (buf : Nat → Byte) :
    (List.range (gather p n buf).2).map (gather p n buf).1 =
      (List.range n).map buf ++ p.flatten := by
  induction p generalizing n buf with
  | nil => simp [gather]
  | cons q p ih => rw [gather, ih, map_putAt, List.flatten_cons, List.append_assoc]

/-- `ENC28J60_Packet_Send` gets the concatenated segments. -/
theorem gather_flatten (p : List (List Byte)) (buf : Nat → Byte) :
    (List.range (gather p 0 buf).2).map (gather p 0 buf).1 = p.flatten := by
  rw [gather_spec, List.range_zero, List.map_nil, List.nil_append]

theorem lowLevelOutput_dev (env : Env) (p : List (List Byte)) (lwipBuf : Nat → Byte) (d : Dev) :
    (lowLevelOutput env p lwipBuf d).2.2 = packetSend env p.flatten d := by
  show packetSend env _ d = _
  rw [gather_flatten]

def mymac : Fin 6 → Byte := ![0x04, 0x02, 0x35, 0x00, 0x00, 0x01]

/-- The transmitter takes no byte. -/
def slowEnv : Env := fun _ => []

def started : Dev := (init readyEnv mymac powerUp).2

theorem init_ready : (init readyEnv mymac powerUp).1 = 0 := by decide +kernel

theorem started_txReady : TxReady started := by
  rcases init_spec readyEnv mymac powerUp with ⟨-, h⟩ | ⟨h, -⟩
  · exact h.txReady
  · exact absurd (init_ready.symm.trans h) (by decide)

/-! ## The transmit area -/

/-- What a frame of `len` bytes, sent from `d`, may do to the chip: all cells
written lie in the transmit area, the receive ring stays, `ETXND` is exact. -/
structure InArea (d : Dev) (c : Core) (len : Nat) : Prop where
  cells : ∀ w ∈ c.log.drop d.chip.core.log.length, ∀ a, w.cell = some a →
    txstartInit ≤ a ∧ a ≤ txstopInit
  ring : ∀ a ≤ rxstopInit, c.mem a = d.chip.core.mem a
  etxnd : c.ptr etxndl etxndh = txstartInit + len

/-- A call of `ENC28J60_Packet_Send` and any work of the transmitter after it, in
terms of the loaded frame. -/
theorem packetSend_fetches (env : Env) {d : Dev} (h : TxReady d) {packet : List Byte}
    (hfit : packet.length < memSize) (ss : List (Fin 7 → Byte)) :
    ∃ (c x : Core) (ss₀ : List (Fin 7 → Byte)), d.chip.core.Rebanked c ∧
      x = (c.loaded packet).request ∧ x.Sending packet ∧
      (packetSend env packet d).chip.core.fetches ss = x.fetches (ss₀ ++ ss) := by
  obtain ⟨c, ss₀, hr, hcore, -⟩ := packetSend_spec env packet h
  have htx : c.txrts = false := hr.txrts.trans h.idle
  have hst : c.ptr etxstl etxsth = txstartInit :=
    (Core.ptr_congr (hr.reg etxstl (by decide)) (hr.reg etxsth (by decide))).trans h.etxst
  refine ⟨c, _, ss₀, hr, rfl, Core.request_sending packet htx hst hfit, ?_⟩
  rw [hcore, Core.fetches_append]

/-- What the driver has written when the frame is handed over. -/
theorem request_log {d : Dev} (h : TxReady d) {c : Core} (hr : d.chip.core.Rebanked c)
    (packet : List Byte) :
    ∃ l, (c.loaded packet).request.log = d.chip.core.log ++ l ∧
      ∀ w ∈ l, (∃ a, w = Write.reg a false) ∨
        ∃ j ≤ packet.length, w = Write.buf ((txstartInit + j) % memSize) false := by
  have htx : c.txrts = false := hr.txrts.trans h.idle
  obtain ⟨l₀, hl₀, hw₀⟩ := hr.log
  obtain ⟨-, -, -, hlog, -⟩ := c.loaded_spec packet
  obtain ⟨-, -, -, -, hreq⟩ :=
    Core.request_spec (c.loaded packet) ((c.loaded_txrts packet).trans htx)
  rw [hreq, hlog, hl₀]
  simp only [List.append_assoc]
  refine ⟨_, rfl, fun w hw => ?_⟩
  have hidle : d.chip.core.txrts = false := h.idle
  simp only [List.mem_append, List.mem_map, List.mem_range, List.mem_cons, List.not_mem_nil,
    or_false, htx] at hw
  rcases hw with hw | ⟨rfl | rfl | rfl | rfl⟩ | ⟨j, hj, rfl⟩ | rfl
  · exact .inl ⟨econ1, by rw [hw₀ w hw, hidle]⟩
  · exact .inl ⟨_, rfl⟩
  · exact .inl ⟨_, rfl⟩
  · exact .inl ⟨_, rfl⟩
  · exact .inl ⟨_, rfl⟩
  · exact .inr ⟨j, Nat.le_of_lt_succ hj, rfl⟩
  · exact .inl ⟨_, rfl⟩

theorem sizes : txstartInit = 6673 ∧ txstopInit = 8191 ∧ rxstopInit = 6672 ∧ memSize = 8192 :=
  ⟨rfl, rfl, rfl, rfl⟩

/-- Cells of the transmit area. -/
theorem txCell_of_le {j : Nat} (h : j ≤ txstopInit - txstartInit) :
    (txstartInit + j) % memSize = txstartInit + j ∧
      txstartInit ≤ txstartInit + j ∧ txstartInit + j ≤ txstopInit := by
  obtain ⟨h1, h2, -, h4⟩ := sizes
  exact ⟨Nat.mod_eq_of_lt (by omega), Nat.le_add_right _ _, by omega⟩

/-- The frames that fit, with the status vector behind them. -/
theorem inArea_of_le (env : Env) {d : Dev} (h : TxReady d) {packet : List Byte}
    (hlen : packet.length ≤ txstopInit - txstartInit - 7) (ss : List (Fin 7 → Byte)) :
    InArea d ((packetSend env packet d).chip.core.fetches ss) packet.length := by
  obtain ⟨h1, h2, h3, h4⟩ := sizes
  obtain ⟨c, x, ss₀, hr, rfl, hsend, heq⟩ :=
    packetSend_fetches env h (show packet.length < memSize by omega) ss
  obtain ⟨l, hl, hw⟩ := request_log h hr packet
  obtain ⟨hmem, -⟩ := c.loaded_spec packet
  have hring : ∀ a ≤ rxstopInit, (c.loaded packet).request.mem a = d.chip.core.mem a := by
    intro a ha
    show (c.loaded packet).mem a = _
    rw [hmem, ← hr.mem]
    refine store_of_forall_ne _ _ _ fun j hj => ?_
    rw [List.length_cons] at hj
    rw [(txCell_of_le (by omega)).1]
    omega
  have hcells : ∀ w ∈ l, ∀ a, w.cell = some a → txstartInit ≤ a ∧ a ≤ txstopInit := by
    intro w hwl a ha
    rcases hw w hwl with ⟨r, rfl⟩ | ⟨j, hj, rfl⟩
    · cases ha
    · cases ha
      obtain ⟨hj', hin⟩ := txCell_of_le (j := j) (by omega)
      rwa [hj']
  have hstatus : ∀ i < 7, (txstartInit + packet.length + 1 + i) % memSize =
      txstartInit + (packet.length + 1 + i) := by
    intro i hi
    rw [← (txCell_of_le (j := packet.length + 1 + i) (by omega)).1]
    simp only [Nat.add_assoc]
  have hend : (c.loaded packet).request.ptr etxndl etxndh = txstartInit + packet.length := by
    rw [hsend.etxnd, (txCell_of_le (by omega)).1]
  have hnd (ts : List (Fin 7 → Byte)) :
      ((c.loaded packet).request.fetches ts).ptr etxndl etxndh = txstartInit + packet.length :=
    (Core.ptr_congr (Core.fetches_reg _ ts (by decide) (by decide))
      (Core.fetches_reg _ ts (by decide) (by decide))).trans hend
  rw [heq]
  rcases hsend.fetches (ss₀ ++ ss) with ⟨-, -, hlog', hmem', -⟩ | ⟨hsent, -⟩
  · refine ⟨?_, fun a ha => by rw [hmem', hring a ha], hnd _⟩
    rw [hlog', hl, List.drop_left]
    exact hcells
  · refine ⟨?_, fun a ha => ?_, hnd _⟩
    · rw [hsent.log, hl, List.append_assoc, List.drop_left]
      intro w hwl a ha
      rcases List.mem_append.mp hwl with hwl | hwl
      · exact hcells w hwl a ha
      · obtain ⟨i, hi, rfl⟩ := List.mem_map.mp hwl
        have hi := List.mem_range.mp hi
        cases ha
        rw [hstatus i hi]
        exact (txCell_of_le (by omega)).2
    · have hne : ∀ i < 7, a ≠ (txstartInit + packet.length + 1 + i) % memSize := by
        intro i hi
        rw [hstatus i hi]
        omega
      rw [hsent.mem a hne, hring a ha]

/-- Of a longer frame the status vector ends in the receive ring. -/
theorem not_inArea_of_lt (env : Env) {d : Dev} (h : TxReady d) {packet : List Byte}
    (hlen : txstopInit - txstartInit - 7 < packet.length) (hmax : packet.length ≤ maxOutput) :
    ¬ ∀ ss, InArea d ((packetSend env packet d).chip.core.fetches ss) packet.length := by
  obtain ⟨h1, h2, h3, h4⟩ := sizes
  have hmax' : packet.length ≤ 1532 := hmax
  intro hall
  let status : Fin 7 → Byte := fun _ => 0
  let ss := List.replicate (packet.length + 1) status
  obtain ⟨c, x, ss₀, hr, rfl, hsend, heq⟩ :=
    packetSend_fetches env h (show packet.length < memSize by omega) ss
  obtain ⟨l, hl, -⟩ := request_log h hr packet
  rcases hsend.fetches (ss₀ ++ ss) with ⟨-, -, -, -, hshort⟩ | ⟨hsent, -⟩
  · simp only [ss, List.length_append, List.length_replicate] at hshort
    omega
  · have hcells := (hall ss).cells
    rw [heq, hsent.log, hl, List.append_assoc, List.drop_left] at hcells
    have hlast := hcells (Write.status ((txstartInit + packet.length + 1 + 6) % memSize))
      (List.mem_append_right _ (List.mem_map.mpr ⟨6, by decide, rfl⟩)) _ rfl
    have hwrap : (txstartInit + packet.length + 1 + 6) % memSize < txstartInit := by
      simp only [txstartInit, memSize]
      omega
    exact absurd hlast.1 (Nat.not_le_of_lt hwrap)

/-- **When the transmit area holds a frame.** -/
theorem output_in_area_iff (env : Env) (p : List (List Byte)) (lwipBuf : Nat → Byte) {d : Dev}
    (h : TxReady d) (hmax : p.flatten.length ≤ maxOutput) :
    (∀ ss, InArea d ((lowLevelOutput env p lwipBuf d).2.2.chip.core.fetches ss)
        p.flatten.length) ↔
      p.flatten.length ≤ txstopInit - txstartInit - 7 := by
  rw [lowLevelOutput_dev]
  constructor
  · intro hall
    by_contra hlong
    exact not_inArea_of_lt env h (Nat.lt_of_not_le hlong) hmax hall
  · exact fun hlen ss => inArea_of_le env h hlen ss

theorem output_in_area_sixty :
    (List.replicate 60 (0 : Byte)).length ≤ maxOutput ∧
      ∀ ss, InArea started ((lowLevelOutput slowEnv [List.replicate 14 0, List.replicate 46 0]
        (fun _ => 0) started).2.2.chip.core.fetches ss) 60 :=
  ⟨by decide, (output_in_area_iff slowEnv [List.replicate 14 0, List.replicate 46 0] (fun _ => 0)
    started_txReady (by decide)).mpr (by decide)⟩

/-- The echo reply to a ping with 1472 bytes of data, 1514 bytes on the wire,
reaches into the receive ring. -/
theorem output_leaves_area :
    (List.replicate 1514 (0 : Byte)).length ≤ maxOutput ∧
      ¬ ∀ ss, InArea started ((lowLevelOutput slowEnv [List.replicate 1514 0] (fun _ => 0)
        started).2.2.chip.core.fetches ss) 1514 := by
  have hlen : (List.replicate 1514 (0 : Byte)).length = 1514 := List.length_replicate
  refine ⟨by rw [hlen]; decide, ?_⟩
  have hflat : [List.replicate 1514 (0 : Byte)].flatten = List.replicate 1514 0 := by
    rw [List.flatten_cons, List.flatten_nil, List.append_nil]
  rw [lowLevelOutput_dev, hflat]
  have h := @not_inArea_of_lt slowEnv _ started_txReady (List.replicate 1514 0)
    (by rw [hlen]; decide) (by rw [hlen]; decide)
  rwa [hlen] at h

/-! ## Runs of output -/

/-- The device, `lwip_buf` and the frames for which `low_level_output` returned
`ERR_OK`. -/
structure TxState where
  dev : Dev
  lwipBuf : Nat → Byte
  sent : List (List Byte)

/-- A call of `low_level_output`, with what the chip does during the call, or
something the chip does between two calls. -/
inductive TxEvent where
  | output (env : Env) (p : List (List Byte))
  | chip (e : ChipEvent)

def txStep (s : TxState) : TxEvent → Option TxState
  | .output env p =>
    if p.flatten.length ≤ maxOutput then
      let (err, lwipBuf, dev) := lowLevelOutput env p s.lwipBuf s.dev
      some ⟨dev, lwipBuf, if err = errOk then s.sent ++ [p.flatten] else s.sent⟩
    else none
  | .chip e => some { s with dev := { s.dev with chip := s.dev.chip.event e } }

/-- The wire with the frames handed over since it read `wire`: no write of the
step from `s` to `t` went where the transmitter was at work, and left alone the
chip brings every frame out, once, in order and as it was handed over. -/
structure Delivered (wire : List (List Byte)) (s t : TxState) : Prop where
  undisturbed : ∀ w ∈ t.dev.chip.core.log.drop s.dev.chip.core.log.length, w.clobbers = false
  wire : ∀ ss, memSize ≤ ss.length → (t.dev.chip.core.fetches ss).wire = wire ++ t.sent

/-- `TXRTS` is clear when `low_level_output` is called. -/
def AtRest (s : TxState) : TxEvent → TxState → Prop
  | .output _ _, _ => s.dev.Idle
  | .chip _, _ => True

/-- The chip between two steps: of the frames `sent` since the wire read `wire`
all but perhaps the last are out, and that one is on its way. -/
structure OnWire (wire sent : List (List Byte)) (c : Core) : Prop where
  etxst : c.ptr etxstl etxsth = txstartInit
  txerif : c.reg eir &&& eirTxerif = 0
  frames : (c.txrts = false ∧ c.wire = wire ++ sent) ∨
    ∃ out frame, sent = out ++ [frame] ∧ c.Sending frame ∧ c.wire = wire ++ out

/-- Steps of the transmitter keep this. -/
theorem OnWire.fetches {wire sent : List (List Byte)} {c : Core} (h : OnWire wire sent c)
    (ss : List (Fin 7 → Byte)) : OnWire wire sent (c.fetches ss) := by
  refine ⟨?_, ?_, ?_⟩
  · rw [Core.ptr_congr (Core.fetches_reg _ ss (by decide) (by decide))
      (Core.fetches_reg _ ss (by decide) (by decide)), h.etxst]
  · rw [(Core.fetches_flags _ ss).2, h.txerif]
  · rcases h.frames with ⟨hidle, hwire⟩ | ⟨out, frame, hs, hsend, hwire⟩
    · left
      rw [Core.fetches_idle hidle]
      exact ⟨hidle, hwire⟩
    · rcases hsend.fetches ss with ⟨hsend', hwire', -⟩ | ⟨hsent, -⟩
      · exact .inr ⟨out, frame, hs, hsend', hwire'.trans hwire⟩
      · left
        refine ⟨hsent.txrts, ?_⟩
        rw [hsent.wire, hwire, hs, List.append_assoc]

/-- All frames get out. -/
theorem OnWire.delivers {wire sent : List (List Byte)} {c : Core} (h : OnWire wire sent c)
    (ss : List (Fin 7 → Byte)) (hss : memSize ≤ ss.length) :
    (c.fetches ss).wire = wire ++ sent := by
  rcases h.frames with ⟨hidle, hwire⟩ | ⟨out, frame, hs, hsend, hwire⟩
  · rw [Core.fetches_idle hidle, hwire]
  · rcases hsend.fetches ss with ⟨-, -, -, -, hshort⟩ | ⟨hsent, -⟩
    · exact absurd hsend.fits (by omega)
    · rw [hsent.wire, hwire, hs, List.append_assoc]

/-- A frame handed over to a chip at rest. -/
theorem OnWire.request {wire sent : List (List Byte)} {c₀ c : Core} (h : OnWire wire sent c₀)
    (hidle : c₀.txrts = false) (hr : c₀.Rebanked c) {packet : List Byte}
    (hsend : (c.loaded packet).request.Sending packet) :
    OnWire wire (sent ++ [packet]) (c.loaded packet).request := by
  have hwire : c₀.wire = wire ++ sent := by
    rcases h.frames with ⟨-, hwire⟩ | ⟨_, _, _, hbusy, _⟩
    · exact hwire
    · exact absurd (hidle.symm.trans hbusy.txrts) Bool.false_ne_true
  obtain ⟨-, -, hwire', -, hreg, -⟩ := c.loaded_spec packet
  refine ⟨hsend.etxst, ?_, .inr ⟨sent, packet, rfl, hsend, ?_⟩⟩
  · rw [Core.request_reg _ (by decide), hreg eir (by decide), hr.reg eir (by decide), h.txerif]
  · rw [← hwire, ← hr.wire, ← hwire']
    rfl

/-- The invariant of a run. -/
def TxInv (wire : List (List Byte)) (s : TxState) : Prop :=
  s.dev.Coherent ∧ OnWire wire s.sent s.dev.chip.core

/-- What is logged during a call that finds the transmitter at rest. -/
theorem output_undisturbed (env : Env) {d : Dev} (h : TxReady d) {packet : List Byte}
    (hfit : packet.length < memSize) :
    ∀ w ∈ (packetSend env packet d).chip.core.log.drop d.chip.core.log.length,
      w.clobbers = false := by
  obtain ⟨c, x, ss₀, hr, rfl, -, heq⟩ := packetSend_fetches env h hfit []
  obtain ⟨l, hl, hw⟩ := request_log h hr packet
  obtain ⟨l', hl', hw'⟩ := Core.fetches_log (c.loaded packet).request (ss₀ ++ [])
  intro w hwl
  rw [Core.fetches_nil] at heq
  rw [heq, hl', hl, List.append_assoc, List.drop_left] at hwl
  rcases List.mem_append.mp hwl with hwl | hwl
  · rcases hw w hwl with ⟨a, rfl⟩ | ⟨j, -, rfl⟩ <;> rfl
  · obtain ⟨a, rfl⟩ := hw' w hwl
    rfl

theorem txStep_output (s : TxState) (env : Env) {p : List (List Byte)}
    (hmax : p.flatten.length ≤ maxOutput) :
    txStep s (.output env p) =
      some ⟨packetSend env p.flatten s.dev, (gather p 0 s.lwipBuf).1,
        s.sent ++ [p.flatten]⟩ := by
  rw [txStep, if_pos hmax, ← lowLevelOutput_dev env p s.lwipBuf s.dev]
  rfl

theorem txStep_output_le {s t : TxState} {env : Env} {p : List (List Byte)}
    (hs : txStep s (.output env p) = some t) : p.flatten.length ≤ maxOutput := by
  by_contra hmax
  rw [txStep, if_neg hmax] at hs
  cases hs

/-- A step of a run whose calls find the transmitter at rest. -/
theorem txStep_spec {wire : List (List Byte)} {s t : TxState} {e : TxEvent}
    (h : TxInv wire s) (hs : txStep s e = some t) (hG : AtRest s e t) :
    TxInv wire t ∧ Delivered wire s t := by
  obtain ⟨hco, hwire⟩ := h
  cases e with
  | output env p =>
    have hready : TxReady s.dev := ⟨hG, hco, hwire.etxst, hwire.txerif⟩
    have hmax := txStep_output_le hs
    have hfit : p.flatten.length < memSize := Nat.lt_of_le_of_lt hmax (by decide)
    rw [txStep_output s env hmax] at hs
    obtain rfl := Option.some.inj hs
    obtain ⟨c, x, ss₀, hr, rfl, hsend, heq⟩ := packetSend_fetches env hready hfit []
    obtain ⟨-, -, -, -, hco'⟩ := packetSend_spec env p.flatten hready
    have hout := (hwire.request hG hr hsend).fetches (ss₀ ++ [])
    rw [← heq, Core.fetches_nil] at hout
    exact ⟨⟨hco', hout⟩, output_undisturbed env hready hfit, hout.delivers⟩
  | chip e =>
    obtain ⟨ss, hcore, -⟩ := foldl_event [e] s.dev.chip
    obtain ⟨l, hl, hw⟩ := Core.fetches_log s.dev.chip.core ss
    have ht : t = { s with dev := { s.dev with chip := s.dev.chip.event e } } :=
      (Option.some.inj hs).symm
    have hcore' : t.dev.chip.core = s.dev.chip.core.fetches ss := by rw [ht, ← hcore]; rfl
    have hout : OnWire wire t.sent t.dev.chip.core := by
      rw [hcore', ht]
      exact hwire.fetches ss
    refine ⟨⟨?_, hout⟩, fun w hwl => ?_, hout.delivers⟩
    · rw [Dev.Coherent, hcore', Core.fetches_bank, ht]
      exact hco
    · rw [hcore', hl, List.drop_left] at hwl
      obtain ⟨a, rfl⟩ := hw w hwl
      rfl

/-- **No frame is overwritten and none is lost** in a run, of any length, whose
calls of `low_level_output` find the transmitter at rest; what the chip does
during the calls and between them is arbitrary. -/
theorem output_delivered (env : Env) (macaddr : Fin 6 → Byte) (d : Dev)
    (hinit : (init env macaddr d).1 = 0) (lwipBuf : Nat → Byte) (es : List TxEvent)
    (hG : Along txStep AtRest ⟨(init env macaddr d).2, lwipBuf, []⟩ es) :
    Along txStep (fun s _ t => Delivered (init env macaddr d).2.chip.core.wire s t)
      ⟨(init env macaddr d).2, lwipBuf, []⟩ es := by
  have hstart : TxReady (init env macaddr d).2 := by
    rcases init_spec env macaddr d with ⟨-, h⟩ | ⟨h, -⟩
    · exact h.txReady
    · exact absurd (hinit.symm.trans h) (by decide)
  have hinv : TxInv (init env macaddr d).2.chip.core.wire ⟨(init env macaddr d).2, lwipBuf, []⟩ :=
    ⟨hstart.coherent, hstart.etxst, hstart.txerif,
      .inl ⟨hstart.idle, (List.append_nil _).symm⟩⟩
  exact along_imp (fun s e t h hs hg => txStep_spec h hs hg) hinv hG

/-- A first frame of 42 bytes and the steps of the transmitter until it is out. -/
def firstFrame : List TxEvent :=
  .output slowEnv [List.replicate 42 0xAA] :: List.replicate 43 (.chip (.fetch fun _ => 0))

/-- Two frames, the second after the first is out. -/
theorem output_delivered_two :
    Along txStep (fun s _ t => Delivered started.chip.core.wire s t) ⟨started, fun _ => 0, []⟩
      (firstFrame ++ [.output slowEnv [List.replicate 42 0xBB]]) := by
  have hG : Along txStep AtRest ⟨started, fun _ => 0, []⟩
      (firstFrame ++ [.output slowEnv [List.replicate 42 0xBB]]) := by
    refine (along_append _ _ _).mpr ⟨?_, fun t ht => ?_⟩
    · rw [firstFrame, Along]
      intro t _
      refine ⟨?_, ?_⟩
      · dsimp only [AtRest]
        exact started_txReady.idle
      · refine along_of_forall fun e he s t => ?_
        rw [(List.mem_replicate.mp he).2]
        trivial
    · have hout : (run txStep ⟨started, fun _ => 0, []⟩ firstFrame).map
          (fun t => t.dev.chip.core.txrts) = some false := by decide +kernel
      have hidle : t.dev.Idle := by
        rw [ht] at hout
        exact Option.some.inj hout
      exact fun _ _ => ⟨hidle, trivial⟩
  unfold started at hG ⊢
  exact output_delivered readyEnv mymac powerUp init_ready (fun _ => 0) _ hG

/-- **The driver does not wait for the transmitter.** Of two frames handed over
one after the other, the second is written over the first. -/
theorem output_overwrites :
    ¬ Along txStep (fun s _ t => Delivered started.chip.core.wire s t)
      ⟨started, fun _ => 0, []⟩
      [.output slowEnv [List.replicate 42 0xAA], .output slowEnv [List.replicate 42 0xBB]] := by
  intro h
  have hfirst := (h _ (txStep_output _ slowEnv (by decide))).2
  have hsecond := (hfirst _ (txStep_output _ slowEnv (by decide))).1
  exact absurd hsecond.undisturbed (by decide +kernel)

end MqttDevice.Ethernetif
