import MqttDevice.Lib.Ascii
import MqttDevice.Lib.Ring

/-!
# The ENC28J60 as the driver sees it

Register addresses are those of `enc28j60.h`. The chip is the part of its
datasheet that the driver relies on: four banks of 32 control registers with
the last five common to all, an 8 KB buffer with 13-bit addresses, the receive
ring between `ERXST` and `ERXND`, a transmitter that takes the frame from
`ETXST` to `ETXND` byte by byte and stores a 7-byte status vector behind it.

The fields `wire` and `log` belong to an observer: the frames sent and the
writes made.
-/

namespace MqttDevice.Enc28j60

open MqttDevice.Ascii MqttDevice.Ring

/-! ## Constants of `enc28j60.h` -/

def addrMask : Byte := 0x1F
def bankMask : Byte := 0x60
def sprdMask : Byte := 0x80

def eie : Byte := 0x1B
def eir : Byte := 0x1C
def estat : Byte := 0x1D
def econ2 : Byte := 0x1E
def econ1 : Byte := 0x1F
def erdptl : Byte := 0x00
def erdpth : Byte := 0x01
def ewrptl : Byte := 0x02
def ewrpth : Byte := 0x03
def etxstl : Byte := 0x04
def etxsth : Byte := 0x05
def etxndl : Byte := 0x06
def etxndh : Byte := 0x07
def erxstl : Byte := 0x08
def erxsth : Byte := 0x09
def erxndl : Byte := 0x0A
def erxndh : Byte := 0x0B
def erxrdptl : Byte := 0x0C
def erxrdpth : Byte := 0x0D
def erxwrptl : Byte := 0x0E
def erxwrpth : Byte := 0x0F
def epmm0 : Byte := 0x28
def epmm1 : Byte := 0x29
def epmcsl : Byte := 0x30
def epmcsh : Byte := 0x31
def erxfcon : Byte := 0x38
def epktcnt : Byte := 0x39
def macon1 : Byte := 0xC0
def macon2 : Byte := 0xC1
def macon3 : Byte := 0xC2
def mabbipg : Byte := 0xC4
def maipgl : Byte := 0xC6
def maipgh : Byte := 0xC7
def mamxfll : Byte := 0xCA
def mamxflh : Byte := 0xCB
def miregadr : Byte := 0xD4
def miwrl : Byte := 0xD6
def miwrh : Byte := 0xD7
def maadr1 : Byte := 0xE0
def maadr0 : Byte := 0xE1
def maadr3 : Byte := 0xE2
def maadr2 : Byte := 0xE3
def maadr5 : Byte := 0xE4
def maadr4 : Byte := 0xE5
def mistat : Byte := 0xEA
def phcon1 : Byte := 0x00
def phcon2 : Byte := 0x10

def econ1Bsel : Byte := 0x03
def econ1Rxen : Byte := 0x04
def econ1Txrts : Byte := 0x08
def econ2Pktdec : Byte := 0x40
def eirTxif : Byte := 0x08
def eirTxerif : Byte := 0x02
def estatClkrdy : Byte := 0x01
def mistatBusy : Byte := 0x01

def readCtrlReg : Byte := 0x00
def readBufMem : Byte := 0x3A
def writeCtrlReg : Byte := 0x40
def writeBufMem : Byte := 0x7A
def bitFieldSet : Byte := 0x80
def bitFieldClr : Byte := 0xA0
def softReset : Byte := 0xFF

def rxstartInit : Nat := 0
def rxstopInit : Nat := 0x1FFF - 1518 - 1
def txstartInit : Nat := 0x1FFF - 1518
def txstopInit : Nat := 0x1FFF
def maxFramelen : Nat := 1518

/-! ## The chip's state -/

/-- A write as an observer records it: by the driver to a control register or
to the buffer, with `TXRTS` at that moment, or by the transmitter. -/
inductive Write where
  | reg (a : Byte) (txrts : Bool)
  | buf (a : Nat) (txrts : Bool)
  | status (a : Nat)
deriving DecidableEq

/-- The buffer cell that a write changes. -/
def Write.cell : Write → Option Nat
  | .reg _ _ => none
  | .buf a _ => some a
  | .status a => some a

/-- The driver writes where the transmitter is at work: to the transmit buffer,
`EWRPT` or `ETXND` while `TXRTS` is set. -/
def Write.clobbers : Write → Bool
  | .reg a txrts => txrts && (a == ewrptl || a == ewrpth || a == etxndl || a == etxndh)
  | .buf a txrts => txrts && decide (txstartInit ≤ a)
  | .status _ => false

/-- Registers and buffer. A register is numbered by bank and address, without
the MAC/MII indicator; a common one by its address alone. `fetched` is what
the transmitter has taken of the current frame. -/
structure Core where
  reg : Byte → Byte
  mem : Nat → Byte
  fetched : List Byte
  wire : List (List Byte)
  log : List Write

/-- A received packet: the two status bytes of its header, its bytes with the
CRC, and the bytes left free behind it. -/
structure RxPacket where
  status : BitVec 16
  data : List Byte
  pad : Nat

namespace Core

def memSize : Nat := 0x2000

/-- A buffer pointer: 13 bits in two registers. -/
def ptr (c : Core) (l h : Byte) : Nat := (c.reg l).toNat + 256 * ((c.reg h).toNat % 32)

def setPtr (c : Core) (l h : Byte) (p : Nat) : Core :=
  { c with
    reg := Function.update (Function.update c.reg l (BitVec.ofNat 8 p)) h
      (BitVec.ofNat 8 (p / 256)) }

/-- `ECON1.TXRTS`. -/
def txrts (c : Core) : Bool := c.reg econ1 &&& econ1Txrts != 0

/-- `ECON1.RXEN`. -/
def rxen (c : Core) : Bool := c.reg econ1 &&& econ1Rxen != 0

/-- The bank selected in `ECON1`, as in bits 6 and 5 of an address. -/
def bank (c : Core) : Byte := (c.reg econ1 &&& econ1Bsel) <<< 5

/-- The register that a command with the 5-bit address `a` means. -/
def index (c : Core) (a : Byte) : Byte := if a < eie then c.bank ||| a else a

/-- MAC and MII registers, which the bit-field commands do not reach. -/
def isMac (r : Byte) : Bool :=
  (0x40 ≤ r && r < 0x5B) || (0x60 ≤ r && r ≤ 0x65) || r == 0x6A

/-- A pointer into the receive ring moves on. -/
def next (c : Core) (p : Nat) : Nat :=
  if p = c.ptr erxndl erxndh then c.ptr erxstl erxsth else (p + 1) % memSize

/-- A control register is written. Setting `ECON1.TXRTS` starts the
transmitter, `ECON2.PKTDEC` counts a packet off and clears itself, and
`ERXWRPT` follows `ERXST`. -/
def setReg (c : Core) (a v : Byte) : Core :=
  let c := { c with log := c.log ++ [Write.reg a c.txrts] }
  if a = econ1 then
    { c with
      reg := Function.update c.reg econ1 v
      fetched := if v &&& econ1Txrts != 0 && !c.txrts then [] else c.fetched }
  else if a = econ2 then
    let count := c.reg epktcnt
    { c with
      reg := Function.update (Function.update c.reg econ2 (v &&& ~~~econ2Pktdec)) epktcnt
        (if v &&& econ2Pktdec != 0 && count != 0 then count - 1 else count) }
  else if a = erxstl then
    { c with reg := Function.update (Function.update c.reg erxstl v) erxwrptl v }
  else if a = erxsth then
    { c with reg := Function.update (Function.update c.reg erxsth v) erxwrpth v }
  else
    { c with reg := Function.update c.reg a v }

/-- The buffer is read at `ERDPT`, which moves on in the ring. -/
def readNext (c : Core) : Byte × Core :=
  let p := c.ptr erdptl erdpth
  (c.mem p, c.setPtr erdptl erdpth (c.next p))

/-- The buffer is written at `EWRPT`, which moves on in the whole buffer. -/
def writeNext (c : Core) (b : Byte) : Core :=
  let p := c.ptr ewrptl ewrpth
  let c := { c with mem := Function.update c.mem p b, log := c.log ++ [Write.buf p c.txrts] }
  c.setPtr ewrptl ewrpth ((p + 1) % memSize)

/-! ## What the chip does by itself -/

/-- Cell `i` of the status vector of the current frame. -/
def statusCell (c : Core) (i : Nat) : Nat := (c.ptr etxndl etxndh + 1 + i) % memSize

/-- The transmitter takes its next byte, the first being the control byte. With
the byte at `ETXND` the frame is out: the status vector is stored, `TXRTS` is
cleared. -/
def fetch (status : Fin 7 → Byte) (c : Core) : Core :=
  if c.txrts then
    let a := (c.ptr etxstl etxsth + c.fetched.length) % memSize
    let fetched := c.fetched ++ [c.mem a]
    if a = c.ptr etxndl etxndh then
      { reg := Function.update (Function.update c.reg econ1 (c.reg econ1 &&& ~~~econ1Txrts)) eir
          (c.reg eir ||| eirTxif)
        mem := (List.finRange 7).foldl
          (fun m i => Function.update m (c.statusCell i.val) (status i)) c.mem
        fetched := []
        wire := c.wire ++ [fetched.tail]
        log := c.log ++ (List.range 7).map fun i => Write.status (c.statusCell i) }
    else
      { c with fetched := fetched }
  else c

/-- Cells of the receive ring. -/
def ringSize (c : Core) : Nat := c.ptr erxndl erxndh + 1 - c.ptr erxstl erxsth

/-- Free cells of the ring: up to the one before `ERXRDPT`. -/
def free (c : Core) : Nat :=
  (c.ptr erxrdptl erxrdpth + c.ringSize - 1 - c.ptr erxwrptl erxwrpth) % c.ringSize

/-- The chip takes a packet in: reception is on, the packet counter has room
and so has the ring. -/
def Accepts (c : Core) (p : RxPacket) : Prop :=
  c.rxen = true ∧ (c.reg epktcnt).toNat < 255 ∧ 4 ≤ p.data.length ∧
    6 + p.data.length + p.pad ≤ c.free

instance (c : Core) (p : RxPacket) : Decidable (c.Accepts p) :=
  inferInstanceAs (Decidable (_ ∧ _ ∧ _ ∧ _))

/-- Bytes stored one after the other in the ring. -/
def storeBytes (c : Core) : (Nat → Byte) → Nat → List Byte → Nat → Byte
  | m, _, [] => m
  | m, p, b :: bs => c.storeBytes (Function.update m p b) (c.next p) bs

/-- Low byte first. -/
def bytes16 (n : Nat) : List Byte := [BitVec.ofNat 8 n, BitVec.ofNat 8 (n / 256)]

/-- Header and contents of a packet followed by the one at `next`. -/
def image (p : RxPacket) (next : Nat) : List Byte :=
  bytes16 next ++ bytes16 p.data.length ++ bytes16 p.status.toNat ++ p.data

/-- A packet is stored at `ERXWRPT` and counted. -/
def receive (p : RxPacket) (c : Core) : Core :=
  let w := c.ptr erxwrptl erxwrpth
  let w' := c.next^[6 + p.data.length + p.pad] w
  let c := { c with
    mem := c.storeBytes c.mem w (image p w')
    reg := Function.update c.reg epktcnt (c.reg epktcnt + 1) }
  c.setPtr erxwrptl erxwrpth w'

end Core

/-! ## The SPI interface -/

/-- The chip with what its SPI interface and its clocks add: `sel` is the
command since chip select with the number of bytes that came after it. -/
structure Chip where
  core : Core
  clkrdy : Bool
  busy : Bool
  sel : Option (Byte × Nat)

/-- Register values after a reset. -/
def resetReg (r : Byte) : Byte :=
  if r = econ2 then 0x80
  else if r = erdptl then 0xFA
  else if r = erdpth then 0x05
  else if r = erxstl then 0xFA
  else if r = erxsth then 0x05
  else if r = erxndl then 0xFF
  else if r = erxndh then 0x1F
  else if r = erxrdptl then 0xFA
  else if r = erxrdpth then 0x05
  else if r = erxfcon then 0xA1
  else if r = mamxflh &&& 0x7F then 0x06
  else 0

namespace Chip

/-- A reset. The buffer keeps its contents, the oscillator starts again. -/
def reset (c : Chip) : Chip :=
  { core := { c.core with reg := resetReg, fetched := [] }
    clkrdy := false, busy := false, sel := none }

/-- The value of a register; two of them show what the clocks and the PHY do. -/
def readReg (c : Chip) (r : Byte) : Byte :=
  if r = estat then if c.clkrdy then estatClkrdy else 0
  else if r = mistat &&& 0x7F then if c.busy then mistatBusy else 0
  else c.core.reg r

/-- One byte each way. The first byte after chip select is the command; of a
MAC or MII register the first byte read back is a dummy. -/
def exchange (c : Chip) (b : Byte) : Byte × Chip :=
  match c.sel with
  | none =>
    if b = softReset then (0, { c.reset with sel := some (b, 0) })
    else (0, { c with sel := some (b, 0) })
  | some (o, n) =>
    let c := { c with sel := some (o, n + 1) }
    let r := c.core.index (o &&& addrMask)
    let op := o &&& ~~~addrMask
    if o = readBufMem then
      (c.core.readNext.1, { c with core := c.core.readNext.2 })
    else if o = writeBufMem then
      (0, { c with core := c.core.writeNext b })
    else if op = readCtrlReg then
      (if Core.isMac r && n == 0 then 0 else c.readReg r, c)
    else if n ≠ 0 then
      (0, c)
    else if op = writeCtrlReg then
      (0, { c with core := c.core.setReg r b, busy := c.busy || r == miwrh &&& 0x7F })
    else if op = bitFieldSet && !Core.isMac r then
      (0, { c with core := c.core.setReg r (c.core.reg r ||| b) })
    else if op = bitFieldClr && !Core.isMac r then
      (0, { c with core := c.core.setReg r (c.core.reg r &&& ~~~b) })
    else
      (0, c)

end Chip

/-- What happens in the chip between two bytes on the bus. A packet is taken in
between two calls of the driver. -/
inductive ChipEvent where
  | clockReady
  | phyDone
  | fetch (status : Fin 7 → Byte)

def Chip.event (c : Chip) : ChipEvent → Chip
  | .clockReady => { c with clkrdy := true }
  | .phyDone => { c with busy := false }
  | .fetch status => { c with core := c.core.fetch status }

end MqttDevice.Enc28j60
