import MqttDevice.Enc28j60.Chip

/-!
# The ENC28J60 driver (`enc28j60.c`)

The functions of the driver over the chip. Between any two bytes on the bus the
chip may do something of its own; what, says an `Env`.
-/

namespace MqttDevice.Enc28j60

open MqttDevice.Ascii MqttDevice.Ring

/-- What the chip does before the `t`-th byte on the bus. -/
abbrev Env := Nat → List ChipEvent

/-- A control-register command: the address the driver means and the bank that
the chip has selected. -/
structure CtrlAccess where
  addr : Byte
  bank : Byte

/-- The chip, the bytes exchanged so far, the variables of the driver and the
control-register commands sent. -/
structure Dev where
  chip : Chip
  clock : Nat
  enc28j60Bank : Byte
  nextPacketPtr : BitVec 32
  trace : List CtrlAccess

namespace Dev

/-- Both edges of chip select end a command. -/
def cs (d : Dev) : Dev := { d with chip := { d.chip with sel := none } }

def record (op addr : Byte) (d : Dev) : Dev :=
  if op = readBufMem ∨ op = writeBufMem ∨ op = softReset then d
  else { d with trace := d.trace ++ [⟨addr, d.chip.core.bank⟩] }

/-- The reset pin. -/
def rst (d : Dev) : Dev := { d with chip := d.chip.reset }

end Dev

section Functions

variable (env : Env)

/-- `SPI1_ReadWriteByte`. -/
def spi1ReadWriteByte (b : Byte) (d : Dev) : Byte × Dev :=
  let chip := (env d.clock).foldl Chip.event d.chip
  let (dat, chip) := chip.exchange b
  (dat, { d with chip := chip, clock := d.clock + 1 })

def readOp (op addr : Byte) (d : Dev) : Byte × Dev :=
  let d := (d.record op addr).cs
  let (_, d) := spi1ReadWriteByte env (op ||| (addr &&& addrMask)) d
  let (dat, d) := spi1ReadWriteByte env 0xFF d
  let (dat, d) := if addr &&& 0x80 ≠ 0 then spi1ReadWriteByte env 0xFF d else (dat, d)
  (dat, d.cs)

def writeOp (op addr data : Byte) (d : Dev) : Dev :=
  let d := (d.record op addr).cs
  let (_, d) := spi1ReadWriteByte env (op ||| (addr &&& addrMask)) d
  let (_, d) := spi1ReadWriteByte env data d
  d.cs

/-- The loop of `ENC28J60_Read_Buf`: `len` bytes to `data` from index `i` on,
and a zero behind them. -/
def readBufLoop : Nat → Nat → (Nat → Byte) → Dev → (Nat → Byte) × Dev
  | 0, i, data, d => (Function.update data i 0, d)
  | len + 1, i, data, d =>
    let (b, d) := spi1ReadWriteByte env 0 d
    readBufLoop len (i + 1) (Function.update data i b) d

def readBuf (len : BitVec 32) (data : Nat → Byte) (d : Dev) : (Nat → Byte) × Dev :=
  let d := d.cs
  let (_, d) := spi1ReadWriteByte env readBufMem d
  let (data, d) := readBufLoop env len.toNat 0 data d
  (data, d.cs)

/-- The loop of `ENC28J60_Write_Buf`. -/
def writeBufLoop : List Byte → Dev → Dev
  | [], d => d
  | b :: bs, d => writeBufLoop bs (spi1ReadWriteByte env b d).2

def writeBuf (data : List Byte) (d : Dev) : Dev :=
  let d := d.cs
  let (_, d) := spi1ReadWriteByte env writeBufMem d
  (writeBufLoop env data d).cs

def setBank (bank : Byte) (d : Dev) : Dev :=
  if bank &&& bankMask ≠ d.enc28j60Bank then
    let d := writeOp env bitFieldClr econ1 econ1Bsel d
    let d := writeOp env bitFieldSet econ1 ((bank &&& bankMask) >>> 5) d
    { d with enc28j60Bank := bank &&& bankMask }
  else d

def read (addr : Byte) (d : Dev) : Byte × Dev :=
  readOp env readCtrlReg addr (setBank env addr d)

def write (addr data : Byte) (d : Dev) : Dev :=
  writeOp env writeCtrlReg addr data (setBank env addr d)

/-- Calls of `ENC28J60_Write` one after the other. -/
def writes (ws : List (Byte × Byte)) (d : Dev) : Dev :=
  ws.foldl (fun d w => write env w.1 w.2 d) d

/-- The wait for the PHY, at most `retry` times. -/
def phyWait : Nat → Dev → Dev
  | 0, d => (read env mistat d).2
  | retry + 1, d =>
    let (dat, d) := read env mistat d
    if dat &&& mistatBusy ≠ 0 then phyWait retry d else d

def phyWrite (addr : Byte) (data : BitVec 32) (d : Dev) : Dev :=
  phyWait env 0xFFF <|
    writes env [(miregadr, addr), (miwrl, data.setWidth 8), (miwrh, (data >>> 8).setWidth 8)] d

def lo (n : Nat) : Byte := BitVec.ofNat 8 n
def hi (n : Nat) : Byte := BitVec.ofNat 8 (n / 256)

/-- The wait for the clock in `ENC28J60_Init`, with the retries left; the
result says whether any were. -/
def clkWait : Nat → Dev → Bool × Dev
  | 0, d => (false, (read env estat d).2)
  | retry + 1, d =>
    let (dat, d) := read env estat d
    if dat &&& estatClkrdy = 0 then clkWait retry d else (true, d)

/-- The registers set by `ENC28J60_Write` before and after the one of `MACON3`. -/
def initWrites : List (Byte × Byte) :=
  [(erxstl, lo rxstartInit), (erxsth, hi rxstartInit),
    (erxrdptl, lo rxstartInit), (erxrdpth, hi rxstartInit),
    (erxndl, lo rxstopInit), (erxndh, hi rxstopInit),
    (etxstl, lo txstartInit), (etxsth, hi txstartInit),
    (etxndl, lo txstopInit), (etxndh, hi txstopInit),
    (erxfcon, 0x80 ||| 0x20 ||| 0x10), (epmm0, 0x3F), (epmm1, 0x30),
    (epmcsl, 0xF9), (epmcsh, 0xF7),
    (macon1, 0x01 ||| 0x08 ||| 0x04), (macon2, 0x00)]

def initMacWrites (macaddr : Fin 6 → Byte) : List (Byte × Byte) :=
  [(maipgl, 0x12), (maipgh, 0x0C), (mabbipg, 0x15),
    (mamxfll, lo maxFramelen), (mamxflh, hi maxFramelen),
    (maadr5, macaddr 0), (maadr4, macaddr 1), (maadr3, macaddr 2),
    (maadr2, macaddr 3), (maadr1, macaddr 4), (maadr0, macaddr 5)]

/-- `ENC28J60_Init` between the wait for the clock and the final check. -/
def initRegs (macaddr : Fin 6 → Byte) (d : Dev) : Dev :=
  let d := { d with nextPacketPtr := BitVec.ofNat 32 rxstartInit }
  let d := writes env initWrites d
  let d := writeOp env bitFieldSet macon3 (0x20 ||| 0x10 ||| 0x02 ||| 0x01) d
  let d := writes env (initMacWrites macaddr) d
  let d := phyWrite env phcon1 0x0100 d
  let d := phyWrite env phcon2 0x0100 d
  let d := setBank env econ1 d
  let d := writeOp env bitFieldSet eie (0x80 ||| 0x40) d
  writeOp env bitFieldSet econ1 econ1Rxen d

/-- `ENC28J60_Init`: 0 on success. -/
def init (macaddr : Fin 6 → Byte) (d : Dev) : Byte × Dev :=
  let d := writeOp env softReset 0 softReset d.rst
  let wait := clkWait env 250 d
  if !wait.1 then (1, wait.2)
  else
    let check := read env maadr5 (initRegs env macaddr wait.2)
    if check.1 = macaddr 0 then (0, check.2) else (1, check.2)

def packetSend (packet : List Byte) (d : Dev) : Dev :=
  let len := packet.length
  let d := write env ewrptl (lo txstartInit) d
  let d := write env ewrpth (hi txstartInit) d
  let d := write env etxndl (lo (txstartInit + len)) d
  let d := write env etxndh (hi (txstartInit + len)) d
  let d := writeOp env writeBufMem 0 0x00 d
  let d := writeBuf env packet d
  let d := writeOp env bitFieldSet econ1 econ1Txrts d
  let (dat, d) := read env eir d
  if dat &&& eirTxerif ≠ 0 then writeOp env bitFieldClr econ1 econ1Txrts d else d

/-- Two bytes of a header, low byte first. -/
def word (l h : Byte) : BitVec 32 := l.setWidth 32 ||| (h.setWidth 32 <<< 8)

/-- `ENC28J60_Packet_Receive` reads two bytes of a header. -/
def readBufOp16 (d : Dev) : BitVec 32 × Dev :=
  let l := readOp env readBufMem 0 d
  let h := readOp env readBufMem 0 l.2
  (word l.1 h.1, h.2)

/-- The frame behind a header is read, if it was received without error. -/
def readFrame (rxstat len : BitVec 32) (packet : Nat → Byte) (d : Dev) :
    BitVec 32 × (Nat → Byte) × Dev :=
  if rxstat &&& 0x80 = 0 then (0, packet, d) else (len, readBuf env len packet d)

/-- The cells up to `NextPacketPtr` are given back and the packet is counted off. -/
def release (d : Dev) : Dev :=
  let d := write env erxrdptl (d.nextPacketPtr.setWidth 8) d
  let d := write env erxrdpth ((d.nextPacketPtr >>> 8).setWidth 8) d
  writeOp env bitFieldSet econ2 econ2Pktdec d

/-- `ERDPT` is set to `NextPacketPtr`. -/
def seek (d : Dev) : Dev :=
  let d := write env erdptl (d.nextPacketPtr.setWidth 8) d
  write env erdpth ((d.nextPacketPtr >>> 8).setWidth 8) d

/-- `ENC28J60_Packet_Receive`: the length and the buffer of the caller. -/
def packetReceive (maxlen : BitVec 32) (packet : Nat → Byte) (d : Dev) :
    BitVec 32 × (Nat → Byte) × Dev :=
  let cnt := read env epktcnt d
  if cnt.1 = 0 then (0, packet, cnt.2)
  else
    let next := readBufOp16 env (seek env cnt.2)
    let len := readBufOp16 env { next.2 with nextPacketPtr := next.1 }
    let rxstat := readBufOp16 env len.2
    let len := len.1 - 4
    let len := if len > maxlen - 1 then maxlen - 1 else len
    let frame := readFrame env rxstat.1 len packet rxstat.2
    (frame.1, frame.2.1, release env frame.2.2)

/-- A length that is returned leaves room for the zero behind the frame. -/
theorem packetReceive_le {maxlen : BitVec 32} (hm : 1 ≤ maxlen) (packet : Nat → Byte) (d : Dev) :
    (packetReceive env maxlen packet d).1.toNat ≤ maxlen.toNat - 1 := by
  have hsub : (maxlen - 1).toNat = maxlen.toNat - 1 := BitVec.toNat_sub_of_le hm
  have hcap (len : BitVec 32) :
      (if len > maxlen - 1 then maxlen - 1 else len).toNat ≤ maxlen.toNat - 1 := by
    split
    · exact Nat.le_of_eq hsub
    · rename_i hle
      rw [← hsub]
      exact BitVec.le_def.mp (BitVec.not_lt.mp hle)
  unfold packetReceive
  dsimp only
  split
  · exact Nat.zero_le _
  · unfold readFrame
    split
    · exact Nat.zero_le _
    · exact hcap _

end Functions

/-- A device as it is switched on, for examples. -/
def powerUp : Dev where
  chip := ⟨⟨resetReg, fun _ => 0, [], [], []⟩, false, false, none⟩
  clock := 0
  enc28j60Bank := 0
  nextPacketPtr := 0
  trace := []

/-- Clock and PHY are always ready. -/
def readyEnv : Env := fun _ => [.clockReady, .phyDone]

end MqttDevice.Enc28j60
