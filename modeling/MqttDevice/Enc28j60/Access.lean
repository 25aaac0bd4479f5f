import MqttDevice.Enc28j60.Driver

/-!
# Register and buffer accesses

What one command does to the chip while the transmitter rests, and what the
bank switching leaves alone.

* `foldl_event`: the chip's own events are steps of the transmitter;
* `writeOp_writeCtrl`, `writeOp_bitSet`, `writeOp_bitClr`, `writeOp_writeBuf`,
  `readOp_readCtrl`, `readOp_readBuf`: the commands;
* `setBank_spec`, `write_spec`, `read_spec`: with a coherent bank, the register
  meant is the register reached.
-/

namespace MqttDevice.Enc28j60

open MqttDevice.Ascii MqttDevice.Ring

/-! ## The transmitter between two bytes -/

namespace Core

/-- Some steps of the transmitter. -/
def fetches (ss : List (Fin 7 → Byte)) (c : Core) : Core := ss.foldl (fun c s => c.fetch s) c

@[simp] theorem fetches_nil (c : Core) : c.fetches [] = c := rfl

theorem fetches_append (ss ts : List (Fin 7 → Byte)) (c : Core) :
    c.fetches (ss ++ ts) = (c.fetches ss).fetches ts := List.foldl_append

theorem fetch_idle {c : Core} (h : c.txrts = false) (s : Fin 7 → Byte) : c.fetch s = c := by
  simp [fetch, h]

theorem fetches_idle {c : Core} (h : c.txrts = false) (ss : List (Fin 7 → Byte)) :
    c.fetches ss = c := by
  induction ss with
  | nil => rfl
  | cons s ss ih => exact (congrArg (fetches ss) (fetch_idle h s)).trans ih

end Core

theorem foldl_event (es : List ChipEvent) (c : Chip) :
    ∃ ss, (es.foldl Chip.event c).core = c.core.fetches ss ∧
      (es.foldl Chip.event c).sel = c.sel := by
  induction es generalizing c with
  | nil => exact ⟨[], rfl, rfl⟩
  | cons e es ih =>
    obtain ⟨ss, hcore, hsel⟩ := ih (c.event e)
    rw [List.foldl_cons, hcore, hsel]
    cases e with
    | clockReady => exact ⟨ss, rfl, rfl⟩
    | phyDone => exact ⟨ss, rfl, rfl⟩
    | fetch s => exact ⟨s :: ss, rfl, rfl⟩

/-- **One byte on the bus**, after some steps of the transmitter. -/
theorem spi_spec (env : Env) (b : Byte) (d : Dev) :
    ∃ (c : Chip) (ss : _), c.core = d.chip.core.fetches ss ∧ c.sel = d.chip.sel ∧
      spi1ReadWriteByte env b d =
        ((c.exchange b).1, { d with chip := (c.exchange b).2, clock := d.clock + 1 }) := by
  obtain ⟨ss, hcore, hsel⟩ := foldl_event (env d.clock) d.chip
  exact ⟨_, ss, hcore, hsel, rfl⟩

/-- The transmitter rests. -/
def Dev.Idle (d : Dev) : Prop := d.chip.core.txrts = false

theorem spi_idle (env : Env) (b : Byte) {d : Dev} (h : d.Idle) :
    ∃ c : Chip, c.core = d.chip.core ∧ c.sel = d.chip.sel ∧
      spi1ReadWriteByte env b d =
        ((c.exchange b).1, { d with chip := (c.exchange b).2, clock := d.clock + 1 }) := by
  obtain ⟨c, ss, hcore, hsel, heq⟩ := spi_spec env b d
  exact ⟨c, by rw [hcore, Core.fetches_idle h], hsel, heq⟩

/-! ## The commands -/

section Fields

variable (env : Env) (op addr v : Byte) (d : Dev)

@[simp] theorem cs_core : d.cs.chip.core = d.chip.core := rfl
@[simp] theorem cs_sel : d.cs.chip.sel = none := rfl
@[simp] theorem record_chip : (d.record op addr).chip = d.chip := by
  unfold Dev.record
  split <;> rfl
@[simp] theorem record_bank : (d.record op addr).enc28j60Bank = d.enc28j60Bank := by
  unfold Dev.record
  split <;> rfl
@[simp] theorem record_next : (d.record op addr).nextPacketPtr = d.nextPacketPtr := by
  unfold Dev.record
  split <;> rfl

@[simp] theorem writeOp_bank : (writeOp env op addr v d).enc28j60Bank = d.enc28j60Bank :=
  record_bank op addr d
@[simp] theorem writeOp_next : (writeOp env op addr v d).nextPacketPtr = d.nextPacketPtr :=
  record_next op addr d
@[simp] theorem readOp_bank : (readOp env op addr d).2.enc28j60Bank = d.enc28j60Bank := by
  unfold readOp
  split <;> exact record_bank op addr d
@[simp] theorem readOp_next : (readOp env op addr d).2.nextPacketPtr = d.nextPacketPtr := by
  unfold readOp
  split <;> exact record_next op addr d

end Fields

/-- How the chip reads the first byte of a control-register command. -/
theorem command_decode (a : Byte) :
    ∀ op ∈ [readCtrlReg, writeCtrlReg, bitFieldSet, bitFieldClr],
      (op ||| (a &&& addrMask)) ≠ softReset ∧ (op ||| (a &&& addrMask)) ≠ readBufMem ∧
      (op ||| (a &&& addrMask)) ≠ writeBufMem ∧
      (op ||| (a &&& addrMask)) &&& addrMask = a &&& addrMask ∧
      (op ||| (a &&& addrMask)) &&& ~~~addrMask = op := by
  intro op hop
  have hparts : op &&& addrMask = 0 ∧ op &&& ~~~addrMask = op ∧
      op ≠ softReset &&& ~~~addrMask ∧ op ≠ readBufMem &&& ~~~addrMask ∧
      op ≠ writeBufMem &&& ~~~addrMask := by
    revert op
    decide
  obtain ⟨hlow, hhigh, hreset, hread, hwrite⟩ := hparts
  have hop : (op ||| (a &&& addrMask)) &&& ~~~addrMask = op := by
    rw [BitVec.and_or_distrib_right, hhigh, BitVec.and_assoc, BitVec.and_not_self]
    simp
  have haddr : (op ||| (a &&& addrMask)) &&& addrMask = a &&& addrMask := by
    rw [BitVec.and_or_distrib_right, hlow, BitVec.and_assoc, BitVec.and_self]
    exact BitVec.zero_or
  -- the opcode tells the commands apart
  refine ⟨fun h => hreset ?_, fun h => hread ?_, fun h => hwrite ?_, haddr, hop⟩
  · rw [← h, hop]
  · rw [← h, hop]
  · rw [← h, hop]

/-- The first byte of a command. -/
theorem spi_command (env : Env) {b : Byte} (hb : b ≠ softReset) {d : Dev}
    (hsel : d.chip.sel = none) :
    ∃ ss, (spi1ReadWriteByte env b d).2.chip.core = d.chip.core.fetches ss ∧
      (spi1ReadWriteByte env b d).2.chip.sel = some (b, 0) := by
  obtain ⟨c, ss, hcore, hcsel, heq⟩ := spi_spec env b d
  rw [hsel] at hcsel
  refine ⟨ss, ?_, ?_⟩ <;> rw [heq] <;> simp [Chip.exchange, hcsel, hb, hcore]

/-- A byte read back from a control register. -/
theorem spi_readCtrl (env : Env) (a b : Byte) {n : Nat} {d : Dev}
    (hsel : d.chip.sel = some (readCtrlReg ||| (a &&& addrMask), n)) :
    ∃ (c : Chip) (ss : _), c.core = d.chip.core.fetches ss ∧
      (spi1ReadWriteByte env b d).2.chip.core = c.core ∧
      (spi1ReadWriteByte env b d).2.chip.sel = some (readCtrlReg ||| (a &&& addrMask), n + 1) ∧
      (spi1ReadWriteByte env b d).1 =
        if Core.isMac (c.core.index (a &&& addrMask)) && n == 0 then 0
        else c.readReg (c.core.index (a &&& addrMask)) := by
  obtain ⟨h1, h2, h3, h4, h5⟩ := command_decode a readCtrlReg (by decide)
  obtain ⟨c, ss, hcore, hcsel, heq⟩ := spi_spec env b d
  rw [hsel] at hcsel
  refine ⟨c, ss, hcore, ?_, ?_, ?_⟩ <;> rw [heq] <;>
    simp [Chip.exchange, hcsel, h2, h3, h4, h5, Chip.readReg]

theorem readOp_eq (env : Env) (op a : Byte) (d : Dev) :
    readOp env op a d =
      let x := spi1ReadWriteByte env 0xFF
        (spi1ReadWriteByte env (op ||| (a &&& addrMask)) (d.record op a).cs).2
      let y := if a &&& 0x80 ≠ 0 then spi1ReadWriteByte env 0xFF x.2 else x
      (y.1, y.2.cs) := rfl

/-- **A control register is read.** Of a MAC or MII register the driver takes
the second byte. The value is that of the last moment. -/
theorem readOp_spec (env : Env) (a : Byte) (d : Dev) :
    ∃ (c : Chip) (ss : _), c.core = d.chip.core.fetches ss ∧
      (readOp env readCtrlReg a d).2.chip.core = c.core ∧
      ((Core.isMac (c.core.index (a &&& addrMask)) = true → a &&& 0x80 ≠ 0) →
        (readOp env readCtrlReg a d).1 = c.readReg (c.core.index (a &&& addrMask))) := by
  obtain ⟨h1, -⟩ := command_decode a readCtrlReg (by decide)
  obtain ⟨ss₁, hcore₁, hsel₁⟩ := spi_command env h1 (cs_sel (d.record readCtrlReg a))
  obtain ⟨c₂, ss₂, hcore₂, hfin₂, hsel₂, hval₂⟩ := spi_readCtrl env a 0xFF hsel₁
  rw [hcore₁, cs_core, record_chip, ← Core.fetches_append] at hcore₂
  by_cases hflag : a &&& 0x80 ≠ 0
  · obtain ⟨c₃, ss₃, hcore₃, hfin₃, -, hval₃⟩ := spi_readCtrl env a 0xFF hsel₂
    rw [hfin₂, hcore₂, ← Core.fetches_append] at hcore₃
    refine ⟨c₃, _, hcore₃, ?_, fun _ => ?_⟩ <;> simp only [readOp_eq, if_pos hflag]
    · exact hfin₃
    · simpa using hval₃
  · refine ⟨c₂, _, hcore₂, ?_, fun hmac => ?_⟩ <;> simp only [readOp_eq, if_neg hflag]
    · exact hfin₂
    · have : Core.isMac (c₂.core.index (a &&& addrMask)) = false := by
        simpa using fun h => hflag (hmac h)
      simpa [this] using hval₂

section Commands

variable (env : Env) {d : Dev} (hd : d.Idle)
include hd

/-- The two bytes of a command that is sent while the transmitter rests. -/
theorem writeOp_core (op a v : Byte) (hop : (op ||| (a &&& addrMask)) ≠ softReset) :
    ∃ c : Chip, c.core = d.chip.core ∧ c.sel = some (op ||| (a &&& addrMask), 0) ∧
      (writeOp env op a v d).chip.core = (c.exchange v).2.core := by
  let d₁ := (spi1ReadWriteByte env (op ||| (a &&& addrMask)) (d.record op a).cs).2
  obtain ⟨ss, hcore₁, hsel₁⟩ := spi_command env hop (cs_sel (d.record op a))
  rw [cs_core, record_chip, Core.fetches_idle hd] at hcore₁
  have h₁ : d₁.Idle := by rw [Dev.Idle, hcore₁]; exact hd
  obtain ⟨c, hcore, hsel, heq⟩ := spi_idle env v h₁
  refine ⟨c, hcore.trans hcore₁, hsel.trans hsel₁, ?_⟩
  show (spi1ReadWriteByte env v d₁).2.cs.chip.core = _
  rw [heq]
  rfl

theorem writeOp_writeCtrl (a v : Byte) :
    (writeOp env writeCtrlReg a v d).chip.core =
      d.chip.core.setReg (d.chip.core.index (a &&& addrMask)) v := by
  obtain ⟨h1, h2, h3, h4, h5⟩ := command_decode a writeCtrlReg (by decide)
  obtain ⟨c, hcore, hsel, heq⟩ := writeOp_core env hd writeCtrlReg a v h1
  have hop : writeCtrlReg ≠ readCtrlReg := by decide
  simp [heq, Chip.exchange, hsel, h2, h3, h4, h5, hcore, hop]

theorem writeOp_bitSet (a v : Byte)
    (hmac : Core.isMac (d.chip.core.index (a &&& addrMask)) = false) :
    (writeOp env bitFieldSet a v d).chip.core =
      d.chip.core.setReg (d.chip.core.index (a &&& addrMask))
        (d.chip.core.reg (d.chip.core.index (a &&& addrMask)) ||| v) := by
  obtain ⟨h1, h2, h3, h4, h5⟩ := command_decode a bitFieldSet (by decide)
  obtain ⟨c, hcore, hsel, heq⟩ := writeOp_core env hd bitFieldSet a v h1
  have hop : bitFieldSet ≠ readCtrlReg ∧ bitFieldSet ≠ writeCtrlReg := by decide
  simp [heq, Chip.exchange, hsel, h2, h3, h4, h5, hcore, hop, hmac]

/-- The bit-field commands do not reach MAC and MII registers. -/
theorem writeOp_bitSet_mac (a v : Byte)
    (hmac : Core.isMac (d.chip.core.index (a &&& addrMask)) = true) :
    (writeOp env bitFieldSet a v d).chip.core = d.chip.core := by
  obtain ⟨h1, h2, h3, h4, h5⟩ := command_decode a bitFieldSet (by decide)
  obtain ⟨c, hcore, hsel, heq⟩ := writeOp_core env hd bitFieldSet a v h1
  have hop : bitFieldSet ≠ readCtrlReg ∧ bitFieldSet ≠ writeCtrlReg ∧
    bitFieldSet ≠ bitFieldClr := by decide
  simp [heq, Chip.exchange, hsel, h2, h3, h4, h5, hcore, hop, hmac]

theorem writeOp_bitClr (a v : Byte)
    (hmac : Core.isMac (d.chip.core.index (a &&& addrMask)) = false) :
    (writeOp env bitFieldClr a v d).chip.core =
      d.chip.core.setReg (d.chip.core.index (a &&& addrMask))
        (d.chip.core.reg (d.chip.core.index (a &&& addrMask)) &&& ~~~v) := by
  obtain ⟨h1, h2, h3, h4, h5⟩ := command_decode a bitFieldClr (by decide)
  obtain ⟨c, hcore, hsel, heq⟩ := writeOp_core env hd bitFieldClr a v h1
  have hop : bitFieldClr ≠ readCtrlReg ∧ bitFieldClr ≠ writeCtrlReg ∧
    bitFieldClr ≠ bitFieldSet := by decide
  simp [heq, Chip.exchange, hsel, h2, h3, h4, h5, hcore, hop, hmac]

theorem writeOp_writeBuf (v : Byte) :
    (writeOp env writeBufMem 0 v d).chip.core = d.chip.core.writeNext v := by
  obtain ⟨c, hcore, hsel, heq⟩ := writeOp_core env hd writeBufMem 0 v (by decide)
  have hop : writeBufMem ||| ((0 : Byte) &&& addrMask) = writeBufMem := by decide
  have hne : writeBufMem ≠ readBufMem := by decide
  rw [hop] at hsel
  rw [heq]
  simp [Chip.exchange, hsel, hcore, hne]

/-- The soft reset; `ENC28J60BANK` and `NextPacketPtr` stay. -/
theorem writeOp_softReset :
    (writeOp env softReset 0 softReset d).chip.core =
      { d.chip.core with reg := resetReg, fetched := [] } := by
  let d₀ := (d.record softReset 0).cs
  have h₀ : d₀.Idle := by rw [Dev.Idle, cs_core, record_chip]; exact hd
  obtain ⟨c₁, hcore₁, hsel₁, heq₁⟩ := spi_idle env (softReset ||| (0 &&& addrMask)) h₀
  rw [cs_core, record_chip] at hcore₁
  let d₁ := (spi1ReadWriteByte env (softReset ||| (0 &&& addrMask)) d₀).2
  have hop : softReset ||| ((0 : Byte) &&& addrMask) = softReset := by decide
  have hchip₁ : d₁.chip = { c₁.reset with sel := some (softReset, 0) } := by
    show (spi1ReadWriteByte env (softReset ||| (0 &&& addrMask)) d₀).2.chip = _
    rw [heq₁, hop]
    simp [Chip.exchange, hsel₁, d₀]
  have hd₁ : d₁.Idle := by
    rw [Dev.Idle, hchip₁]
    exact (by decide : (resetReg econ1 &&& econ1Txrts != 0) = false)
  obtain ⟨c₂, hcore₂, hsel₂, heq₂⟩ := spi_idle env softReset hd₁
  rw [hchip₁] at hcore₂ hsel₂
  show (spi1ReadWriteByte env softReset d₁).2.cs.chip.core = _
  rw [heq₂, cs_core, ← hcore₁]
  have hne : softReset ≠ readBufMem ∧ softReset ≠ writeBufMem ∧
    softReset &&& ~~~addrMask ≠ readCtrlReg ∧ softReset &&& ~~~addrMask ≠ writeCtrlReg ∧
    softReset &&& ~~~addrMask ≠ bitFieldSet ∧ softReset &&& ~~~addrMask ≠ bitFieldClr := by decide
  simp [Chip.exchange, hsel₂, hcore₂, hne, Chip.reset]

theorem readOp_readBuf :
    (readOp env readBufMem 0 d).1 = d.chip.core.readNext.1 ∧
      (readOp env readBufMem 0 d).2.chip.core = d.chip.core.readNext.2 := by
  let d₁ := (spi1ReadWriteByte env (readBufMem ||| (0 &&& addrMask)) (d.record readBufMem 0).cs).2
  obtain ⟨ss, hcore₁, hsel₁⟩ :=
    spi_command env (b := readBufMem ||| (0 &&& addrMask)) (by decide)
      (cs_sel (d.record readBufMem 0))
  rw [cs_core, record_chip, Core.fetches_idle hd] at hcore₁
  have h₁ : d₁.Idle := by rw [Dev.Idle, hcore₁]; exact hd
  obtain ⟨c, hcore, hsel, heq⟩ := spi_idle env 0xFF h₁
  have hop : readBufMem ||| ((0 : Byte) &&& addrMask) = readBufMem := by decide
  rw [hsel₁, hop] at hsel
  show (spi1ReadWriteByte env 0xFF d₁).1 = _ ∧ (spi1ReadWriteByte env 0xFF d₁).2.cs.chip.core = _
  rw [heq, ← hcore₁, ← hcore]
  simp [Chip.exchange, hsel]

end Commands

/-! ## Registers written -/

/-- Register `r` changes with a write to `a`: `ERXWRPT` follows `ERXST`. -/
def reaches (a r : Byte) : Bool :=
  r == a || (a == erxstl && r == erxwrptl) || (a == erxsth && r == erxwrpth)

namespace Core

/-- A pointer takes 13 bits of the number written to its two registers. -/
theorem ptr_eq (p : Nat) :
    (BitVec.ofNat 8 p).toNat + 256 * ((BitVec.ofNat 8 (p / 256)).toNat % 32) = p % memSize := by
  simp only [BitVec.toNat_ofNat, memSize]
  omega

theorem ptr_setPtr (c : Core) {l h : Byte} (hne : l ≠ h) (p : Nat) :
    (c.setPtr l h p).ptr l h = p % memSize := by
  have hl : (c.setPtr l h p).reg l = BitVec.ofNat 8 p := by simp [setPtr, hne]
  have hh : (c.setPtr l h p).reg h = BitVec.ofNat 8 (p / 256) := by simp [setPtr]
  rw [ptr, hl, hh, ptr_eq]

theorem setPtr_reg (c : Core) {l h r : Byte} (hl : r ≠ l) (hh : r ≠ h) (p : Nat) :
    (c.setPtr l h p).reg r = c.reg r := by
  simp [setPtr, hl, hh]

theorem ptr_congr {c c' : Core} {l h : Byte} (hl : c'.reg l = c.reg l) (hh : c'.reg h = c.reg h) :
    c'.ptr l h = c.ptr l h := by
  rw [ptr, ptr, hl, hh]

theorem setReg_reg (c : Core) {a : Byte} (h1 : a ≠ econ1) (h2 : a ≠ econ2) (v r : Byte) :
    (c.setReg a v).reg r = if reaches a r then v else c.reg r := by
  simp only [setReg, if_neg h1, if_neg h2]
  by_cases hl : a = erxstl
  · have hne : erxstl ≠ erxsth := by decide
    by_cases hw : r = erxwrptl <;>
      simp [hl, reaches, hne, hw, Function.update_apply]
  · by_cases hh : a = erxsth
    · by_cases hw : r = erxwrpth <;>
        simp [hh, reaches, hw, Function.update_apply, hh ▸ hl]
    · simp [hl, hh, reaches, Function.update_apply]

@[simp] theorem setReg_mem (c : Core) (a v : Byte) : (c.setReg a v).mem = c.mem := by
  simp only [setReg]
  split_ifs <;> rfl

@[simp] theorem setReg_wire (c : Core) (a v : Byte) : (c.setReg a v).wire = c.wire := by
  simp only [setReg]
  split_ifs <;> rfl

@[simp] theorem setReg_log (c : Core) (a v : Byte) :
    (c.setReg a v).log = c.log ++ [Write.reg a c.txrts] := by
  simp only [setReg]
  split_ifs <;> rfl

theorem setReg_fetched_of_ne (c : Core) {a : Byte} (h : a ≠ econ1) (v : Byte) :
    (c.setReg a v).fetched = c.fetched := by
  simp only [setReg, if_neg h]
  split_ifs <;> rfl

/-- Only a write to `ECON1` changes `ECON1`. -/
theorem setReg_econ1_of_ne (c : Core) {a : Byte} (h : a ≠ Enc28j60.econ1) (v : Byte) :
    (c.setReg a v).reg Enc28j60.econ1 = c.reg Enc28j60.econ1 := by
  simp only [setReg, if_neg h]
  split_ifs <;> simp [Function.update_apply, Enc28j60.econ1, econ2, epktcnt, erxstl, erxsth,
    erxwrptl, erxwrpth]
  exact fun he => absurd he.symm h

theorem setReg_txrts_of_ne (c : Core) {a : Byte} (h : a ≠ Enc28j60.econ1) (v : Byte) :
    (c.setReg a v).txrts = c.txrts := by
  rw [txrts, setReg_econ1_of_ne c h, txrts]

end Core

/-! ## Bank switching -/

/-- The driver's idea of the selected bank is right. -/
def Dev.Coherent (d : Dev) : Prop := d.chip.core.bank = d.enc28j60Bank

/-- It is right where the driver relies on it to reach address `a`. -/
def Dev.CoherentAt (d : Dev) (a : Byte) : Prop :=
  d.enc28j60Bank = a &&& bankMask → d.chip.core.bank = a &&& bankMask

theorem Dev.Coherent.at {d : Dev} (h : d.Coherent) (a : Byte) : d.CoherentAt a := h.trans

/-- Addresses as `enc28j60.h` has them: a common register is in no bank. -/
def Named (a : Byte) : Prop := a &&& addrMask < eie ∨ a &&& 0xE0 = 0

instance (a : Byte) : Decidable (Named a) := inferInstanceAs (Decidable (_ ∨ _))

namespace Core

/-- Another bank is selected; `ECON1` is written for that, nothing else. -/
structure Rebanked (c c' : Core) : Prop where
  mem : c'.mem = c.mem
  fetched : c'.fetched = c.fetched
  wire : c'.wire = c.wire
  reg : ∀ r, r ≠ econ1 → c'.reg r = c.reg r
  econ1 : c'.reg econ1 &&& ~~~econ1Bsel = c.reg econ1 &&& ~~~econ1Bsel
  log : ∃ l, c'.log = c.log ++ l ∧ ∀ w ∈ l, w = Write.reg Enc28j60.econ1 c.txrts

theorem Rebanked.refl (c : Core) : c.Rebanked c :=
  ⟨rfl, rfl, rfl, fun _ _ => rfl, rfl, [], by simp⟩

/-- Two values that agree outside `t` agree in bits apart from `t`. -/
theorem and_eq_of_and_compl {m t v w : Byte} (hm : m &&& t = 0)
    (h : w &&& ~~~t = v &&& ~~~t) : w &&& m = v &&& m := by
  have hmask : ~~~t &&& m = m := by
    refine BitVec.eq_of_getLsbD_eq fun i hi => ?_
    have hbit : (m &&& t).getLsbD i = false := by rw [hm]; simp
    rw [BitVec.getLsbD_and] at hbit
    cases hmi : m.getLsbD i <;> simp_all
  rw [← hmask, ← BitVec.and_assoc, h, BitVec.and_assoc]

theorem Rebanked.txrts {c c' : Core} (h : c.Rebanked c') : c'.txrts = c.txrts := by
  simp only [Core.txrts, and_eq_of_and_compl (by decide : econ1Txrts &&& econ1Bsel = 0) h.econ1]

theorem Rebanked.rxen {c c' : Core} (h : c.Rebanked c') : c'.rxen = c.rxen := by
  simp only [Core.rxen, and_eq_of_and_compl (by decide : econ1Rxen &&& econ1Bsel = 0) h.econ1]

theorem index_eq {c : Core} {a : Byte} (hbank : c.bank = a &&& bankMask) (ha : Named a) :
    c.index (a &&& addrMask) = a &&& 0x7F := by
  rw [index, hbank]
  clear hbank
  revert a
  decide +kernel

/-- Writing `ECON1` without touching `TXRTS`. -/
theorem setReg_econ1 (c : Core) {v : Byte}
    (h : v &&& ~~~econ1Bsel = c.reg Enc28j60.econ1 &&& ~~~econ1Bsel) :
    c.Rebanked (c.setReg Enc28j60.econ1 v) := by
  have htx : v &&& econ1Txrts = c.reg Enc28j60.econ1 &&& econ1Txrts :=
    and_eq_of_and_compl (by decide) h
  refine ⟨rfl, ?_, rfl, fun r hr => ?_, ?_, [Write.reg Enc28j60.econ1 c.txrts], rfl, by simp⟩
  · simp only [setReg, if_true, htx, txrts]
    cases c.reg Enc28j60.econ1 &&& econ1Txrts != 0 <;> rfl
  · exact Function.update_of_ne hr v c.reg
  · simpa [setReg] using h

theorem Rebanked.trans {c c' c'' : Core} (h : c.Rebanked c') (h' : c'.Rebanked c'') :
    c.Rebanked c'' := by
  obtain ⟨l, hl, hw⟩ := h.log
  obtain ⟨l', hl', hw'⟩ := h'.log
  refine ⟨h'.mem.trans h.mem, h'.fetched.trans h.fetched, h'.wire.trans h.wire,
    fun r hr => (h'.reg r hr).trans (h.reg r hr), h'.econ1.trans h.econ1, l ++ l', ?_, ?_⟩
  · rw [hl', hl, List.append_assoc]
  · intro w hwl
    rcases List.mem_append.mp hwl with hwl | hwl
    · exact hw w hwl
    · rw [hw' w hwl, h.txrts]

end Core

/-- The bits of a bank number. -/
theorem bank_bits (b : Byte) : (b &&& bankMask) >>> 5 &&& ~~~econ1Bsel = 0 ∧
    ((b &&& bankMask) >>> 5 &&& econ1Bsel) <<< 5 = b &&& bankMask := by
  revert b
  decide +kernel

theorem setBank_spec (env : Env) {d : Dev} (hd : d.Idle) {b : Byte} (hc : d.CoherentAt b) :
    d.chip.core.Rebanked (setBank env b d).chip.core ∧
      (setBank env b d).chip.core.bank = b &&& bankMask ∧
      (setBank env b d).enc28j60Bank = b &&& bankMask ∧
      (setBank env b d).nextPacketPtr = d.nextPacketPtr := by
  unfold setBank
  split
  case isFalse h =>
    have hb : b &&& bankMask = d.enc28j60Bank := not_not.mp h
    exact ⟨Core.Rebanked.refl _, hc hb.symm, hb.symm, rfl⟩
  case isTrue =>
    let d₁ := writeOp env bitFieldClr econ1 econ1Bsel d
    have h₁ : d₁.chip.core = d.chip.core.setReg econ1 (d.chip.core.reg econ1 &&& ~~~econ1Bsel) :=
      writeOp_bitClr env hd econ1 econ1Bsel rfl
    have hr₁ : d.chip.core.Rebanked d₁.chip.core := by
      rw [h₁]
      refine Core.setReg_econ1 _ ?_
      rw [BitVec.and_assoc, BitVec.and_self]
    have hd₁ : d₁.Idle := hr₁.txrts.trans hd
    let d₂ := writeOp env bitFieldSet econ1 ((b &&& bankMask) >>> 5) d₁
    have h₂ : d₂.chip.core = d₁.chip.core.setReg econ1
        (d₁.chip.core.reg econ1 ||| ((b &&& bankMask) >>> 5)) :=
      writeOp_bitSet env hd₁ econ1 _ rfl
    have hr₂ : d₁.chip.core.Rebanked d₂.chip.core := by
      rw [h₂]
      refine Core.setReg_econ1 _ ?_
      rw [BitVec.and_or_distrib_right, (bank_bits b).1]
      simp
    refine ⟨hr₁.trans hr₂, ?_, rfl, by simp⟩
    show (d₂.chip.core.reg econ1 &&& econ1Bsel) <<< 5 = _
    have he₁ : d₁.chip.core.reg econ1 = d.chip.core.reg econ1 &&& ~~~econ1Bsel := by
      simp [h₁, Core.setReg]
    have he₂ : d₂.chip.core.reg econ1 =
        d.chip.core.reg econ1 &&& ~~~econ1Bsel ||| (b &&& bankMask) >>> 5 := by
      simp [h₂, he₁, Core.setReg]
    have hclr : ~~~econ1Bsel &&& econ1Bsel = 0 := by decide
    rw [he₂, BitVec.and_or_distrib_right, BitVec.and_assoc, hclr]
    simpa using (bank_bits b).2

theorem write_bank (env : Env) (a v : Byte) (d : Dev) :
    (write env a v d).enc28j60Bank = a &&& bankMask := by
  unfold write setBank
  split
  case isTrue => simp
  case isFalse h => simpa using (not_not.mp h).symm

section Registers

variable (env : Env) {d : Dev} (hd : d.Idle) {a : Byte} (hc : d.CoherentAt a) (ha : Named a)
include hd hc ha

/-- **`ENC28J60_Write`** reaches the register it names. -/
theorem write_spec (v : Byte) :
    ∃ c, d.chip.core.Rebanked c ∧ c.bank = a &&& bankMask ∧
      (write env a v d).chip.core = c.setReg (a &&& 0x7F) v ∧
      (write env a v d).nextPacketPtr = d.nextPacketPtr := by
  obtain ⟨hr, hbank, hdrv, hnext⟩ := setBank_spec env hd hc
  have hidle : (setBank env a d).Idle := hr.txrts.trans hd
  refine ⟨(setBank env a d).chip.core, hr, hbank, ?_, ?_⟩
  · rw [write, writeOp_writeCtrl env hidle, Core.index_eq hbank ha]
  · rw [write, writeOp_next, hnext]

/-- Without a change of bank nothing else is sent. -/
theorem write_same (hb : d.enc28j60Bank = a &&& bankMask) (v : Byte) :
    (write env a v d).chip.core = d.chip.core.setReg (a &&& 0x7F) v ∧
      (write env a v d).enc28j60Bank = d.enc28j60Bank ∧
      (write env a v d).nextPacketPtr = d.nextPacketPtr := by
  have hset : setBank env a d = d := by simp [setBank, hb]
  refine ⟨?_, ?_, ?_⟩
  · rw [write, hset, writeOp_writeCtrl env hd, Core.index_eq (hc hb) ha]
  · rw [write, hset, writeOp_bank]
  · rw [write, hset, writeOp_next]

/-- **`ENC28J60_Read`** reads the register it names. -/
theorem read_spec (hmac : Core.isMac (a &&& 0x7F) = true → a &&& 0x80 ≠ 0) :
    d.chip.core.Rebanked (read env a d).2.chip.core ∧
      (read env a d).2.chip.core.bank = a &&& bankMask ∧
      (read env a d).2.enc28j60Bank = a &&& bankMask ∧
      (read env a d).2.nextPacketPtr = d.nextPacketPtr ∧
      (a &&& 0x7F ≠ estat → a &&& 0x7F ≠ mistat &&& 0x7F → a &&& 0x7F ≠ econ1 →
        (read env a d).1 = d.chip.core.reg (a &&& 0x7F)) := by
  obtain ⟨hr, hbank, hdrv, hnext⟩ := setBank_spec env hd hc
  have hidle : (setBank env a d).Idle := hr.txrts.trans hd
  obtain ⟨c, ss, hcore, hfin, hval⟩ := readOp_spec env a (setBank env a d)
  rw [Core.fetches_idle hidle] at hcore
  rw [hcore, Core.index_eq hbank ha] at hval
  refine ⟨?_, ?_, ?_, ?_, fun h1 h2 h3 => ?_⟩
  · rw [read, hfin, hcore]
    exact hr
  · rw [read, hfin, hcore]
    exact hbank
  · rw [read, readOp_bank, hdrv]
  · rw [read, readOp_next, hnext]
  · rw [read, hval hmac, Chip.readReg, if_neg h1, if_neg h2, hcore, hr.reg _ h3]

end Registers

/-! ## The buffer loops -/

/-- Bytes read from the buffer one after the other. -/
def Core.readMany : Nat → Core → List Byte × Core
  | 0, c => ([], c)
  | n + 1, c => (c.readNext.1 :: (readMany n c.readNext.2).1, (readMany n c.readNext.2).2)

/-- Bytes put into a buffer of the driver's caller from index `i` on. -/
def putAt : (Nat → Byte) → Nat → List Byte → Nat → Byte
  | data, _, [] => data
  | data, i, b :: bs => putAt (Function.update data i b) (i + 1) bs

section Buffers

variable (env : Env)

/-- Bytes written to the buffer. -/
theorem writeBufLoop_core (bs : List Byte) {n : Nat} {d : Dev} (hd : d.Idle)
    (hsel : d.chip.sel = some (writeBufMem, n)) :
    (writeBufLoop env bs d).chip.core = bs.foldl Core.writeNext d.chip.core := by
  induction bs generalizing d n with
  | nil => rfl
  | cons b bs ih =>
    obtain ⟨c, hcore, hcsel, heq⟩ := spi_idle env b hd
    rw [hsel] at hcsel
    have hne : writeBufMem ≠ readBufMem := by decide
    have hchip : (spi1ReadWriteByte env b d).2.chip =
        { c with core := d.chip.core.writeNext b, sel := some (writeBufMem, n + 1) } := by
      simp [heq, Chip.exchange, hcsel, hne, hcore]
    rw [writeBufLoop, List.foldl_cons, ih ?_ (by rw [hchip]), hchip]
    rw [Dev.Idle, hchip]
    exact hd

theorem writeBuf_core (bs : List Byte) {d : Dev} (hd : d.Idle) :
    (writeBuf env bs d).chip.core = bs.foldl Core.writeNext d.chip.core := by
  obtain ⟨ss, hcore, hsel⟩ := spi_command env (b := writeBufMem) (by decide) (cs_sel d)
  rw [cs_core, Core.fetches_idle hd] at hcore
  show (writeBufLoop env bs (spi1ReadWriteByte env writeBufMem d.cs).2).chip.core = _
  rw [writeBufLoop_core env bs (by rw [Dev.Idle, hcore]; exact hd) hsel, hcore]

/-- Bytes read from the buffer. -/
theorem readBufLoop_spec (len i : Nat) (data : Nat → Byte) {n : Nat} {d : Dev} (hd : d.Idle)
    (hsel : d.chip.sel = some (readBufMem, n)) :
    (readBufLoop env len i data d).1 =
        Function.update (putAt data i (d.chip.core.readMany len).1) (i + len) 0 ∧
      (readBufLoop env len i data d).2.chip.core = (d.chip.core.readMany len).2 := by
  induction len generalizing i data d n with
  | zero => exact ⟨rfl, rfl⟩
  | succ len ih =>
    obtain ⟨c, hcore, hcsel, heq⟩ := spi_idle env 0 hd
    rw [hsel] at hcsel
    have hval : (spi1ReadWriteByte env 0 d).1 = d.chip.core.readNext.1 := by
      rw [heq]
      simp [Chip.exchange, hcsel, hcore]
    have hchip : (spi1ReadWriteByte env 0 d).2.chip =
        { c with core := d.chip.core.readNext.2, sel := some (readBufMem, n + 1) } := by
      rw [heq]
      simp [Chip.exchange, hcsel, hcore]
    have hidle : (spi1ReadWriteByte env 0 d).2.Idle := by
      rw [Dev.Idle, hchip]
      exact hd
    obtain ⟨h1, h2⟩ := ih (i + 1) (Function.update data i d.chip.core.readNext.1) hidle
      (by rw [hchip])
    rw [hchip] at h1 h2
    rw [← hval] at h1 h2
    refine ⟨Eq.trans h1 ?_, h2⟩
    rw [Nat.add_right_comm, Nat.add_assoc i len 1, hval]
    rfl

theorem readBuf_spec (len : BitVec 32) (data : Nat → Byte) {d : Dev} (hd : d.Idle) :
    (readBuf env len data d).1 =
        Function.update (putAt data 0 (d.chip.core.readMany len.toNat).1) len.toNat 0 ∧
      (readBuf env len data d).2.chip.core = (d.chip.core.readMany len.toNat).2 := by
  obtain ⟨ss, hcore, hsel⟩ := spi_command env (b := readBufMem) (by decide) (cs_sel d)
  rw [cs_core, Core.fetches_idle hd] at hcore
  obtain ⟨h1, h2⟩ := readBufLoop_spec env len.toNat 0 data (by rw [Dev.Idle, hcore]; exact hd) hsel
  rw [hcore, Nat.zero_add] at h1
  rw [hcore] at h2
  exact ⟨h1, h2⟩

end Buffers

section Fields

variable (env : Env)

theorem writeBufLoop_fields (bs : List Byte) (d : Dev) :
    (writeBufLoop env bs d).enc28j60Bank = d.enc28j60Bank ∧
      (writeBufLoop env bs d).nextPacketPtr = d.nextPacketPtr := by
  induction bs generalizing d with
  | nil => exact ⟨rfl, rfl⟩
  | cons b bs ih => exact ih _

theorem writeBuf_bank (bs : List Byte) (d : Dev) :
    (writeBuf env bs d).enc28j60Bank = d.enc28j60Bank :=
  (writeBufLoop_fields env bs (spi1ReadWriteByte env writeBufMem d.cs).2).1

theorem readBufLoop_fields (len i : Nat) (data : Nat → Byte) (d : Dev) :
    (readBufLoop env len i data d).2.enc28j60Bank = d.enc28j60Bank ∧
      (readBufLoop env len i data d).2.nextPacketPtr = d.nextPacketPtr := by
  induction len generalizing i data d with
  | zero => exact ⟨rfl, rfl⟩
  | succ len ih => exact ih _ _ _

theorem readBuf_fields (len : BitVec 32) (data : Nat → Byte) (d : Dev) :
    (readBuf env len data d).2.enc28j60Bank = d.enc28j60Bank ∧
      (readBuf env len data d).2.nextPacketPtr = d.nextPacketPtr :=
  readBufLoop_fields env len.toNat 0 data (spi1ReadWriteByte env readBufMem d.cs).2

end Fields

end MqttDevice.Enc28j60
