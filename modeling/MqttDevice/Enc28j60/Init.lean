import Mathlib.Data.Bool.AllAny
import MqttDevice.Enc28j60.Access

/-!
# Starting the ENC28J60 (`ENC28J60_Init`)

* `writes_spec`: what a list of register writes leaves in the registers;
* `init_spec`: from every state of chip and driver, `ENC28J60_Init` ends either
  with the receive ring and the transmit area set up and reception on, or, when
  the clock does not get ready, with a reset chip that receives nothing;
* `init_programs`: all registers get their values but `MACON3`, which is written
  with a bit-field command that MAC registers do not know.
-/

namespace MqttDevice.Enc28j60

open MqttDevice.Ascii MqttDevice.Ring
open MqttDevice.Enc28j60.Core (memSize)

/-- A register after some writes. -/
def valueAfter (ws : List (Byte × Byte)) (r v : Byte) : Byte :=
  ws.foldl (fun v w => if reaches (w.1 &&& 0x7F) r then w.2 else v) v

/-- Writes that do not reach a register leave it alone. -/
theorem valueAfter_of_forall {ws : List (Byte × Byte)} {r : Byte}
    (h : ∀ a ∈ ws.map Prod.fst, reaches (a &&& 0x7F) r = false) (v : Byte) :
    valueAfter ws r v = v := by
  induction ws with
  | nil => rfl
  | cons w ws ih =>
    have hw : reaches (w.1 &&& 0x7F) r = false := h w.1 List.mem_cons_self
    have hrest := ih fun a ha => h a (List.mem_cons_of_mem w.1 ha)
    rw [valueAfter, List.foldl_cons, hw]
    exact hrest

/-- No write to one of the addresses reaches the register. -/
def spares (as : List Byte) (r : Byte) : Bool := as.all fun a => !reaches (a &&& 0x7F) r

theorem reaches_of_spares {as : List Byte} {r : Byte} (h : spares as r = true) :
    ∀ a ∈ as, reaches (a &&& 0x7F) r = false := by
  intro a ha
  have hno := List.all_eq_true.mp h a ha
  rwa [Bool.not_eq_true'] at hno

/-- The last write that reaches a register decides. -/
theorem valueAfter_getElem {ws : List (Byte × Byte)} {r : Byte} {i : Nat} {w : Byte × Byte}
    (hw : ws[i]? = some w) (hr : reaches (w.1 &&& 0x7F) r = true)
    (hrest : ∀ a ∈ (ws.map Prod.fst).drop (i + 1), reaches (a &&& 0x7F) r = false) (v : Byte) :
    valueAfter ws r v = w.2 := by
  obtain ⟨hi, hget⟩ := List.getElem?_eq_some_iff.mp hw
  have hsplit : ws = ws.take i ++ w :: ws.drop (i + 1) := by
    rw [← hget, List.cons_getElem_drop_succ, List.take_append_drop]
  rw [← List.map_drop] at hrest
  rw [hsplit, valueAfter, List.foldl_append, List.foldl_cons, hr]
  exact valueAfter_of_forall hrest w.2

/-- `d'` is `d` after writes to registers, with a quiet transmitter and the
right bank. -/
structure After (ws : List (Byte × Byte)) (d d' : Dev) : Prop where
  idle : d'.Idle
  coherent : d'.Coherent
  next : d'.nextPacketPtr = d.nextPacketPtr
  mem : d'.chip.core.mem = d.chip.core.mem
  econ1 : d'.chip.core.reg econ1 &&& ~~~econ1Bsel = d.chip.core.reg econ1 &&& ~~~econ1Bsel
  reg : ∀ r, r ≠ Enc28j60.econ1 →
    d'.chip.core.reg r = valueAfter ws r (d.chip.core.reg r)

theorem After.trans {ws ws' : List (Byte × Byte)} {d d' d'' : Dev} (h : After ws d d')
    (h' : After ws' d' d'') : After (ws ++ ws') d d'' where
  idle := h'.idle
  coherent := h'.coherent
  next := h'.next.trans h.next
  mem := h'.mem.trans h.mem
  econ1 := h'.econ1.trans h.econ1
  reg r hr := by rw [h'.reg r hr, h.reg r hr, valueAfter, valueAfter, valueAfter, List.foldl_append]

/-- Registers that no write reaches. -/
theorem After.keep {ws : List (Byte × Byte)} {d d' : Dev} (h : After ws d d') {r : Byte}
    (hr : r ≠ Enc28j60.econ1) (hws : ∀ a ∈ ws.map Prod.fst, reaches (a &&& 0x7F) r = false) :
    d'.chip.core.reg r = d.chip.core.reg r := by
  rw [h.reg r hr, valueAfter_of_forall hws]

/-- An address that `ENC28J60_Write` can be used with for a plain register. -/
def Plain (a : Byte) : Prop := Named a ∧ a &&& 0x7F ≠ econ1 ∧ a &&& 0x7F ≠ econ2

instance (a : Byte) : Decidable (Plain a) := inferInstanceAs (Decidable (_ ∧ _ ∧ _))

theorem phyWait_succ (env : Env) (retry : Nat) (d : Dev) :
    phyWait env (retry + 1) d =
      if (read env mistat d).1 &&& mistatBusy ≠ 0 then phyWait env retry (read env mistat d).2
      else (read env mistat d).2 := rfl

theorem clkWait_succ (env : Env) (retry : Nat) (d : Dev) :
    clkWait env (retry + 1) d =
      if (read env estat d).1 &&& estatClkrdy = 0 then clkWait env retry (read env estat d).2
      else (true, (read env estat d).2) := rfl

section Steps

variable (env : Env) {d : Dev} (hd : d.Idle)
include hd

theorem write_after {a : Byte} (hc : d.CoherentAt a) (ha : Plain a) (v : Byte) :
    After [(a, v)] d (write env a v d) := by
  obtain ⟨hnamed, h1, h2⟩ := ha
  obtain ⟨c, hr, hbank, hcore, hnext⟩ := write_spec env hd hc hnamed v
  have he : (write env a v d).chip.core.reg econ1 = c.reg econ1 := by
    rw [hcore, Core.setReg_econ1_of_ne c h1]
  refine ⟨?_, ?_, hnext, ?_, ?_, fun r hr1 => ?_⟩
  · rw [Dev.Idle, Core.txrts, he]
    exact hr.txrts.trans hd
  · rw [Dev.Coherent, write_bank, ← hbank, Core.bank, he]
    rfl
  · rw [hcore, Core.setReg_mem, hr.mem]
  · rw [he, hr.econ1]
  · rw [hcore, Core.setReg_reg c h1 h2, hr.reg r hr1]
    rfl

theorem read_after {a : Byte} (hc : d.CoherentAt a) (ha : Named a)
    (hmac : Core.isMac (a &&& 0x7F) = true → a &&& 0x80 ≠ 0) :
    After [] d (read env a d).2 := by
  obtain ⟨hr, hbank, hdrv, hnext, -⟩ := read_spec env hd hc ha hmac
  exact ⟨hr.txrts.trans hd, hbank.trans hdrv.symm, hnext, hr.mem, hr.econ1, hr.reg⟩

theorem writes_after (hc : d.Coherent) (ws : List (Byte × Byte))
    (hws : ∀ a ∈ ws.map Prod.fst, Plain a) :
    After ws d (writes env ws d) := by
  induction ws generalizing d with
  | nil => exact ⟨hd, hc, rfl, rfl, rfl, fun _ _ => rfl⟩
  | cons w ws ih =>
    have h := write_after env hd (hc.at w.1) (hws w.1 List.mem_cons_self) w.2
    exact h.trans (ih h.idle h.coherent fun a ha => hws a (List.mem_cons_of_mem w.1 ha))

theorem phyWait_after (hc : d.Coherent) (retry : Nat) : After [] d (phyWait env retry d) := by
  induction retry generalizing d with
  | zero => exact read_after env hd (hc.at mistat) (by decide) (by decide)
  | succ retry ih =>
    have h := read_after env hd (hc.at mistat) (by decide) (by decide)
    rw [phyWait_succ]
    split
    · exact h.trans (ih h.idle h.coherent)
    · exact h

theorem clkWait_after (hc : d.CoherentAt estat) (retry : Nat) :
    After [] d (clkWait env retry d).2 := by
  induction retry generalizing d with
  | zero => exact read_after env hd hc (by decide) (by decide)
  | succ retry ih =>
    have h := read_after env hd hc (by decide) (by decide)
    rw [clkWait_succ]
    split
    · exact h.trans (ih h.idle (h.coherent.at estat))
    · exact h

end Steps

/-! ## Single commands of `ENC28J60_Init` -/

section Commands

variable (env : Env) {d : Dev} (hd : d.Idle) (hc : d.Coherent)
include hd hc

/-- A bit-field command to a MAC register changes nothing. -/
theorem macon3_after (hb : d.enc28j60Bank = macon3 &&& bankMask) (v : Byte) :
    After [] d (writeOp env bitFieldSet macon3 v d) := by
  have hcore : (writeOp env bitFieldSet macon3 v d).chip.core = d.chip.core := by
    refine writeOp_bitSet_mac env hd macon3 v ?_
    rw [Core.index_eq (hc.trans hb) (by decide)]
    rfl
  refine ⟨?_, ?_, writeOp_next .., ?_, ?_, fun r _ => ?_⟩
  · rw [Dev.Idle, hcore]; exact hd
  · rw [Dev.Coherent, hcore, writeOp_bank]; exact hc
  · rw [hcore]
  · rw [hcore]
  · rw [hcore]; rfl

theorem eie_after (v : Byte) :
    After [(eie, d.chip.core.reg eie ||| v)] d (writeOp env bitFieldSet eie v d) := by
  have hcore : (writeOp env bitFieldSet eie v d).chip.core =
      d.chip.core.setReg eie (d.chip.core.reg eie ||| v) := writeOp_bitSet env hd eie v rfl
  have he := Core.setReg_econ1_of_ne d.chip.core (by decide : eie ≠ econ1)
    (d.chip.core.reg eie ||| v)
  refine ⟨?_, ?_, writeOp_next .., ?_, ?_, fun r _ => ?_⟩
  · rw [Dev.Idle, hcore, Core.txrts, he]; exact hd
  · rw [Dev.Coherent, hcore, writeOp_bank, Core.bank, he]; exact hc
  · rw [hcore, Core.setReg_mem]
  · rw [hcore, he]
  · have hno : eie &&& 0x7F = eie := by decide
    rw [hcore, Core.setReg_reg _ (by decide) (by decide), valueAfter, List.foldl_cons, hno]
    rfl

/-- Reception is turned on. -/
theorem rxen_spec :
    let d' := writeOp env bitFieldSet econ1 econ1Rxen d
    d'.Idle ∧ d'.Coherent ∧ d'.chip.core.rxen = true ∧
      ∀ r, r ≠ econ1 → d'.chip.core.reg r = d.chip.core.reg r := by
  intro d'
  have hcore : d'.chip.core =
      d.chip.core.setReg econ1 (d.chip.core.reg econ1 ||| econ1Rxen) :=
    writeOp_bitSet env hd econ1 econ1Rxen rfl
  have he : d'.chip.core.reg econ1 = d.chip.core.reg econ1 ||| econ1Rxen := by
    rw [hcore, Core.setReg]
    simp
  have hbits (x : Byte) : (x ||| econ1Rxen) &&& econ1Txrts = x &&& econ1Txrts ∧
      (x ||| econ1Rxen) &&& econ1Bsel = x &&& econ1Bsel ∧
      (x ||| econ1Rxen) &&& econ1Rxen ≠ 0 := by
    revert x
    decide +kernel
  obtain ⟨htx, hbs, hrx⟩ := hbits (d.chip.core.reg econ1)
  refine ⟨?_, ?_, ?_, fun r hr => ?_⟩
  · rw [Dev.Idle, Core.txrts, he, htx]; exact hd
  · rw [Dev.Coherent, Core.bank, he, hbs, writeOp_bank]; exact hc
  · simpa [Core.rxen, he] using hrx
  · rw [hcore]
    exact Function.update_of_ne hr ..

end Commands

/-! ## `ENC28J60_Init` -/

/-- The register writes of `ENC28J60_PHY_Write`. -/
def phyRegs (addr : Byte) (data : BitVec 32) : List (Byte × Byte) :=
  [(miregadr, addr), (miwrl, data.setWidth 8), (miwrh, (data >>> 8).setWidth 8)]

theorem phyWrite_after (env : Env) {d : Dev} (hd : d.Idle) (hc : d.Coherent) (addr : Byte)
    (data : BitVec 32) : After (phyRegs addr data) d (phyWrite env addr data d) := by
  have hplain : ∀ a ∈ [miregadr, miwrl, miwrh], Plain a := by decide
  have h := writes_after env hd hc (phyRegs addr data) hplain
  have h' := h.trans (phyWait_after env h.idle h.coherent 0xFFF)
  rwa [List.append_nil] at h'

/-- All register writes of a successful `ENC28J60_Init` but those of `ECON1`. -/
def initAll (macaddr : Fin 6 → Byte) : List (Byte × Byte) :=
  initWrites ++ initMacWrites macaddr ++ phyRegs phcon1 0x0100 ++ phyRegs phcon2 0x0100 ++
    [(eie, 0x80 ||| 0x40)]

/-- The registers that `ENC28J60_Init` writes with `ENC28J60_Write`. -/
def initAddrs : List Byte :=
  [erxstl, erxsth, erxrdptl, erxrdpth, erxndl, erxndh, etxstl, etxsth, etxndl, etxndh,
    erxfcon, epmm0, epmm1, epmcsl, epmcsh, macon1, macon2, maipgl, maipgh, mabbipg, mamxfll,
    mamxflh, maadr5, maadr4, maadr3, maadr2, maadr1, maadr0,
    miregadr, miwrl, miwrh, miregadr, miwrl, miwrh]

theorem initWrites_map (macaddr : Fin 6 → Byte) :
    (initWrites ++ initMacWrites macaddr ++ phyRegs phcon1 0x0100 ++
      phyRegs phcon2 0x0100).map Prod.fst = initAddrs := rfl

theorem initAll_value (macaddr : Fin 6 → Byte) {r : Byte} {i : Nat} {a x : Byte}
    (hw : (initAll macaddr)[i]? = some (a, x)) (hr : reaches (a &&& 0x7F) r = true)
    (hrest : spares ((initAddrs ++ [eie]).drop (i + 1)) r = true) (v : Byte) :
    valueAfter (initAll macaddr) r v = x :=
  valueAfter_getElem hw hr (reaches_of_spares hrest) v

theorem initAll_other (macaddr : Fin 6 → Byte) {r : Byte}
    (h : spares (initAddrs ++ [eie]) r = true) (v : Byte) :
    valueAfter (initAll macaddr) r v = v :=
  have hmap : (initAll macaddr).map Prod.fst = initAddrs ++ [eie] := rfl
  valueAfter_of_forall (hmap ▸ reaches_of_spares h) v

/-- The state that a successful `ENC28J60_Init` leaves. -/
structure Started (macaddr : Fin 6 → Byte) (d : Dev) : Prop where
  idle : d.Idle
  coherent : d.Coherent
  next : d.nextPacketPtr = BitVec.ofNat 32 rxstartInit
  rxen : d.chip.core.rxen = true
  reg : ∀ r, r ≠ econ1 → d.chip.core.reg r = valueAfter (initAll macaddr) r (resetReg r)

/-- The state after an `ENC28J60_Init` that gave up: a reset chip. -/
structure Stopped (d : Dev) : Prop where
  idle : d.Idle
  coherent : d.Coherent
  rxen : d.chip.core.rxen = false
  reg : ∀ r, r ≠ econ1 → d.chip.core.reg r = resetReg r

/-- The driver has reset the chip by its pin and by command. -/
theorem reset_spec (env : Env) (d : Dev) :
    let d' := writeOp env softReset 0 softReset d.rst
    d'.Idle ∧ d'.CoherentAt estat ∧ ∀ r, d'.chip.core.reg r = resetReg r := by
  intro d'
  have hidle : d.rst.Idle := (by decide : (resetReg econ1 &&& econ1Txrts != 0) = false)
  have hcore : d'.chip.core = { d.rst.chip.core with reg := resetReg, fetched := [] } :=
    writeOp_softReset env hidle
  refine ⟨?_, fun _ => ?_, fun r => ?_⟩
  · rw [Dev.Idle, hcore]
    exact hidle
  · rw [hcore]
    exact (by decide : (resetReg econ1 &&& econ1Bsel) <<< 5 = estat &&& bankMask)
  · rw [hcore]

/-- From a reset chip all registers get their values. -/
theorem initRegs_spec (env : Env) (macaddr : Fin 6 → Byte) {d : Dev} (hd : d.Idle)
    (hc : d.Coherent) (hreg : ∀ r, r ≠ econ1 → d.chip.core.reg r = resetReg r) :
    Started macaddr (initRegs env macaddr d) := by
  let d₀ : Dev := { d with nextPacketPtr := BitVec.ofNat 32 rxstartInit }
  let d₁ := writes env initWrites d₀
  have h₁ : After initWrites d₀ d₁ :=
    writes_after env (d := d₀) hd hc initWrites (List.all_iff_forall_prop.mp (by decide))
  have hb₁ : d₁.enc28j60Bank = macon3 &&& bankMask :=
    write_bank env macon2 0x00 (writes env initWrites.dropLast d₀)
  let d₂ := writeOp env bitFieldSet macon3 (0x20 ||| 0x10 ||| 0x02 ||| 0x01) d₁
  have h₂ : After [] d₁ d₂ := macon3_after env h₁.idle h₁.coherent hb₁ _
  let d₃ := writes env (initMacWrites macaddr) d₂
  have hplain : ∀ a ∈ [maipgl, maipgh, mabbipg, mamxfll, mamxflh, maadr5, maadr4, maadr3,
    maadr2, maadr1, maadr0], Plain a := List.all_iff_forall_prop.mp (by decide)
  have h₃ : After (initMacWrites macaddr) d₂ d₃ :=
    writes_after env h₂.idle h₂.coherent (initMacWrites macaddr) hplain
  let d₄ := phyWrite env phcon1 0x0100 d₃
  have h₄ : After (phyRegs phcon1 0x0100) d₃ d₄ := phyWrite_after env h₃.idle h₃.coherent _ _
  let d₅ := phyWrite env phcon2 0x0100 d₄
  have h₅ : After (phyRegs phcon2 0x0100) d₄ d₅ := phyWrite_after env h₄.idle h₄.coherent _ _
  let d₆ := setBank env econ1 d₅
  have h₆ : After [] d₅ d₆ := by
    obtain ⟨hr, hbank, hdrv, hnext⟩ := setBank_spec env h₅.idle (h₅.coherent.at econ1)
    exact ⟨hr.txrts.trans h₅.idle, hbank.trans hdrv.symm, hnext, hr.mem, hr.econ1, hr.reg⟩
  have hall := ((((h₁.trans h₂).trans h₃).trans h₄).trans h₅).trans h₆
  simp only [List.append_nil] at hall
  have hno : ∀ a ∈ initAddrs, reaches (a &&& 0x7F) eie = false := reaches_of_spares rfl
  have heie : d₆.chip.core.reg eie = 0 := by
    rw [hall.reg eie (by decide), valueAfter_of_forall ((initWrites_map macaddr).symm ▸ hno)]
    exact hreg eie (by decide)
  have h₇ := hall.trans (eie_after env h₆.idle h₆.coherent (0x80 ||| 0x40))
  rw [heie, show (0 : Byte) ||| (0x80 ||| 0x40) = 0x80 ||| 0x40 from rfl] at h₇
  obtain ⟨hidle, hco, hrx, hreg₈⟩ := rxen_spec env h₇.idle h₇.coherent
  refine ⟨hidle, hco, ?_, hrx, fun r hr => ?_⟩
  · exact (writeOp_next ..).trans h₇.next
  · rw [← hreg r hr]
    exact (hreg₈ r hr).trans (h₇.reg r hr)

/-- The chip becomes ready within the retries of `ENC28J60_Init`. -/
def ClockReady (env : Env) (d : Dev) : Prop :=
  (clkWait env 250 (writeOp env softReset 0 softReset d.rst)).1 = true

instance (env : Env) (d : Dev) : Decidable (ClockReady env d) :=
  inferInstanceAs (Decidable (_ = true))

/-- The chip while `ENC28J60_Init` waits for its clock, and after. -/
theorem clkWait_spec (env : Env) (d : Dev) :
    let d' := (clkWait env 250 (writeOp env softReset 0 softReset d.rst)).2
    d'.Idle ∧ d'.Coherent ∧ d'.chip.core.rxen = false ∧
      ∀ r, r ≠ econ1 → d'.chip.core.reg r = resetReg r := by
  intro d'
  obtain ⟨hidle, hco, hreg⟩ := reset_spec env d
  have hwait := clkWait_after env hidle hco 250
  have he := Core.and_eq_of_and_compl (by decide : econ1Rxen &&& econ1Bsel = 0) hwait.econ1
  refine ⟨hwait.idle, hwait.coherent, ?_, fun r hr => (hwait.reg r hr).trans (hreg r)⟩
  rw [Core.rxen, he, hreg]
  rfl

theorem init_of_ready (env : Env) (macaddr : Fin 6 → Byte) {d : Dev} (h : ClockReady env d) :
    (init env macaddr d).1 = 0 ∧ Started macaddr (init env macaddr d).2 := by
  obtain ⟨hidle, hco, -, hregs⟩ := clkWait_spec env d
  rw [ClockReady] at h
  rw [init]
  generalize clkWait env 250 (writeOp env softReset 0 softReset d.rst) = wait at h hidle hco hregs ⊢
  have hstart := initRegs_spec env macaddr hidle hco hregs
  have hcheck := read_after env hstart.idle (hstart.coherent.at maadr5) (by decide) (by decide)
  obtain ⟨-, -, -, -, hval⟩ :=
    read_spec env hstart.idle (hstart.coherent.at maadr5) (by decide) (by decide)
  have hmac : (read env maadr5 (initRegs env macaddr wait.2)).1 = macaddr 0 := by
    rw [hval (by decide) (by decide) (by decide), hstart.reg _ (by decide)]
    exact initAll_value macaddr (i := 22) rfl rfl rfl _
  have hrx := Core.and_eq_of_and_compl (by decide : econ1Rxen &&& econ1Bsel = 0) hcheck.econ1
  have hfin : Started macaddr (read env maadr5 (initRegs env macaddr wait.2)).2 := by
    refine ⟨hcheck.idle, hcheck.coherent, hcheck.next.trans hstart.next, ?_, fun r hr => ?_⟩
    · rw [Core.rxen, hrx]
      exact hstart.rxen
    · exact (hcheck.reg r hr).trans (hstart.reg r hr)
  simpa [h, hmac] using hfin

theorem init_of_not_ready (env : Env) (macaddr : Fin 6 → Byte) {d : Dev}
    (h : ¬ ClockReady env d) :
    (init env macaddr d).1 = 1 ∧ Stopped (init env macaddr d).2 := by
  obtain ⟨hidle, hco, hrx, hregs⟩ := clkWait_spec env d
  rw [ClockReady, Bool.not_eq_true] at h
  rw [init]
  generalize clkWait env 250 (writeOp env softReset 0 softReset d.rst) = wait
    at h hidle hco hrx hregs ⊢
  simpa [h] using (⟨hidle, hco, hrx, hregs⟩ : Stopped wait.2)

/-- **`ENC28J60_Init` from any state of chip and driver.** -/
theorem init_spec (env : Env) (macaddr : Fin 6 → Byte) (d : Dev) :
    ((init env macaddr d).1 = 0 ∧ Started macaddr (init env macaddr d).2) ∨
      ((init env macaddr d).1 = 1 ∧ Stopped (init env macaddr d).2) := by
  by_cases h : ClockReady env d
  · exact .inl (init_of_ready env macaddr h)
  · exact .inr (init_of_not_ready env macaddr h)

/-! ## The registers that are programmed -/

namespace Core

/-- The register with the address `a` of `enc28j60.h`. -/
def regAt (c : Core) (a : Byte) : Byte := c.reg (a &&& 0x7F)

end Core

/-- `PADCFG0 | TXCRCEN | FRMLNEN | FULDPX`. -/
def macon3Init : Byte := 0x20 ||| 0x10 ||| 0x02 ||| 0x01

/-- The registers that `ENC28J60_Init` means to program hold their values, `MACON3` apart. -/
structure Configured (macaddr : Fin 6 → Byte) (d : Dev) : Prop where
  erxst : d.chip.core.ptr erxstl erxsth = rxstartInit
  erxrdpt : d.chip.core.ptr erxrdptl erxrdpth = rxstartInit
  erxnd : d.chip.core.ptr erxndl erxndh = rxstopInit
  etxst : d.chip.core.ptr etxstl etxsth = txstartInit
  etxnd : d.chip.core.ptr etxndl etxndh = txstopInit
  erxfcon : d.chip.core.regAt erxfcon = 0x80 ||| 0x20 ||| 0x10
  pattern : [epmm0, epmm1, epmcsl, epmcsh].map d.chip.core.regAt = [0x3F, 0x30, 0xF9, 0xF7]
  macon1 : d.chip.core.regAt macon1 = 0x01 ||| 0x08 ||| 0x04
  macon2 : d.chip.core.regAt macon2 = 0x00
  gaps : [maipgl, maipgh, mabbipg].map d.chip.core.regAt = [0x12, 0x0C, 0x15]
  mamxfl : (d.chip.core.regAt mamxfll).toNat + 256 * (d.chip.core.regAt mamxflh).toNat = maxFramelen
  maadr : [maadr5, maadr4, maadr3, maadr2, maadr1, maadr0].map d.chip.core.regAt =
    List.ofFn macaddr
  eie : d.chip.core.reg Enc28j60.eie = 0x80 ||| 0x40
  rxen : d.chip.core.rxen = true
  next : d.nextPacketPtr = BitVec.ofNat 32 rxstartInit

/-- All of them do. -/
structure Programmed (macaddr : Fin 6 → Byte) (d : Dev) : Prop extends Configured macaddr d where
  macon3 : d.chip.core.regAt macon3 = macon3Init

/-- The last write of `ENC28J60_Init` to a register is number `i`. -/
theorem Started.regAt {macaddr : Fin 6 → Byte} {d : Dev} (h : Started macaddr d) {a x : Byte}
    (i : Nat) (hw : (initAll macaddr)[i]? = some (a, x))
    (hr : reaches (a &&& 0x7F) (a &&& 0x7F) = true) (hne : (a &&& 0x7F != econ1) = true)
    (hrest : spares ((initAddrs ++ [eie]).drop (i + 1)) (a &&& 0x7F) = true) :
    d.chip.core.regAt a = x := by
  rw [Core.regAt, h.reg _ (bne_iff_ne.mp hne)]
  exact initAll_value macaddr hw hr hrest _

/-- Two writes in a row program a pointer. -/
theorem Core.ptr_of_regAt {c : Core} {l h : Byte} {p : Nat} (hp : p < memSize)
    (hplain : l &&& 0x7F = l ∧ h &&& 0x7F = h) (hl : c.regAt l = lo p) (hh : c.regAt h = hi p) :
    c.ptr l h = p := by
  rw [Core.regAt, hplain.1] at hl
  rw [Core.regAt, hplain.2] at hh
  rw [Core.ptr, hl, hh]
  exact (Core.ptr_eq p).trans (Nat.mod_eq_of_lt hp)

/-- What is programmed, from any state: every register but `MACON3`, which the
bit-field command does not reach. -/
theorem Started.configured {macaddr : Fin 6 → Byte} {d : Dev} (h : Started macaddr d) :
    Configured macaddr d where
  erxst := Core.ptr_of_regAt (by decide) ⟨rfl, rfl⟩ (h.regAt 0 rfl rfl rfl rfl)
    (h.regAt 1 rfl rfl rfl rfl)
  erxrdpt := Core.ptr_of_regAt (by decide) ⟨rfl, rfl⟩ (h.regAt 2 rfl rfl rfl rfl)
    (h.regAt 3 rfl rfl rfl rfl)
  erxnd := Core.ptr_of_regAt (by decide) ⟨rfl, rfl⟩ (h.regAt 4 rfl rfl rfl rfl)
    (h.regAt 5 rfl rfl rfl rfl)
  etxst := Core.ptr_of_regAt (by decide) ⟨rfl, rfl⟩ (h.regAt 6 rfl rfl rfl rfl)
    (h.regAt 7 rfl rfl rfl rfl)
  etxnd := Core.ptr_of_regAt (by decide) ⟨rfl, rfl⟩ (h.regAt 8 rfl rfl rfl rfl)
    (h.regAt 9 rfl rfl rfl rfl)
  erxfcon := h.regAt 10 rfl rfl rfl rfl
  pattern := by
    simp only [List.map_cons, List.map_nil]
    rw [h.regAt 11 rfl rfl rfl rfl, h.regAt 12 rfl rfl rfl rfl, h.regAt 13 rfl rfl rfl rfl,
      h.regAt 14 rfl rfl rfl rfl]
  macon1 := h.regAt 15 rfl rfl rfl rfl
  macon2 := h.regAt 16 rfl rfl rfl rfl
  gaps := by
    simp only [List.map_cons, List.map_nil]
    rw [h.regAt 17 rfl rfl rfl rfl, h.regAt 18 rfl rfl rfl rfl, h.regAt 19 rfl rfl rfl rfl]
  mamxfl := by
    rw [h.regAt 20 rfl rfl rfl rfl, h.regAt 21 rfl rfl rfl rfl]
    rfl
  maadr := by
    have hmac : List.ofFn macaddr =
        [macaddr 0, macaddr 1, macaddr 2, macaddr 3, macaddr 4, macaddr 5] := rfl
    rw [hmac]
    simp only [List.map_cons, List.map_nil]
    rw [h.regAt 22 rfl rfl rfl rfl, h.regAt 23 rfl rfl rfl rfl, h.regAt 24 rfl rfl rfl rfl,
      h.regAt 25 rfl rfl rfl rfl, h.regAt 26 rfl rfl rfl rfl, h.regAt 27 rfl rfl rfl rfl]
  eie := h.regAt 34 rfl rfl rfl rfl
  rxen := h.rxen
  next := h.next

/-- No write gets to `MACON3`: it keeps its value after a reset. -/
theorem Started.macon3 {macaddr : Fin 6 → Byte} {d : Dev} (h : Started macaddr d) :
    d.chip.core.regAt macon3 = 0 := by
  rw [Core.regAt, h.reg _ (by decide), initAll_other macaddr rfl]
  rfl

theorem Started.not_programmed {macaddr : Fin 6 → Byte} {d : Dev} (h : Started macaddr d) :
    ¬ Programmed macaddr d := by
  intro hp
  have hzero : (0 : Byte) = macon3Init := h.macon3.symm.trans hp.macon3
  exact absurd hzero (by decide)

/-- **`ENC28J60_Init` never programs `MACON3`**, and all the rest always. -/
theorem init_programs (env : Env) (macaddr : Fin 6 → Byte) {d : Dev} (h : ClockReady env d) :
    Configured macaddr (init env macaddr d).2 ∧
      (init env macaddr d).2.chip.core.regAt macon3 = 0 ∧
      ¬ Programmed macaddr (init env macaddr d).2 := by
  have hstart := (init_of_ready env macaddr h).2
  exact ⟨hstart.configured, hstart.macon3, hstart.not_programmed⟩

/-- A device in the middle of something: bank 3 selected and cached, all bits set. -/
def staleDev : Dev where
  chip := ⟨⟨fun _ => 0xFF, fun _ => 0, [], [], []⟩, true, false, none⟩
  clock := 0
  enc28j60Bank := 0x60
  nextPacketPtr := 0xFFFF
  trace := []

theorem init_programs_staleDev :
    ClockReady readyEnv staleDev ∧
      (init readyEnv (fun _ => 0x35) staleDev).2.chip.core.regAt macon3 = 0 :=
  have hready : ClockReady readyEnv staleDev := by decide +kernel
  ⟨hready, (init_programs readyEnv (fun _ => 0x35) hready).2.1⟩

/-- Padding, CRC and full duplex are off in the MAC after a successful start. -/
theorem init_macon3_missed :
    ClockReady readyEnv staleDev ∧ (init readyEnv (fun _ => 0x35) staleDev).1 = 0 ∧
      ¬ Programmed (fun _ => 0x35) (init readyEnv (fun _ => 0x35) staleDev).2 := by
  have hready : ClockReady readyEnv staleDev := by decide +kernel
  obtain ⟨hret, hstart⟩ := init_of_ready readyEnv (fun _ => 0x35) hready
  exact ⟨hready, hret, hstart.not_programmed⟩

end MqttDevice.Enc28j60
