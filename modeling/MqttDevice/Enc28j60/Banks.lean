import MqttDevice.Enc28j60.Send
import MqttDevice.Lib.Runs

/-!
# The cached register bank (`ENC28J60BANK`)

The driver keeps the bank it selected last in `ENC28J60BANK` and switches only when an
address is in another one. `ENC28J60_Reset` and a write to `ECON1` change the bank of
the chip without it.

* `Reaches`: what an access of the driver does to the two, and the commands it sends;
* `banks_coherent_iff`: along every run each command finds its bank selected if and only
  if none relies on a cached bank that has become stale.
-/

namespace MqttDevice.Enc28j60

open MqttDevice.Ascii MqttDevice.Runs

/-! ## The bank of the chip -/

namespace Core

theorem bank_addrMask (c : Core) : c.bank &&& addrMask = 0#8 := by
  rw [bank]
  generalize c.reg Enc28j60.econ1 = x
  revert x
  decide +kernel

theorem index_econ1 (c : Core) : c.index Enc28j60.econ1 = Enc28j60.econ1 := if_neg (by decide)

/-- No other address means `ECON1`. -/
theorem index_ne_econ1 (c : Core) {a : Byte} (h : a &&& addrMask ≠ Enc28j60.econ1) :
    c.index (a &&& addrMask) ≠ Enc28j60.econ1 := by
  intro he
  unfold index at he
  split at he
  · have hlow := congrArg (· &&& addrMask) he
    have hself : Enc28j60.econ1 &&& addrMask = Enc28j60.econ1 := by decide
    simp only [BitVec.and_or_distrib_right, bank_addrMask, BitVec.zero_or, BitVec.and_assoc,
      BitVec.and_self, hself] at hlow
    exact h hlow
  · exact h he

theorem setReg_bank (c : Core) {a : Byte} (h : a ≠ Enc28j60.econ1) (v : Byte) :
    (c.setReg a v).bank = c.bank := by
  rw [bank, setReg_econ1_of_ne c h, bank]

theorem setReg_bank_econ1 (c : Core) (v : Byte) :
    (c.setReg Enc28j60.econ1 v).bank = (v &&& econ1Bsel) <<< 5 := by
  simp [setReg, bank]

theorem setPtr_bank (c : Core) {l h : Byte} (hl : Enc28j60.econ1 ≠ l) (hh : Enc28j60.econ1 ≠ h)
    (p : Nat) : (c.setPtr l h p).bank = c.bank := by
  rw [bank, setPtr_reg c hl hh, bank]

theorem readNext_bank (c : Core) : c.readNext.2.bank = c.bank :=
  setPtr_bank c (by decide) (by decide) _

theorem writeNext_bank (c : Core) (b : Byte) : (c.writeNext b).bank = c.bank :=
  setPtr_bank _ (by decide) (by decide) _

theorem receive_bank (c : Core) (p : RxPacket) : (c.receive p).bank = c.bank := by
  refine (setPtr_bank _ (by decide) (by decide) _).trans ?_
  show (Function.update c.reg epktcnt (c.reg epktcnt + 1) Enc28j60.econ1 &&& econ1Bsel) <<< 5 = _
  rw [Function.update_of_ne (by decide), bank]

theorem reset_bank {c : Core} (h : ∀ r, c.reg r = resetReg r) : c.bank = 0 := by
  rw [bank, h]
  decide

end Core

/-- The value that a command leaves in a register that holds `x`. -/
def combine (op x v : Byte) : Byte :=
  if op = bitFieldSet then x ||| v else if op = bitFieldClr then x &&& ~~~v else v

/-- A byte on the bus, with the bank that the chip had before it. -/
theorem spi_bank_spec (env : Env) (b : Byte) (d : Dev) :
    ∃ c : Chip, c.core.bank = d.chip.core.bank ∧ c.sel = d.chip.sel ∧
      spi1ReadWriteByte env b d =
        ((c.exchange b).1, { d with chip := (c.exchange b).2, clock := d.clock + 1 }) := by
  obtain ⟨c, ss, hcore, hsel, heq⟩ := spi_spec env b d
  exact ⟨c, by rw [hcore, Core.fetches_bank], hsel, heq⟩

/-- The data byte of a command that writes. -/
theorem writeOp_data (env : Env) {op a : Byte} (v : Byte) (d : Dev)
    (hop : (op ||| (a &&& addrMask)) ≠ softReset) :
    ∃ c : Chip, c.core.bank = d.chip.core.bank ∧ c.sel = some (op ||| (a &&& addrMask), 0) ∧
      (writeOp env op a v d).chip.core = (c.exchange v).2.core := by
  let d₁ := (spi1ReadWriteByte env (op ||| (a &&& addrMask)) (d.record op a).cs).2
  obtain ⟨ss, hcore₁, hsel₁⟩ := spi_command env hop (cs_sel (d.record op a))
  obtain ⟨c, hbank, hsel, heq⟩ := spi_bank_spec env v d₁
  refine ⟨c, ?_, hsel.trans hsel₁, ?_⟩
  · rw [hbank, hcore₁, Core.fetches_bank, cs_core, record_chip]
  · show (spi1ReadWriteByte env v d₁).2.cs.chip.core = _
    rw [heq]
    rfl

/-- The commands that write a control register. -/
def writeOps : List Byte := [writeCtrlReg, bitFieldSet, bitFieldClr]

theorem exchange_write {c : Chip} {op a : Byte} (hop : op ∈ writeOps) (v : Byte)
    (hsel : c.sel = some (op ||| (a &&& addrMask), 0)) :
    (c.exchange v).2.core =
      if op ≠ writeCtrlReg ∧ Core.isMac (c.core.index (a &&& addrMask)) = true then c.core
      else c.core.setReg (c.core.index (a &&& addrMask))
        (combine op (c.core.reg (c.core.index (a &&& addrMask))) v) := by
  obtain ⟨-, h2, h3, h4, h5⟩ := command_decode a op (List.mem_cons_of_mem _ hop)
  simp only [Chip.exchange, hsel, if_neg h2, if_neg h3, h4, h5]
  simp only [writeOps, List.mem_cons, List.not_mem_nil, or_false] at hop
  cases hmac : Core.isMac (c.core.index (a &&& addrMask)) with
  | false =>
    rcases hop with rfl | rfl | rfl
    · rfl
    · rfl
    · rfl
  | true =>
    rcases hop with rfl | rfl | rfl
    · rfl
    · rfl
    · rfl

/-- A command to a register other than `ECON1` leaves the bank alone. -/
theorem writeOp_core_bank (env : Env) {op a : Byte} (v : Byte) (d : Dev) (hop : op ∈ writeOps)
    (ha : a &&& addrMask ≠ econ1) :
    (writeOp env op a v d).chip.core.bank = d.chip.core.bank := by
  obtain ⟨h1, -⟩ := command_decode a op (List.mem_cons_of_mem _ hop)
  obtain ⟨c, hbank, hsel, hcore⟩ := writeOp_data env v d h1
  rw [hcore, exchange_write hop v hsel, ← hbank]
  split
  · rfl
  · exact Core.setReg_bank _ (c.core.index_ne_econ1 ha) _

/-- A command to `ECON1` selects a bank. -/
theorem writeOp_econ1_bank (env : Env) {op a : Byte} (v : Byte) (d : Dev) (hop : op ∈ writeOps)
    (ha : a &&& addrMask = econ1) : ∃ c : Core, c.bank = d.chip.core.bank ∧
      (writeOp env op a v d).chip.core.bank = (combine op (c.reg econ1) v &&& econ1Bsel) <<< 5 := by
  obtain ⟨h1, -⟩ := command_decode a op (List.mem_cons_of_mem _ hop)
  obtain ⟨c, hbank, hsel, hcore⟩ := writeOp_data env v d h1
  refine ⟨c.core, hbank, ?_⟩
  rw [hcore, exchange_write hop v hsel, ha, Core.index_econ1, if_neg (fun h => nomatch h.2),
    Core.setReg_bank_econ1]

/-! ## Commands that find their bank -/

/-- A command to a register that is not common goes to the bank of its address. -/
def Aligned (x : CtrlAccess) : Prop :=
  x.addr &&& addrMask < eie → x.bank = x.addr &&& bankMask

instance (x : CtrlAccess) : Decidable (Aligned x) := inferInstanceAs (Decidable (_ → _))

/-- From `d` to `d'` with aligned commands only, the cached bank right at the end. -/
structure Reaches (d d' : Dev) : Prop where
  commands : ∃ l, d'.trace = d.trace ++ l ∧ ∀ x ∈ l, Aligned x
  coherent : d'.Coherent

theorem Reaches.trans {d d' d'' : Dev} (h : Reaches d d') (h' : Reaches d' d'') :
    Reaches d d'' := by
  obtain ⟨l, hl, ha⟩ := h.commands
  obtain ⟨l', hl', ha'⟩ := h'.commands
  refine ⟨⟨l ++ l', by rw [hl', hl, List.append_assoc], ?_⟩, h'.coherent⟩
  intro x hx
  rcases List.mem_append.mp hx with hx | hx
  · exact ha x hx
  · exact ha' x hx

/-- No command is sent and no bank changes. -/
structure Quiet (d d' : Dev) : Prop where
  trace : d'.trace = d.trace
  bank : d'.chip.core.bank = d.chip.core.bank
  cached : d'.enc28j60Bank = d.enc28j60Bank

theorem Quiet.trans {d d' d'' : Dev} (h : Quiet d d') (h' : Quiet d' d'') : Quiet d d'' :=
  ⟨h'.trace.trans h.trace, h'.bank.trans h.bank, h'.cached.trans h.cached⟩

theorem Quiet.reaches {d d' : Dev} (h : Quiet d d') (hd : d.Coherent) : Reaches d d' :=
  ⟨⟨[], by rw [h.trace, List.append_nil], nofun⟩, by rw [Dev.Coherent, h.bank, h.cached]; exact hd⟩

theorem Reaches.refl {d : Dev} (hd : d.Coherent) : Reaches d d :=
  Quiet.reaches ⟨rfl, rfl, rfl⟩ hd

/-- One command, sent in a coherent state, that leaves the bank alone. -/
theorem reaches_command {d d' : Dev} {a : Byte} (hd : d.Coherent)
    (ha : Aligned ⟨a, d.chip.core.bank⟩)
    (htrace : d'.trace = d.trace ++ [⟨a, d.chip.core.bank⟩])
    (hbank : d'.chip.core.bank = d.chip.core.bank) (hcached : d'.enc28j60Bank = d.enc28j60Bank) :
    Reaches d d' := by
  refine ⟨⟨_, htrace, ?_⟩, by rw [Dev.Coherent, hbank, hcached]; exact hd⟩
  intro x hx
  rw [List.mem_singleton.mp hx]
  exact ha

theorem aligned_common {a : Byte} (h : ¬ a &&& addrMask < eie) (bank : Byte) : Aligned ⟨a, bank⟩ :=
  fun hlt => absurd hlt h

theorem record_ctrl {op : Byte} (hop : op ∈ [readCtrlReg, writeCtrlReg, bitFieldSet, bitFieldClr])
    (a : Byte) (d : Dev) : (d.record op a).trace = d.trace ++ [⟨a, d.chip.core.bank⟩] := by
  have hne : ∀ op ∈ [readCtrlReg, writeCtrlReg, bitFieldSet, bitFieldClr],
      ¬ (op = readBufMem ∨ op = writeBufMem ∨ op = softReset) := by decide
  rw [Dev.record, if_neg (hne op hop)]

theorem writeOp_trace (env : Env) {op : Byte} (hop : op ∈ writeOps) (a v : Byte) (d : Dev) :
    (writeOp env op a v d).trace = d.trace ++ [⟨a, d.chip.core.bank⟩] :=
  record_ctrl (List.mem_cons_of_mem _ hop) a d

theorem readOp_trace (env : Env) (a : Byte) (d : Dev) :
    (readOp env readCtrlReg a d).2.trace = d.trace ++ [⟨a, d.chip.core.bank⟩] := by
  rw [← record_ctrl List.mem_cons_self a d]
  unfold readOp
  split <;> rfl

theorem readOp_core_bank (env : Env) (a : Byte) (d : Dev) :
    (readOp env readCtrlReg a d).2.chip.core.bank = d.chip.core.bank := by
  obtain ⟨c, ss, hcore, hfin, -⟩ := readOp_spec env a d
  rw [hfin, hcore, Core.fetches_bank]

/-- A bit-field command to a common register, which may be `ECON1` but not its bank. -/
theorem bitField_reaches (env : Env) {op a v : Byte} {d : Dev} (hd : d.Coherent)
    (hop : op ∈ [bitFieldSet, bitFieldClr]) (ha : ¬ a &&& addrMask < eie)
    (hv : v &&& econ1Bsel = 0) : Reaches d (writeOp env op a v d) := by
  have hop' : op ∈ writeOps := List.mem_cons_of_mem _ hop
  refine reaches_command hd (aligned_common ha _) (writeOp_trace env hop' a v d) ?_
    (writeOp_bank env op a v d)
  by_cases he : a &&& addrMask = econ1
  · obtain ⟨c, hbank, heq⟩ := writeOp_econ1_bank env v d hop' he
    rw [heq, ← hbank, Core.bank]
    congr 1
    simp only [List.mem_cons, List.not_mem_nil, or_false] at hop
    rcases hop with rfl | rfl
    · show (c.reg econ1 ||| v) &&& econ1Bsel = _
      rw [BitVec.and_or_distrib_right, hv]
      exact BitVec.or_zero
    · show c.reg econ1 &&& ~~~v &&& econ1Bsel = _
      refine Core.and_eq_of_and_compl (t := v) ((BitVec.and_comm _ _).trans hv) ?_
      rw [BitVec.and_assoc, BitVec.and_self]
  · exact writeOp_core_bank env v d hop' he

/-! ## Bank switching -/

/-- With the bank cached nothing is sent; else the switch is made. -/
theorem setBank_cases (env : Env) (b : Byte) (d : Dev) :
    (b &&& bankMask = d.enc28j60Bank ∧ setBank env b d = d) ∨
    (b &&& bankMask ≠ d.enc28j60Bank ∧ Reaches d (setBank env b d) ∧
      (setBank env b d).chip.core.bank = b &&& bankMask) := by
  by_cases hb : b &&& bankMask = d.enc28j60Bank
  · exact .inl ⟨hb, if_neg (not_not_intro hb)⟩
  · refine .inr ⟨hb, ?_⟩
    let d₁ := writeOp env bitFieldClr econ1 econ1Bsel d
    let d₂ := writeOp env bitFieldSet econ1 ((b &&& bankMask) >>> 5) d₁
    have hset : setBank env b d = { d₂ with enc28j60Bank := b &&& bankMask } := if_pos hb
    have hbank : d₂.chip.core.bank = b &&& bankMask := by
      obtain ⟨c, -, h₁⟩ := writeOp_econ1_bank env econ1Bsel d
        (show bitFieldClr ∈ writeOps by decide) (show econ1 &&& addrMask = econ1 by decide)
      obtain ⟨c', hc', h₂⟩ := writeOp_econ1_bank env ((b &&& bankMask) >>> 5) d₁
        (show bitFieldSet ∈ writeOps by decide) (show econ1 &&& addrMask = econ1 by decide)
      have hclr : combine bitFieldClr (c.reg econ1) econ1Bsel &&& econ1Bsel = 0#8 := by
        show c.reg econ1 &&& ~~~econ1Bsel &&& econ1Bsel = 0#8
        rw [BitVec.and_assoc, show ~~~econ1Bsel &&& econ1Bsel = 0#8 by decide, BitVec.and_zero]
      have hset : combine bitFieldSet (c'.reg econ1) ((b &&& bankMask) >>> 5) &&& econ1Bsel =
          (c'.reg econ1 &&& econ1Bsel) ||| ((b &&& bankMask) >>> 5 &&& econ1Bsel) :=
        BitVec.and_or_distrib_right ..
      have hzero : (c'.reg econ1 &&& econ1Bsel) <<< 5 = 0#8 := by
        refine hc'.trans (h₁.trans ?_)
        rw [hclr]
        rfl
      rw [h₂, hset, BitVec.shiftLeft_or_distrib, hzero, BitVec.zero_or]
      exact (bank_bits b).2
    rw [hset]
    refine ⟨⟨⟨[⟨econ1, d.chip.core.bank⟩, ⟨econ1, d₁.chip.core.bank⟩], ?_, ?_⟩, hbank⟩, hbank⟩
    · have h₁ : d₁.trace = d.trace ++ [⟨econ1, d.chip.core.bank⟩] :=
        writeOp_trace env (by decide) econ1 econ1Bsel d
      have h₂ : d₂.trace = d₁.trace ++ [⟨econ1, d₁.chip.core.bank⟩] :=
        writeOp_trace env (by decide) econ1 _ d₁
      show d₂.trace = _
      rw [h₂, h₁, List.append_assoc]
      rfl
    · intro x hx
      simp only [List.mem_cons, List.not_mem_nil, or_false] at hx
      rcases hx with rfl | rfl
      · exact aligned_common (by decide) _
      · exact aligned_common (by decide) _

section Accesses

variable (env : Env)

/-- After the switch for `a`, if one is made, its bank is selected. -/
theorem setBank_reaches {a : Byte} {d : Dev} (hc : d.CoherentAt a) :
    Reaches d (setBank env a d) ∧ (setBank env a d).chip.core.bank = a &&& bankMask := by
  rcases setBank_cases env a d with ⟨hb, heq⟩ | ⟨-, hr, hbank⟩
  · have hd : d.Coherent := (hc hb.symm).trans hb
    rw [heq]
    exact ⟨.refl hd, hc hb.symm⟩
  · exact ⟨hr, hbank⟩

theorem read_reaches {a : Byte} {d : Dev} (hc : d.CoherentAt a) : Reaches d (read env a d).2 := by
  obtain ⟨hr, hbank⟩ := setBank_reaches env hc
  refine hr.trans ?_
  exact reaches_command hr.coherent (fun _ => hbank) (readOp_trace env a _)
    (readOp_core_bank env a _) (readOp_bank env readCtrlReg a _)

/-- A write may go to `ECON1`, if it selects the bank of the address. -/
theorem write_reaches {a v : Byte} {d : Dev} (hc : d.CoherentAt a)
    (hv : a &&& addrMask = econ1 → (v &&& econ1Bsel) <<< 5 = a &&& bankMask) :
    Reaches d (write env a v d) := by
  obtain ⟨hr, hbank⟩ := setBank_reaches env hc
  refine hr.trans ?_
  refine reaches_command hr.coherent (fun _ => hbank) (writeOp_trace env (by decide) a v _) ?_
    (writeOp_bank env writeCtrlReg a v _)
  by_cases he : a &&& addrMask = econ1
  · obtain ⟨c, -, heq⟩ := writeOp_econ1_bank env v (setBank env a d)
      (show writeCtrlReg ∈ writeOps by decide) he
    exact heq.trans ((hv he).trans hbank.symm)
  · exact writeOp_core_bank env v _ (by decide) he

theorem write_reaches_of_ne {a : Byte} (v : Byte) {d : Dev} (hc : d.CoherentAt a)
    (ha : a &&& addrMask ≠ econ1) : Reaches d (write env a v d) :=
  write_reaches env hc fun he => absurd he ha

theorem writes_reaches {ws : List (Byte × Byte)}
    (hws : ∀ a ∈ ws.map Prod.fst, a &&& addrMask ≠ econ1) {d : Dev} (hd : d.Coherent) :
    Reaches d (writes env ws d) := by
  induction ws generalizing d with
  | nil => exact .refl hd
  | cons w ws ih =>
    have hw := write_reaches_of_ne env w.2 (hd.at w.1) (hws w.1 List.mem_cons_self)
    exact hw.trans (ih (fun a ha => hws a (List.mem_cons_of_mem w.1 ha)) hw.coherent)

/-! ## The buffer -/

/-- A byte to or from the buffer. -/
theorem spi_buffer (b : Byte) {o : Byte} {n : Nat} {d : Dev} (ho : o = readBufMem ∨ o = writeBufMem)
    (hsel : d.chip.sel = some (o, n)) :
    Quiet d (spi1ReadWriteByte env b d).2 ∧
      (spi1ReadWriteByte env b d).2.chip.sel = some (o, n + 1) := by
  obtain ⟨c, hbank, hcsel, heq⟩ := spi_bank_spec env b d
  rw [hsel] at hcsel
  rw [heq]
  rcases ho with rfl | rfl
  · refine ⟨⟨rfl, ?_, rfl⟩, ?_⟩
    · simp only [Chip.exchange, hcsel, if_true]
      rw [Core.readNext_bank, hbank]
    · simp [Chip.exchange, hcsel]
  · have hne : writeBufMem ≠ readBufMem := by decide
    refine ⟨⟨rfl, ?_, rfl⟩, ?_⟩
    · simp only [Chip.exchange, hcsel, if_neg hne, if_true]
      rw [Core.writeNext_bank, hbank]
    · simp [Chip.exchange, hcsel, hne]

/-- The first byte of a buffer command. -/
theorem spi_buffer_command {o : Byte} (ho : o = readBufMem ∨ o = writeBufMem) (d : Dev) :
    Quiet d (spi1ReadWriteByte env o d.cs).2 ∧
      (spi1ReadWriteByte env o d.cs).2.chip.sel = some (o, 0) := by
  have hne : o ≠ softReset := by rcases ho with rfl | rfl <;> decide
  obtain ⟨ss, hcore, hsel⟩ := spi_command env hne (cs_sel d)
  refine ⟨⟨rfl, ?_, rfl⟩, hsel⟩
  rw [hcore, Core.fetches_bank, cs_core]

theorem quiet_cs (d : Dev) : Quiet d d.cs := ⟨rfl, rfl, rfl⟩

theorem readOp_buffer (d : Dev) : Quiet d (readOp env readBufMem 0 d).2 := by
  obtain ⟨hq, hsel⟩ := spi_buffer_command env (.inl rfl) d
  exact (hq.trans (spi_buffer env 0xFF (.inl rfl) hsel).1).trans (quiet_cs _)

theorem writeOp_buffer (v : Byte) (d : Dev) : Quiet d (writeOp env writeBufMem 0 v d) := by
  obtain ⟨hq, hsel⟩ := spi_buffer_command env (.inr rfl) d
  exact (hq.trans (spi_buffer env v (.inr rfl) hsel).1).trans (quiet_cs _)

theorem readBufLoop_quiet (len i : Nat) (data : Nat → Byte) {n : Nat} {d : Dev}
    (hsel : d.chip.sel = some (readBufMem, n)) : Quiet d (readBufLoop env len i data d).2 := by
  induction len generalizing i data n d with
  | zero => exact ⟨rfl, rfl, rfl⟩
  | succ len ih =>
    obtain ⟨hq, hsel'⟩ := spi_buffer env 0 (.inl rfl) hsel
    exact hq.trans (ih _ _ hsel')

theorem readBuf_quiet (len : BitVec 32) (data : Nat → Byte) (d : Dev) :
    Quiet d (readBuf env len data d).2 := by
  obtain ⟨hq, hsel⟩ := spi_buffer_command env (.inl rfl) d
  exact (hq.trans (readBufLoop_quiet env len.toNat 0 data hsel)).trans (quiet_cs _)

theorem writeBufLoop_quiet (bs : List Byte) {n : Nat} {d : Dev}
    (hsel : d.chip.sel = some (writeBufMem, n)) : Quiet d (writeBufLoop env bs d) := by
  induction bs generalizing n d with
  | nil => exact ⟨rfl, rfl, rfl⟩
  | cons b bs ih =>
    obtain ⟨hq, hsel'⟩ := spi_buffer env b (.inr rfl) hsel
    exact hq.trans (ih hsel')

theorem writeBuf_quiet (bs : List Byte) (d : Dev) : Quiet d (writeBuf env bs d) := by
  obtain ⟨hq, hsel⟩ := spi_buffer_command env (.inr rfl) d
  exact (hq.trans (writeBufLoop_quiet env bs hsel)).trans (quiet_cs _)

end Accesses

/-! ## The functions of the driver -/

section Functions

variable (env : Env)

theorem phyWait_reaches (retry : Nat) {d : Dev} (hd : d.Coherent) :
    Reaches d (phyWait env retry d) := by
  induction retry generalizing d with
  | zero => exact read_reaches env (hd.at mistat)
  | succ retry ih =>
    have hr := read_reaches env (hd.at mistat)
    rw [phyWait_succ]
    split
    · exact hr.trans (ih hr.coherent)
    · exact hr

/-- `ESTAT` is common: the bank that the wait for the clock selects is right at the end. -/
theorem clkWait_reaches (retry : Nat) {d : Dev} (hc : d.CoherentAt estat) :
    Reaches d (clkWait env retry d).2 := by
  induction retry generalizing d with
  | zero => exact read_reaches env hc
  | succ retry ih =>
    have hr := read_reaches env hc
    rw [clkWait_succ]
    split
    · exact hr.trans (ih (hr.coherent.at estat))
    · exact hr

theorem phyWrite_reaches (addr : Byte) (data : BitVec 32) {d : Dev} (hc : d.CoherentAt miregadr) :
    Reaches d (phyWrite env addr data d) := by
  have hfirst := write_reaches_of_ne env addr hc (by decide)
  have hplain : ∀ a ∈ [miwrl, miwrh], a &&& addrMask ≠ econ1 := by decide
  have hrest := @writes_reaches env [(miwrl, data.setWidth 8), (miwrh, (data >>> 8).setWidth 8)]
    hplain _ hfirst.coherent
  exact (hfirst.trans hrest).trans (phyWait_reaches env 0xFFF hrest.coherent)

theorem packetSend_reaches (packet : List Byte) {d : Dev} (hc : d.CoherentAt ewrptl) :
    Reaches d (packetSend env packet d) := by
  let ws := [(ewrpth, hi txstartInit), (etxndl, lo (txstartInit + packet.length)),
    (etxndh, hi (txstartInit + packet.length))]
  let d₁ := write env ewrptl (lo txstartInit) d
  let d₂ := writes env ws d₁
  let d₃ := writeOp env writeBufMem 0 0x00 d₂
  let d₄ := writeBuf env packet d₃
  let d₅ := writeOp env bitFieldSet econ1 econ1Txrts d₄
  let d₆ := (read env eir d₅).2
  have hplain : ∀ a ∈ [ewrpth, etxndl, etxndh], a &&& addrMask ≠ econ1 := by decide
  have h₁ : Reaches d d₁ := write_reaches_of_ne env _ hc (by decide)
  have h₂ : Reaches d d₂ := h₁.trans (@writes_reaches env ws hplain _ h₁.coherent)
  have h₃ : Reaches d d₃ := h₂.trans ((writeOp_buffer env 0x00 d₂).reaches h₂.coherent)
  have h₄ : Reaches d d₄ := h₃.trans ((writeBuf_quiet env packet d₃).reaches h₃.coherent)
  have h₅ : Reaches d d₅ :=
    h₄.trans (bitField_reaches env h₄.coherent (by decide) (by decide) (by decide))
  have h₆ : Reaches d d₆ := h₅.trans (read_reaches env (h₅.coherent.at eir))
  show Reaches d (if (read env eir d₅).1 &&& eirTxerif ≠ 0 then
    writeOp env bitFieldClr econ1 econ1Txrts d₆ else d₆)
  split
  · exact h₆.trans (bitField_reaches env h₆.coherent (by decide) (by decide) (by decide))
  · exact h₆

theorem readBufOp16_quiet (d : Dev) : Quiet d (readBufOp16 env d).2 :=
  (readOp_buffer env d).trans (readOp_buffer env _)

theorem readFrame_quiet (rxstat len : BitVec 32) (packet : Nat → Byte) (d : Dev) :
    Quiet d (readFrame env rxstat len packet d).2.2 := by
  unfold readFrame
  split
  · exact ⟨rfl, rfl, rfl⟩
  · exact readBuf_quiet env len packet d

theorem release_reaches {d : Dev} (hd : d.Coherent) : Reaches d (release env d) := by
  let d₁ := write env erxrdptl (d.nextPacketPtr.setWidth 8) d
  have h₁ : Reaches d d₁ := write_reaches_of_ne env _ (hd.at erxrdptl) (by decide)
  have h₂ := h₁.trans (write_reaches_of_ne env ((d₁.nextPacketPtr >>> 8).setWidth 8)
    (h₁.coherent.at erxrdpth) (by decide))
  exact h₂.trans (bitField_reaches env h₂.coherent (by decide) (by decide) (by decide))

theorem seek_reaches {d : Dev} (hd : d.Coherent) : Reaches d (seek env d) := by
  have h₁ := write_reaches_of_ne env (d.nextPacketPtr.setWidth 8) (hd.at erdptl) (by decide)
  exact h₁.trans (write_reaches_of_ne env _ (h₁.coherent.at erdpth) (by decide))

/-- The three words in front of a frame are read in the bank that is selected. -/
theorem header_quiet (d : Dev) :
    let next := readBufOp16 env d
    let len := readBufOp16 env { next.2 with nextPacketPtr := next.1 }
    Quiet d (readBufOp16 env len.2).2 := by
  intro next len
  have hword : Quiet d next.2 := readBufOp16_quiet env d
  have hnext : Quiet d { next.2 with nextPacketPtr := next.1 } :=
    ⟨hword.trace, hword.bank, hword.cached⟩
  exact (hnext.trans (readBufOp16_quiet env _)).trans (readBufOp16_quiet env len.2)

theorem packetReceive_reaches (maxlen : BitVec 32) (packet : Nat → Byte) {d : Dev}
    (hc : d.CoherentAt epktcnt) : Reaches d (packetReceive env maxlen packet d).2.2 := by
  let d₁ := (read env epktcnt d).2
  have h₁ : Reaches d d₁ := read_reaches env hc
  by_cases hcnt : (read env epktcnt d).1 = 0
  · simp only [packetReceive, if_pos hcnt]
    exact h₁
  · simp only [packetReceive, if_neg hcnt]
    let next := readBufOp16 env (seek env d₁)
    let len := readBufOp16 env { next.2 with nextPacketPtr := next.1 }
    let rxstat := readBufOp16 env len.2
    have h₂ : Reaches d (seek env d₁) := h₁.trans (seek_reaches env h₁.coherent)
    have hframe (n : BitVec 32) :
        Quiet (seek env d₁) (readFrame env rxstat.1 n packet rxstat.2).2.2 :=
      (header_quiet env (seek env d₁)).trans (readFrame_quiet env _ _ _ _)
    have h₃ (n : BitVec 32) : Reaches d (readFrame env rxstat.1 n packet rxstat.2).2.2 :=
      h₂.trans ((hframe n).reaches h₂.coherent)
    exact (h₃ _).trans (release_reaches env (h₃ _).coherent)

/-- From any coherent state the registers are set up. -/
theorem initRegs_reaches (macaddr : Fin 6 → Byte) {d : Dev} (hd : d.Coherent) :
    Reaches d (initRegs env macaddr d) := by
  let d₀ : Dev := { d with nextPacketPtr := BitVec.ofNat 32 rxstartInit }
  let d₁ := writes env initWrites d₀
  have h₀ : Reaches d d₀ := Quiet.reaches ⟨rfl, rfl, rfl⟩ hd
  have h₁ : Reaches d d₁ := h₀.trans (writes_reaches env (List.all_iff_forall_prop.mp (by decide)) h₀.coherent)
  have hcached : d₁.enc28j60Bank = macon3 &&& bankMask :=
    write_bank env macon2 0x00 (writes env initWrites.dropLast d₀)
  -- `MACON3` is written without a switch, in the bank of `MACON2`
  let d₂ := writeOp env bitFieldSet macon3 (0x20 ||| 0x10 ||| 0x02 ||| 0x01) d₁
  have h₂ : Reaches d d₂ := by
    refine h₁.trans (reaches_command h₁.coherent (fun _ => ?_)
      (writeOp_trace env (by decide) macon3 _ d₁)
      (writeOp_core_bank env _ d₁ (by decide) (by decide)) (writeOp_bank ..))
    exact Eq.trans h₁.coherent hcached
  let d₃ := writes env (initMacWrites macaddr) d₂
  have hplain : ∀ a ∈ [maipgl, maipgh, mabbipg, mamxfll, mamxflh, maadr5, maadr4, maadr3,
    maadr2, maadr1, maadr0], a &&& addrMask ≠ econ1 := List.all_iff_forall_prop.mp (by decide)
  have h₃ : Reaches d d₃ :=
    h₂.trans (@writes_reaches env (initMacWrites macaddr) hplain _ h₂.coherent)
  let d₄ := phyWrite env phcon1 0x0100 d₃
  have h₄ : Reaches d d₄ := h₃.trans (phyWrite_reaches env _ _ (h₃.coherent.at miregadr))
  let d₅ := phyWrite env phcon2 0x0100 d₄
  have h₅ : Reaches d d₅ := h₄.trans (phyWrite_reaches env _ _ (h₄.coherent.at miregadr))
  let d₆ := setBank env econ1 d₅
  have h₆ : Reaches d d₆ := h₅.trans (setBank_reaches env (h₅.coherent.at econ1)).1
  have h₇ := h₆.trans (bitField_reaches env (a := eie) (v := 0x80 ||| 0x40)
    h₆.coherent (show bitFieldSet ∈ [bitFieldSet, bitFieldClr] by decide) (by decide) (by decide))
  exact h₇.trans (bitField_reaches env h₇.coherent (by decide) (by decide) (by decide))

/-- **`ENC28J60_Init` from any state**: both resets select bank 0, and `ESTAT`, which is
read first, has bank 0 in its address. -/
theorem init_reaches (macaddr : Fin 6 → Byte) (d : Dev) : Reaches d (init env macaddr d).2 := by
  let d₁ := writeOp env softReset 0 softReset d.rst
  have hfrom {d' : Dev} (h : Reaches d₁ d') : Reaches d d' := ⟨h.commands, h.coherent⟩
  have hwait : Reaches d₁ (clkWait env 250 d₁).2 := clkWait_reaches env 250 (reset_spec env d).2.1
  refine hfrom ?_
  simp only [init]
  split
  · exact hwait
  · have hregs := hwait.trans (initRegs_reaches env macaddr hwait.coherent)
    have hcheck := hregs.trans (read_reaches env (hregs.coherent.at maadr5))
    split
    · exact hcheck
    · exact hcheck

end Functions

/-! ## Runs -/

/-- The operations of the driver; the environment says what the chip does meanwhile. -/
inductive Op where
  | init (env : Env) (macaddr : Fin 6 → Byte)
  | reset
  | read (env : Env) (addr : Byte)
  | write (env : Env) (addr data : Byte)
  | phyWrite (env : Env) (addr : Byte) (data : BitVec 32)
  | packetSend (env : Env) (packet : List Byte)
  | packetReceive (env : Env) (maxlen : BitVec 32) (packet : Nat → Byte)
  /-- the chip takes a packet in -/
  | store (p : RxPacket)

def Op.apply : Op → Dev → Dev
  | .init env macaddr, d => (Enc28j60.init env macaddr d).2
  | .reset, d => d.rst
  | .read env addr, d => (Enc28j60.read env addr d).2
  | .write env addr data, d => Enc28j60.write env addr data d
  | .phyWrite env addr data, d => Enc28j60.phyWrite env addr data d
  | .packetSend env packet, d => Enc28j60.packetSend env packet d
  | .packetReceive env maxlen packet, d => (Enc28j60.packetReceive env maxlen packet d).2.2
  | .store p, d => { d with chip := { d.chip with core := d.chip.core.receive p } }

/-- The address that an operation accesses first, after a reset if it makes one. -/
def Op.first : Op → Option Byte
  | .read _ addr => some addr
  | .write _ addr _ => some addr
  | .phyWrite _ _ _ => some miregadr
  | .packetSend _ _ => some ewrptl
  | .packetReceive _ _ _ => some epktcnt
  | _ => none

/-- The driver; `stale` is set when the chip has left the cached bank behind its back. -/
structure Session where
  dev : Dev
  stale : Bool

/-- An access at `a` would rely on a stale bank. -/
def Session.relies (s : Session) (a : Byte) : Bool :=
  s.stale && decide (a &&& bankMask = s.dev.enc28j60Bank)

/-- A reset selects bank 0 and a write to `ECON1` the bank in its bits; a switch makes the
cached bank right. -/
def Session.staleAfter (s : Session) : Op → Bool
  | .init _ _ => false
  | .reset => decide (s.dev.enc28j60Bank ≠ 0)
  | .read _ addr => s.relies addr
  | .write _ addr data =>
    if addr &&& addrMask = econ1 then decide ((data &&& econ1Bsel) <<< 5 ≠ addr &&& bankMask)
    else s.relies addr
  | .phyWrite _ _ _ => s.relies miregadr
  | .packetSend _ _ => s.relies ewrptl
  | .packetReceive _ _ _ => s.relies epktcnt
  | .store _ => s.stale

def Session.step (s : Session) (op : Op) : Option Session :=
  match op with
  | .store p =>
    if s.dev.chip.core.Accepts p then some ⟨op.apply s.dev, s.staleAfter op⟩ else none
  | _ => some ⟨op.apply s.dev, s.staleAfter op⟩

/-- Power on, with the driver's variables and the chip in any state. -/
def powerOn (d : Dev) : Session :=
  ⟨{ d with trace := [] }, decide (d.chip.core.bank ≠ d.enc28j60Bank)⟩

/-! ## The law -/

/-- Each command sent so far found the bank of its address selected. -/
def BanksAligned (s : Session) : Prop := ∀ x ∈ s.dev.trace, Aligned x

/-- The operation does not start at a banked register in a cached bank that is stale. -/
def NotStale (s : Session) (op : Op) : Prop :=
  ∀ a, op.first = some a → a &&& addrMask < eie → s.relies a = false

structure Tracked (s : Session) : Prop where
  aligned : BanksAligned s
  stale : s.stale = true ↔ ¬ s.dev.Coherent

theorem Tracked.coherentAt {s : Session} (h : Tracked s) {a : Byte} (ha : s.relies a = false) :
    s.dev.CoherentAt a := by
  intro hb
  have hstale : s.stale = false := by simpa [Session.relies, hb] using ha
  have hd : s.dev.Coherent := by
    by_contra hne
    rw [h.stale.mpr hne] at hstale
    cases hstale
  exact hd.trans hb

theorem Tracked.reaches {s : Session} (h : Tracked s) {d : Dev} (hr : Reaches s.dev d) :
    Tracked ⟨d, false⟩ := by
  obtain ⟨l, hl, ha⟩ := hr.commands
  refine ⟨fun x hx => ?_, by simpa using hr.coherent⟩
  rw [hl] at hx
  rcases List.mem_append.mp hx with hx | hx
  · exact h.aligned x hx
  · exact ha x hx

/-! ## Operations that start in a stale bank -/

section Stale

variable (env : Env) {d : Dev} {a : Byte} (hb : a &&& bankMask = d.enc28j60Bank)
include hb

theorem setBank_cached : setBank env a d = d := if_neg (not_not_intro hb)

theorem read_cached :
    (read env a d).2.trace = d.trace ++ [⟨a, d.chip.core.bank⟩] ∧
      (read env a d).2.chip.core.bank = d.chip.core.bank ∧
      (read env a d).2.enc28j60Bank = d.enc28j60Bank := by
  rw [read, setBank_cached env hb]
  exact ⟨readOp_trace env a d, readOp_core_bank env a d, readOp_bank env readCtrlReg a d⟩

theorem write_cached (v : Byte) :
    (write env a v d).trace = d.trace ++ [⟨a, d.chip.core.bank⟩] ∧
      (a &&& addrMask ≠ econ1 → (write env a v d).chip.core.bank = d.chip.core.bank) ∧
      (write env a v d).enc28j60Bank = d.enc28j60Bank := by
  rw [write, setBank_cached env hb]
  exact ⟨writeOp_trace env (by decide) a v d, writeOp_core_bank env v d (by decide),
    writeOp_bank env writeCtrlReg a v d⟩

end Stale

theorem read_bank (env : Env) (a : Byte) (d : Dev) :
    (read env a d).2.enc28j60Bank = a &&& bankMask := by
  rw [read, readOp_bank]
  unfold setBank
  split
  · rfl
  · rename_i hb
    exact (not_not.mp hb).symm

/-- A write to `ECON1` itself. -/
theorem write_econ1 (env : Env) {a : Byte} (v : Byte) (d : Dev) (ha : a &&& addrMask = econ1) :
    (∃ l, (write env a v d).trace = d.trace ++ l ∧ ∀ x ∈ l, Aligned x) ∧
      (write env a v d).chip.core.bank = (v &&& econ1Bsel) <<< 5 ∧
      (write env a v d).enc28j60Bank = a &&& bankMask := by
  have hcommon : ¬ a &&& addrMask < eie := by rw [ha]; decide
  obtain ⟨c, -, hbank⟩ := writeOp_econ1_bank env v (setBank env a d)
    (show writeCtrlReg ∈ writeOps by decide) ha
  have htrace : (write env a v d).trace =
      (setBank env a d).trace ++ [⟨a, (setBank env a d).chip.core.bank⟩] :=
    writeOp_trace env (by decide) a v _
  refine ⟨?_, hbank, write_bank env a v d⟩
  have hlast : ∀ x ∈ [(⟨a, (setBank env a d).chip.core.bank⟩ : CtrlAccess)], Aligned x := by
    intro x hx
    rw [List.mem_singleton.mp hx]
    exact aligned_common hcommon _
  rcases setBank_cases env a d with ⟨-, heq⟩ | ⟨-, hr, -⟩
  · rw [heq] at htrace hlast
    exact ⟨_, htrace, hlast⟩
  · obtain ⟨l, hl, hal⟩ := hr.commands
    refine ⟨l ++ [⟨a, (setBank env a d).chip.core.bank⟩], ?_, ?_⟩
    · rw [htrace, hl, List.append_assoc]
    · intro x hx
      rcases List.mem_append.mp hx with hx | hx
      · exact hal x hx
      · exact hlast x hx

/-! ## The trace grows -/

/-- The commands sent are not forgotten. -/
def Grows (d d' : Dev) : Prop := d.trace <+: d'.trace

theorem Grows.trans {d d' d'' : Dev} (h : Grows d d') (h' : Grows d' d'') : Grows d d'' :=
  List.IsPrefix.trans h h'

theorem Quiet.grows {d d' : Dev} (h : Quiet d d') : Grows d d' := by
  rw [Grows, h.trace]

section Growth

variable (env : Env)

theorem record_grows (op a : Byte) (d : Dev) : Grows d (d.record op a) := by
  unfold Dev.record
  split
  · exact List.prefix_rfl
  · exact List.prefix_append _ _

theorem writeOp_grows (op a v : Byte) (d : Dev) : Grows d (writeOp env op a v d) :=
  record_grows op a d

theorem readOp_grows (op a : Byte) (d : Dev) : Grows d (readOp env op a d).2 := by
  unfold readOp
  split <;> exact record_grows op a d

theorem setBank_grows (b : Byte) (d : Dev) : Grows d (setBank env b d) := by
  unfold setBank
  split
  · exact (writeOp_grows env bitFieldClr econ1 econ1Bsel d).trans
      (writeOp_grows env bitFieldSet econ1 ((b &&& bankMask) >>> 5) _)
  · exact List.prefix_rfl

theorem read_grows (a : Byte) (d : Dev) : Grows d (read env a d).2 :=
  (setBank_grows env a d).trans (readOp_grows env _ _ _)

theorem write_grows (a v : Byte) (d : Dev) : Grows d (write env a v d) :=
  (setBank_grows env a d).trans (writeOp_grows env _ _ _ _)

theorem writes_grows (ws : List (Byte × Byte)) (d : Dev) : Grows d (writes env ws d) := by
  induction ws generalizing d with
  | nil => exact List.prefix_rfl
  | cons w ws ih => exact (write_grows env w.1 w.2 d).trans (ih _)

theorem phyWait_grows (retry : Nat) (d : Dev) : Grows d (phyWait env retry d) := by
  induction retry generalizing d with
  | zero => exact read_grows env mistat d
  | succ retry ih =>
    rw [phyWait_succ]
    split
    · exact (read_grows env mistat d).trans (ih _)
    · exact read_grows env mistat d

theorem phyWrite_grows (addr : Byte) (data : BitVec 32) (d : Dev) :
    Grows (write env miregadr addr d) (phyWrite env addr data d) :=
  (writes_grows env [(miwrl, data.setWidth 8), (miwrh, (data >>> 8).setWidth 8)] _).trans
    (phyWait_grows env 0xFFF _)

theorem packetSend_grows (packet : List Byte) (d : Dev) :
    Grows (write env ewrptl (lo txstartInit) d) (packetSend env packet d) := by
  let d₁ := write env ewrptl (lo txstartInit) d
  let d₂ := writes env [(ewrpth, hi txstartInit), (etxndl, lo (txstartInit + packet.length)),
    (etxndh, hi (txstartInit + packet.length))] d₁
  let d₃ := writeOp env writeBufMem 0 0x00 d₂
  let d₄ := writeBuf env packet d₃
  let d₅ := writeOp env bitFieldSet econ1 econ1Txrts d₄
  let d₆ := (read env eir d₅).2
  have h₄ : Grows d₁ d₄ := ((writes_grows env _ d₁).trans (writeOp_grows env _ _ _ d₂)).trans
    (writeBuf_quiet env packet d₃).grows
  have h₆ : Grows d₁ d₆ := (h₄.trans (writeOp_grows env _ _ _ d₄)).trans (read_grows env eir d₅)
  show Grows d₁ (if (read env eir d₅).1 &&& eirTxerif ≠ 0 then
    writeOp env bitFieldClr econ1 econ1Txrts d₆ else d₆)
  split
  · exact h₆.trans (writeOp_grows env _ _ _ d₆)
  · exact h₆

theorem seek_grows (d : Dev) : Grows d (seek env d) :=
  (write_grows env _ _ d).trans (write_grows env _ _ _)

theorem release_grows (d : Dev) : Grows d (release env d) :=
  ((write_grows env _ _ d).trans (write_grows env _ _ _)).trans (writeOp_grows env _ _ _ _)

theorem packetReceive_grows (maxlen : BitVec 32) (packet : Nat → Byte) (d : Dev) :
    Grows (read env epktcnt d).2 (packetReceive env maxlen packet d).2.2 := by
  let d₁ := (read env epktcnt d).2
  by_cases hcnt : (read env epktcnt d).1 = 0
  · simp only [packetReceive, if_pos hcnt]
    exact List.prefix_rfl
  · simp only [packetReceive, if_neg hcnt]
    let next := readBufOp16 env (seek env d₁)
    let len := readBufOp16 env { next.2 with nextPacketPtr := next.1 }
    let rxstat := readBufOp16 env len.2
    have hheader : Grows d₁ rxstat.2 :=
      (seek_grows env d₁).trans (header_quiet env (seek env d₁)).grows
    exact (hheader.trans (readFrame_quiet env _ _ _ _).grows).trans (release_grows env _)

end Growth

/-- The first command of an operation that starts in the cached bank. -/
theorem first_command {op : Op} {a : Byte} (h : op.first = some a) {d : Dev}
    (hb : a &&& bankMask = d.enc28j60Bank) :
    (⟨a, d.chip.core.bank⟩ : CtrlAccess) ∈ (op.apply d).trace := by
  have hmem {d' : Dev} (h' : d'.trace = d.trace ++ [⟨a, d.chip.core.bank⟩]) {d'' : Dev}
      (hg : Grows d' d'') : (⟨a, d.chip.core.bank⟩ : CtrlAccess) ∈ d''.trace := by
    refine hg.subset ?_
    rw [h']
    exact List.mem_append_right _ (List.mem_singleton_self _)
  cases op with
  | read env addr =>
    cases h
    exact hmem (read_cached env hb).1 List.prefix_rfl
  | write env addr data =>
    cases h
    exact hmem (write_cached env hb data).1 List.prefix_rfl
  | phyWrite env addr data =>
    cases h
    exact hmem (write_cached env hb addr).1 (phyWrite_grows env addr data d)
  | packetSend env packet =>
    cases h
    exact hmem (write_cached env hb (lo txstartInit)).1 (packetSend_grows env packet d)
  | packetReceive env maxlen packet =>
    cases h
    exact hmem (read_cached env hb).1 (packetReceive_grows env maxlen packet d)
  | init _ _ => cases h
  | reset => cases h
  | store _ => cases h

/-! ## Coherence, exactly -/

theorem step_eq {s t : Session} {op : Op} (h : s.step op = some t) :
    t = ⟨op.apply s.dev, s.staleAfter op⟩ := by
  cases op with
  | store p => exact (Option.some.inj (Option.ite_none_right_eq_some.mp h).2).symm
  | _ => exact (Option.some.inj h).symm

/-- An access to a common register in the cached bank changes nothing. -/
theorem Tracked.cached {s : Session} (h : Tracked s) {a : Byte} (hrelies : s.relies a = true)
    (ha : ¬ a &&& addrMask < eie) {d : Dev}
    (htrace : d.trace = s.dev.trace ++ [⟨a, s.dev.chip.core.bank⟩])
    (hbank : d.chip.core.bank = s.dev.chip.core.bank)
    (hcached : d.enc28j60Bank = s.dev.enc28j60Bank) : Tracked ⟨d, true⟩ := by
  have hstale : s.stale = true := (Bool.and_eq_true_iff.mp hrelies).1
  refine ⟨fun x hx => ?_, iff_of_true rfl ?_⟩
  · rw [htrace] at hx
    rcases List.mem_append.mp hx with hx | hx
    · exact h.aligned x hx
    · rw [List.mem_singleton.mp hx]
      exact aligned_common ha _
  · rw [Dev.Coherent, hbank, hcached]
    exact h.stale.mp hstale

/-- An operation that may rely on a stale bank starts at a common register in it. -/
theorem relied {s : Session} {op : Op} {a : Byte} (hg : NotStale s op) (hfirst : op.first = some a)
    (hr : s.relies a = true) : ¬ a &&& addrMask < eie ∧ a &&& bankMask = s.dev.enc28j60Bank := by
  refine ⟨fun hlt => ?_, of_decide_eq_true (Bool.and_eq_true_iff.mp hr).2⟩
  rw [hg a hfirst hlt] at hr
  cases hr

theorem tracked_read {s : Session} {env : Env} {addr : Byte} (h : Tracked s)
    (hg : NotStale s (.read env addr)) :
    Tracked ⟨(read env addr s.dev).2, s.staleAfter (.read env addr)⟩ := by
  simp only [Session.staleAfter]
  cases hr : s.relies addr with
  | false => exact h.reaches (read_reaches env (h.coherentAt hr))
  | true =>
    obtain ⟨ha, hb⟩ := relied hg rfl hr
    obtain ⟨htrace, hbank, hcached⟩ := read_cached env hb
    exact h.cached hr ha htrace hbank hcached

theorem tracked_write {s : Session} {env : Env} {addr data : Byte} (h : Tracked s)
    (hg : NotStale s (.write env addr data)) :
    Tracked ⟨write env addr data s.dev, s.staleAfter (.write env addr data)⟩ := by
  simp only [Session.staleAfter]
  split
  · rename_i he
    obtain ⟨⟨l, hl, hal⟩, hbank, hcached⟩ := write_econ1 env data s.dev he
    refine ⟨fun x hx => ?_, ?_⟩
    · have hx' : x ∈ s.dev.trace ++ l := hl ▸ hx
      rcases List.mem_append.mp hx' with hx | hx
      · exact h.aligned x hx
      · exact hal x hx
    · rw [decide_eq_true_iff, Dev.Coherent]
      show _ ↔ ¬ (write env addr data s.dev).chip.core.bank =
        (write env addr data s.dev).enc28j60Bank
      rw [hbank, hcached]
  · rename_i he
    cases hr : s.relies addr with
    | false => exact h.reaches (write_reaches_of_ne env data (h.coherentAt hr) he)
    | true =>
      obtain ⟨ha, hb⟩ := relied hg rfl hr
      obtain ⟨htrace, hbank, hcached⟩ := write_cached env hb data
      exact h.cached hr ha htrace (hbank he) hcached

/-- **Step lemma.** -/
theorem tracked_step {s t : Session} {op : Op} (h : Tracked s) (ht : s.step op = some t)
    (hg : NotStale s op) : Tracked t := by
  rw [step_eq ht]
  cases op with
  | init env macaddr => exact h.reaches (init_reaches env macaddr s.dev)
  | reset =>
    have hbank : s.dev.rst.chip.core.bank = 0 := Core.reset_bank fun _ => rfl
    refine ⟨h.aligned, ?_⟩
    show decide (s.dev.enc28j60Bank ≠ 0) = true ↔ ¬ s.dev.rst.chip.core.bank = s.dev.enc28j60Bank
    rw [hbank, decide_eq_true_iff]
    exact ne_comm
  | read env addr => exact tracked_read h hg
  | write env addr data => exact tracked_write h hg
  | phyWrite env addr data =>
    have hr : s.relies miregadr = false := hg miregadr rfl (by decide)
    simp only [Session.staleAfter, hr]
    exact h.reaches (phyWrite_reaches env addr data (h.coherentAt hr))
  | packetSend env packet =>
    have hr : s.relies ewrptl = false := hg ewrptl rfl (by decide)
    simp only [Session.staleAfter, hr]
    exact h.reaches (packetSend_reaches env packet (h.coherentAt hr))
  | packetReceive env maxlen packet =>
    have hr : s.relies epktcnt = false := hg epktcnt rfl (by decide)
    simp only [Session.staleAfter, hr]
    exact h.reaches (packetReceive_reaches env maxlen packet (h.coherentAt hr))
  | store p =>
    refine ⟨h.aligned, h.stale.trans (not_congr ?_)⟩
    show s.dev.chip.core.bank = _ ↔ (s.dev.chip.core.receive p).bank = _
    rw [Core.receive_bank]
    rfl

theorem aligned_iff {s t : Session} {op : Op} (h : Tracked s) (ht : s.step op = some t) :
    BanksAligned t ↔ NotStale s op := by
  refine ⟨fun hal a hfirst hlt => ?_, fun hg => (tracked_step h ht hg).aligned⟩
  by_contra hrelies
  have hboth : s.stale = true ∧ a &&& bankMask = s.dev.enc28j60Bank := by
    simpa [Session.relies] using hrelies
  rw [step_eq ht] at hal
  have hbank := hal _ (first_command hfirst hboth.2) hlt
  exact h.stale.mp hboth.1 (hbank.trans hboth.2)

/-- **Register banks are coherent**, exactly. -/
theorem banks_coherent_iff (d : Dev) (env : Env) (macaddr : Fin 6 → Byte) (ops : List Op) :
    Along Session.step (fun _ _ t => BanksAligned t) (powerOn d)
        (.init env macaddr :: ops) ↔
      Along Session.step (fun s op _ => NotStale s op) (powerOn d)
        (.init env macaddr :: ops) := by
  refine along_iff (fun s op t h ht hg => tracked_step h ht hg)
    (fun s op t h ht => aligned_iff h ht) _ ⟨nofun, ?_⟩
  simp [powerOn, Dev.Coherent]

/-- With a bank other than 0 cached, an operation in this bank after a reset goes wrong. -/
theorem not_aligned_after_reset {s : Session} (env : Env) (maxlen : BitVec 32)
    (packet : Nat → Byte) (hcached : s.dev.enc28j60Bank = epktcnt &&& bankMask) :
    ¬ Along Session.step (fun _ _ t => BanksAligned t) s
      [.reset, .packetReceive env maxlen packet] := by
  intro h
  have haligned := ((h _ rfl).2 _ rfl).1
  have hlt : epktcnt &&& addrMask < eie := by decide
  have hmem := @first_command (.packetReceive env maxlen packet) _ rfl s.dev.rst hcached.symm
  have hbank : s.dev.rst.chip.core.bank = epktcnt &&& bankMask := haligned _ hmem hlt
  rw [Core.reset_bank fun _ => rfl] at hbank
  revert hbank
  decide

/-- The bank of `EPKTCNT` is cached, the chip is reset and a packet is waited for: the
counter is read in bank 0. -/
theorem stale_after_reset :
    ¬ Along Session.step (fun _ _ t => BanksAligned t) (powerOn powerUp)
      [.init readyEnv fun _ => 0, .read readyEnv epktcnt, .reset,
        .packetReceive readyEnv 1500 fun _ => 0] := by
  intro h
  have hlater := ((h _ rfl).2 _ rfl).2
  exact not_aligned_after_reset readyEnv 1500 _ (read_bank readyEnv epktcnt _) hlater

end MqttDevice.Enc28j60
