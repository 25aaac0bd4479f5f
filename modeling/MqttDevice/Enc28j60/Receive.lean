import MqttDevice.Enc28j60.Init
import MqttDevice.Lib.Runs

/-!
# Receiving frames (`ENC28J60_Packet_Receive`)

The receive ring is the first `rxSize` cells of the buffer. Each packet in it
names its successor, so the unread ones form a chain that starts at
`NextPacketPtr`.

* `layout_append`, `layout_store`: the chain is split at any packet and grows at
  its end;
* `packetReceive_empty`, `packetReceive_cons`: what one call does;
* `receive_refines`: along every run of packets stored by the chip and calls
  made by the driver, the calls return the packets in order, each once.
-/

namespace MqttDevice.Enc28j60

open MqttDevice.Ascii MqttDevice.Ring MqttDevice.Runs
open MqttDevice.Enc28j60.Core (memSize)

/-! ## The ring -/

/-- Cells of the ring that `ENC28J60_Init` sets up. -/
def rxSize : Nat := rxstopInit + 1

namespace Core

/-- The ring lies at the begin of the buffer. -/
structure RxRing (c : Core) : Prop where
  erxst : c.ptr erxstl erxsth = 0
  erxnd : c.ptr erxndl erxndh = rxstopInit

theorem RxRing.next {c : Core} (h : c.RxRing) (a : Nat) :
    c.next (a % rxSize) = (a + 1) % rxSize := by
  have hlt : a % rxSize < rxSize := Nat.mod_lt _ (by decide)
  have hmod := Nat.mod_add_mod a rxSize 1
  rw [Core.next, h.erxnd, h.erxst, ← hmod]
  by_cases he : a % rxSize = rxstopInit
  · rw [if_pos he, he]
    rfl
  · have hlt' : a % rxSize + 1 < rxSize := by
      simp only [rxSize] at hlt he ⊢
      omega
    rw [if_neg he, Nat.mod_eq_of_lt hlt', Nat.mod_eq_of_lt (Nat.lt_trans hlt' (by decide))]

theorem RxRing.iterate {c : Core} (h : c.RxRing) (k a : Nat) :
    c.next^[k] (a % rxSize) = (a + k) % rxSize := by
  induction k generalizing a with
  | zero => rfl
  | succ k ih =>
    rw [Function.iterate_succ_apply, h.next, ih]
    congr 1
    omega

theorem RxRing.storeBytes {c : Core} (h : c.RxRing) (m : Nat → Byte) (a : Nat)
    (bs : List Byte) : c.storeBytes m (a % rxSize) bs = store rxSize m a bs := by
  induction bs generalizing m a with
  | nil => rfl
  | cons b bs ih => rw [Core.storeBytes, h.next, ih, store]

theorem RxRing.congr {c c' : Core} (h : c.RxRing)
    (hreg : ∀ r ∈ [erxstl, erxsth, erxndl, erxndh], c'.reg r = c.reg r) : c'.RxRing where
  erxst := (ptr_congr (hreg _ (by simp)) (hreg _ (by simp))).trans h.erxst
  erxnd := (ptr_congr (hreg _ (by simp)) (hreg _ (by simp))).trans h.erxnd

/-! ## Reading the ring -/

/-- Reading moves `ERDPT` and changes nothing else. -/
structure Read (a k : Nat) (c c' : Core) : Prop where
  mem : c'.mem = c.mem
  reg : ∀ r, r ≠ erdptl → r ≠ erdpth → c'.reg r = c.reg r
  erdpt : c'.ptr erdptl erdpth = (a + k) % rxSize

theorem Read.trans {a k l : Nat} {c c' c'' : Core} (h : Read a k c c')
    (h' : Read (a + k) l c' c'') : Read a (k + l) c c'' where
  mem := h'.mem.trans h.mem
  reg r h1 h2 := (h'.reg r h1 h2).trans (h.reg r h1 h2)
  erdpt := by rw [h'.erdpt, Nat.add_assoc]

theorem Read.ring {a k : Nat} {c c' : Core} (h : Read a k c c') (hc : c.RxRing) :
    c'.RxRing := by
  refine hc.congr fun r hr => h.reg r ?_ ?_ <;>
  · rintro rfl
    revert hr
    decide

theorem readNext_spec {c : Core} (hc : c.RxRing) {a : Nat}
    (ha : c.ptr erdptl erdpth = a % rxSize) :
    c.readNext.1 = c.mem (a % rxSize) ∧ Read a 1 c c.readNext.2 := by
  refine ⟨congrArg c.mem ha, rfl, fun r h1 h2 => setPtr_reg c h1 h2 _, ?_⟩
  have hlt : (a + 1) % rxSize < memSize :=
    Nat.lt_trans (Nat.mod_lt _ (by decide)) (by decide : rxSize < memSize)
  show (c.setPtr erdptl erdpth (c.next (c.ptr erdptl erdpth))).ptr erdptl erdpth = _
  rw [ptr_setPtr c (by decide), ha, hc.next, Nat.mod_eq_of_lt hlt]

theorem readMany_spec {c : Core} (hc : c.RxRing) (k : Nat) {a : Nat}
    (ha : c.ptr erdptl erdpth = a % rxSize) :
    (c.readMany k).1 = slice rxSize c.mem a k ∧ Read a k c (c.readMany k).2 := by
  induction k generalizing c a with
  | zero => exact ⟨rfl, rfl, fun _ _ _ => rfl, ha⟩
  | succ k ih =>
    obtain ⟨hval, hread⟩ := readNext_spec hc ha
    obtain ⟨hvals, hreads⟩ := ih (hread.ring hc) hread.erdpt
    refine ⟨?_, ?_⟩
    · rw [readMany, hval, hvals, slice_cons, hread.mem]
    · have hall := hread.trans hreads
      rwa [Nat.add_comm 1 k] at hall

end Core

/-! ## Reading a header -/

/-- The driver has read `k` bytes of the ring from position `a` on. -/
structure ReadDev (a k : Nat) (d d' : Dev) : Prop where
  core : Core.Read a k d.chip.core d'.chip.core
  bank : d'.enc28j60Bank = d.enc28j60Bank
  next : d'.nextPacketPtr = d.nextPacketPtr

theorem ReadDev.trans {a k l : Nat} {d d' d'' : Dev} (h : ReadDev a k d d')
    (h' : ReadDev (a + k) l d' d'') : ReadDev a (k + l) d d'' :=
  ⟨h.core.trans h'.core, h'.bank.trans h.bank, h'.next.trans h.next⟩

theorem ReadDev.idle {a k : Nat} {d d' : Dev} (h : ReadDev a k d d') (hd : d.Idle) :
    d'.Idle := by
  rw [Dev.Idle, Core.txrts, h.core.reg _ (by decide) (by decide)]
  exact hd

theorem ReadDev.coherent {a k : Nat} {d d' : Dev} (h : ReadDev a k d d') (hd : d.Coherent) :
    d'.Coherent := by
  rw [Dev.Coherent, Core.bank, h.core.reg _ (by decide) (by decide), h.bank]
  exact hd

/-- `NextPacketPtr` is no part of the chip. -/
theorem Dev.Idle.withNext {d : Dev} (h : d.Idle) (next : BitVec 32) :
    { d with nextPacketPtr := next }.Idle := h

theorem Dev.Coherent.withNext {d : Dev} (h : d.Coherent) (next : BitVec 32) :
    { d with nextPacketPtr := next }.Coherent := h

theorem word_bytes16 {n : Nat} (hn : n < 2 ^ 16) :
    word (BitVec.ofNat 8 n) (BitVec.ofNat 8 (n / 256)) = BitVec.ofNat 32 n := by
  have hl : n % 2 ^ 8 < 2 ^ 8 := Nat.mod_lt _ (by decide)
  have hh : n / 256 < 256 := by omega
  apply BitVec.eq_of_toNat_eq
  simp only [word, BitVec.toNat_or, BitVec.toNat_setWidth, BitVec.toNat_shiftLeft,
    BitVec.toNat_ofNat, Nat.shiftLeft_eq]
  have hsum := Nat.two_pow_add_eq_or_of_lt hl (n / 256)
  rw [Nat.mod_eq_of_lt (show n % 2 ^ 8 < 2 ^ 32 by omega),
    Nat.mod_eq_of_lt (show n / 256 < 2 ^ 8 from hh),
    Nat.mod_eq_of_lt (show n / 256 < 2 ^ 32 by omega),
    Nat.mod_eq_of_lt (show n / 256 * 2 ^ 8 < 2 ^ 32 by omega), Nat.or_comm, Nat.mul_comm, ← hsum]
  omega

theorem readBufOp16_spec (env : Env) {d : Dev} (hd : d.Idle) (hc : d.chip.core.RxRing) {a : Nat}
    (ha : d.chip.core.ptr erdptl erdpth = a % rxSize) :
    (readBufOp16 env d).1 =
        word (d.chip.core.mem (a % rxSize)) (d.chip.core.mem ((a + 1) % rxSize)) ∧
      ReadDev a 2 d (readBufOp16 env d).2 := by
  obtain ⟨hval, hcore⟩ := readOp_readBuf env hd
  obtain ⟨hmem, hread⟩ := Core.readNext_spec hc ha
  let d₁ := (readOp env readBufMem 0 d).2
  have h₁ : ReadDev a 1 d d₁ := ⟨by rw [hcore]; exact hread, readOp_bank .., readOp_next ..⟩
  obtain ⟨hval', hcore'⟩ := readOp_readBuf env (h₁.idle hd)
  obtain ⟨hmem', hread'⟩ := Core.readNext_spec (h₁.core.ring hc) h₁.core.erdpt
  have h₂ : ReadDev (a + 1) 1 d₁ (readOp env readBufMem 0 d₁).2 :=
    ⟨by rw [hcore']; exact hread', readOp_bank .., readOp_next ..⟩
  refine ⟨?_, h₁.trans h₂⟩
  show word (readOp env readBufMem 0 d).1 (readOp env readBufMem 0 d₁).1 = _
  rw [hval, hmem, hval', hmem', h₁.core.mem]

/-! ## Moving the read pointers -/

/-- The two bytes of a pointer that the driver keeps in 32 bits. -/
theorem pointer_bytes {n : Nat} (hn : n < 2 ^ 32) :
    (BitVec.ofNat 32 n).setWidth 8 = BitVec.ofNat 8 n ∧
      ((BitVec.ofNat 32 n) >>> 8).setWidth 8 = BitVec.ofNat 8 (n / 256) := by
  refine ⟨?_, ?_⟩ <;> apply BitVec.eq_of_toNat_eq
  · simp only [BitVec.toNat_setWidth, BitVec.toNat_ofNat]
    omega
  · simp only [BitVec.toNat_setWidth, BitVec.toNat_ofNat, BitVec.toNat_ushiftRight,
      Nat.shiftRight_eq_div_pow]
    omega

/-- Two registers that make up a pointer. -/
def PtrPair (l h : Byte) : Prop :=
  Plain l ∧ Plain h ∧ l ≠ econ1 ∧ h ≠ econ1 ∧ reaches (l &&& 0x7F) l = true ∧
    reaches (h &&& 0x7F) h = true ∧ reaches (h &&& 0x7F) l = false

instance (l h : Byte) : Decidable (PtrPair l h) :=
  inferInstanceAs (Decidable (_ ∧ _ ∧ _ ∧ _ ∧ _ ∧ _ ∧ _))

/-- `NextPacketPtr` is written to a pointer of the chip. -/
theorem writePtr_spec (env : Env) {l h : Byte} (hp : PtrPair l h) {d : Dev} (hd : d.Idle)
    (hc : d.Coherent) {a : Nat} (ha : a < memSize) (hn : d.nextPacketPtr = BitVec.ofNat 32 a) :
    let d₁ := write env l (d.nextPacketPtr.setWidth 8) d
    let d₂ := write env h ((d₁.nextPacketPtr >>> 8).setWidth 8) d₁
    After [(l, BitVec.ofNat 8 a), (h, BitVec.ofNat 8 (a / 256))] d d₂ ∧
      d₂.chip.core.ptr l h = a := by
  intro d₁ d₂
  obtain ⟨hl, hh, hl1, hh1, hll, hhh, hhl⟩ := hp
  obtain ⟨hlo, hhi⟩ := pointer_bytes (Nat.lt_trans ha (by decide : memSize < 2 ^ 32))
  have h₁ := write_after env hd (hc.at l) hl (d.nextPacketPtr.setWidth 8)
  have h₂ := write_after env h₁.idle (h₁.coherent.at h) hh ((d₁.nextPacketPtr >>> 8).setWidth 8)
  have hn₁ : d₁.nextPacketPtr = BitVec.ofNat 32 a := h₁.next.trans hn
  have hall : After [(l, BitVec.ofNat 8 a), (h, BitVec.ofNat 8 (a / 256))] d d₂ := by
    have hws : [(l, BitVec.ofNat 8 a), (h, BitVec.ofNat 8 (a / 256))] =
        [(l, d.nextPacketPtr.setWidth 8), (h, (d₁.nextPacketPtr >>> 8).setWidth 8)] := by
      rw [hn₁, hhi, hn, hlo]
    rw [hws]
    exact h₁.trans h₂
  refine ⟨hall, ?_⟩
  rw [Core.ptr, hall.reg l hl1, hall.reg h hh1]
  simp only [valueAfter, List.foldl_cons, List.foldl_nil, hll, hhh, hhl, if_true]
  exact (Core.ptr_eq a).trans (Nat.mod_eq_of_lt ha)

theorem seek_spec (env : Env) {d : Dev} (hd : d.Idle) (hc : d.Coherent) {a : Nat}
    (ha : a < memSize) (hn : d.nextPacketPtr = BitVec.ofNat 32 a) :
    After [(erdptl, BitVec.ofNat 8 a), (erdpth, BitVec.ofNat 8 (a / 256))] d (seek env d) ∧
      (seek env d).chip.core.ptr erdptl erdpth = a :=
  writePtr_spec env (by decide) hd hc ha hn

/-- A pointer that is written is all that changes, unless the ring begins there. -/
theorem After.keep_ptr {l h x y r : Byte} {d d' : Dev} (ha : After [(l, x), (h, y)] d d')
    (hl : l &&& 127#8 = l ∧ l ≠ erxstl ∧ l ≠ erxsth)
    (hh : h &&& 127#8 = h ∧ h ≠ erxstl ∧ h ≠ erxsth) (hr : r ≠ Enc28j60.econ1)
    (h1 : r ≠ l) (h2 : r ≠ h) : d'.chip.core.reg r = d.chip.core.reg r :=
  ha.keep hr (by simp [reaches, hl, hh, h1, h2])

/-- The registers of the ring that the driver leaves to the chip. -/
def rxRegs : List Byte := [erxstl, erxsth, erxndl, erxndh, erxwrptl, erxwrpth]

/-- A call of the driver changes other registers. -/
theorem rxRegs_ne {r : Byte} (hr : r ∈ rxRegs) :
    r ≠ econ1 ∧ r ≠ econ2 ∧ r ≠ epktcnt ∧ r ≠ erdptl ∧ r ≠ erdpth ∧ r ≠ erxrdptl ∧
      r ≠ erxrdpth := by
  simp only [rxRegs, List.mem_cons, List.not_mem_nil, or_false] at hr
  rcases hr with rfl | rfl | rfl | rfl | rfl | rfl <;> decide

theorem mem_rxRegs {r : Byte} (hr : r ∈ [erxstl, erxsth, erxndl, erxndh]) : r ∈ rxRegs :=
  List.mem_append_left [erxwrptl, erxwrpth] hr

/-- Moving `ERDPT` leaves the ring where it is. -/
theorem After.ring {x y : Byte} {d d' : Dev} (h : After [(erdptl, x), (erdpth, y)] d d')
    (hc : d.chip.core.RxRing) : d'.chip.core.RxRing := by
  refine hc.congr fun r hr => ?_
  obtain ⟨hne, -, -, hl, hh, -⟩ := rxRegs_ne (mem_rxRegs hr)
  exact h.keep_ptr (by decide) (by decide) hne hl hh

theorem release_spec (env : Env) {d : Dev} (hd : d.Idle) (hc : d.Coherent) {a : Nat}
    (ha : a < memSize) (hn : d.nextPacketPtr = BitVec.ofNat 32 a) :
    let d' := release env d
    d'.Idle ∧ d'.Coherent ∧ d'.nextPacketPtr = d.nextPacketPtr ∧
      d'.chip.core.mem = d.chip.core.mem ∧ d'.chip.core.ptr erxrdptl erxrdpth = a ∧
      (d.chip.core.reg epktcnt ≠ 0 →
        d'.chip.core.reg epktcnt = d.chip.core.reg epktcnt - 1) ∧
      ∀ r ∈ rxRegs, d'.chip.core.reg r = d.chip.core.reg r := by
  intro d'
  obtain ⟨h, hptr⟩ := writePtr_spec env (by decide : PtrPair erxrdptl erxrdpth) hd hc ha hn
  generalize hd₂ : write env erxrdpth _ _ = d₂ at h hptr
  have hfin : d' = writeOp env bitFieldSet econ2 econ2Pktdec d₂ := by rw [← hd₂]; rfl
  have hcore : d'.chip.core =
      d₂.chip.core.setReg econ2 (d₂.chip.core.reg econ2 ||| econ2Pktdec) := by
    rw [hfin]
    exact writeOp_bitSet env h.idle econ2 econ2Pktdec rfl
  have hbit (x : Byte) : (x ||| econ2Pktdec) &&& econ2Pktdec ≠ 0 := by
    revert x
    decide +kernel
  have hdec : ((d₂.chip.core.reg econ2 ||| econ2Pktdec) &&& econ2Pktdec != 0) = true := by
    simpa using hbit (d₂.chip.core.reg econ2)
  have he : d'.chip.core.reg econ1 = d₂.chip.core.reg econ1 := by
    rw [hcore, Core.setReg_econ1_of_ne _ (by decide)]
  have hcnt₂ : d₂.chip.core.reg epktcnt = d.chip.core.reg epktcnt :=
    h.keep_ptr (by decide) (by decide) (by decide) (by decide) (by decide)
  have hreg (r : Byte) (h1 : r ≠ econ2) (h2 : r ≠ epktcnt) :
      d'.chip.core.reg r = d₂.chip.core.reg r := by
    rw [hcore]
    simp [Core.setReg, show econ2 ≠ econ1 from by decide, h1, h2]
  refine ⟨?_, ?_, ?_, ?_, ?_, fun hne => ?_, fun r hr => ?_⟩
  · rw [Dev.Idle, Core.txrts, he]
    exact h.idle
  · rw [Dev.Coherent, Core.bank, he, hfin, writeOp_bank]
    exact h.coherent
  · rw [hfin, writeOp_next, h.next]
  · rw [hcore, Core.setReg_mem, h.mem]
  · rw [Core.ptr_congr (hreg erxrdptl (by decide) (by decide))
      (hreg erxrdpth (by decide) (by decide)), hptr]
  · rw [hcore, ← hcnt₂]
    rw [← hcnt₂] at hne
    simp only [Core.setReg, if_neg (by decide : econ2 ≠ econ1), if_true, Function.update_self,
      hdec, Bool.true_and]
    exact if_pos (by simpa using hne)
  · obtain ⟨h1, h2, h3, -, -, hl, hh⟩ := rxRegs_ne hr
    rw [hreg r h2 h3, h.keep_ptr (by decide) (by decide) h1 hl hh]

/-! ## Chains of packets -/

/-- Cells of a packet in the ring. -/
def RxPacket.size (p : RxPacket) : Nat := 6 + p.data.length + p.pad

def total (ps : List RxPacket) : Nat := (ps.map RxPacket.size).sum

/-- Packets lie one behind the other from position `a` on, each with the begin
of the next in its header. -/
def Layout (mem : Nat → Byte) : Nat → List RxPacket → Prop
  | _, [] => True
  | a, p :: ps =>
    slice rxSize mem a (6 + p.data.length) = Core.image p ((a + p.size) % rxSize) ∧
      Layout mem (a + p.size) ps

@[simp] theorem total_nil : total [] = 0 := rfl

@[simp] theorem total_cons (p : RxPacket) (ps : List RxPacket) :
    total (p :: ps) = p.size + total ps := by
  simp [total]

theorem total_append (ps qs : List RxPacket) : total (ps ++ qs) = total ps + total qs := by
  simp [total]

theorem length_image (p : RxPacket) (next : Nat) :
    (Core.image p next).length = 6 + p.data.length := by
  simp only [Core.image, Core.bytes16, List.length_append, List.length_cons, List.length_nil]

/-- Positions count modulo the size of the ring. -/
theorem layout_congr {mem : Nat → Byte} {a b : Nat} (h : a % rxSize = b % rxSize)
    {ps : List RxPacket} (hl : Layout mem a ps) : Layout mem b ps := by
  induction ps generalizing a b with
  | nil => trivial
  | cons p ps ih =>
    have hnext : (a + p.size) % rxSize = (b + p.size) % rxSize := Nat.ModEq.add_right p.size h
    obtain ⟨hp, hps⟩ := hl
    refine ⟨?_, ih hnext hps⟩
    rw [← hnext, ← hp]
    exact slice_congr_start mem h.symm _

theorem layout_append {mem : Nat → Byte} {a : Nat} {ps qs : List RxPacket} :
    Layout mem a (ps ++ qs) ↔ Layout mem a ps ∧ Layout mem (a + total ps) qs := by
  induction ps generalizing a with
  | nil => simp [Layout]
  | cons p ps ih =>
    simp only [List.cons_append, Layout, ih, total_cons, and_assoc, Nat.add_assoc]

/-- Bytes stored behind a chain do not touch it. -/
theorem layout_store {mem : Nat → Byte} {a gap : Nat} {ps : List RxPacket} (bs : List Byte)
    (hgap : total ps ≤ gap) (hfit : gap + bs.length ≤ rxSize) (hl : Layout mem a ps) :
    Layout (store rxSize mem (a + gap) bs) a ps := by
  induction ps generalizing a gap with
  | nil => trivial
  | cons p ps ih =>
    obtain ⟨hp, hps⟩ := hl
    have hsize : 6 + p.data.length ≤ p.size := Nat.le_add_right _ _
    rw [total_cons] at hgap
    refine ⟨?_, ?_⟩
    · rw [slice_store_before mem a bs (by omega) hfit, hp]
    · have hpos : a + gap = a + p.size + (gap - p.size) := by omega
      rw [hpos]
      exact ih (by omega) (by omega) hps

/-- The header and the contents of the first packet of a chain. -/
theorem layout_header {mem : Nat → Byte} {a : Nat} {p : RxPacket} {ps : List RxPacket}
    (hl : Layout mem a (p :: ps)) :
    slice rxSize mem a 6 = Core.bytes16 ((a + p.size) % rxSize) ++
        Core.bytes16 p.data.length ++ Core.bytes16 p.status.toNat ∧
      slice rxSize mem (a + 6) p.data.length = p.data := by
  have hp := hl.1
  rw [slice_add] at hp
  exact List.append_inj hp (by rw [length_slice]; rfl)

/-! ## One call of `ENC28J60_Packet_Receive` -/

/-- What the caller gets of a packet: the frame without CRC, cut to the
buffer, and nothing of a packet without the receive-ok bit. -/
def RxPacket.frame (p : RxPacket) (maxlen : Nat) : List Byte :=
  if p.status &&& 0x80 = 0 then []
  else (p.data.take (p.data.length - 4)).take (maxlen - 1)

/-- The caller's buffer after the call: frame and closing zero, unless the
packet was received with an error. -/
def RxPacket.buffer (p : RxPacket) (maxlen : Nat) (packet : Nat → Byte) : Nat → Byte :=
  if p.status &&& 0x80 = 0 then packet
  else Function.update (putAt packet 0 (p.frame maxlen)) (p.frame maxlen).length 0

/-- Chip and driver with the unread packets `ps`, the oldest at position `a`. -/
structure RxInv (a : Nat) (ps : List RxPacket) (d : Dev) : Prop where
  idle : d.Idle
  coherent : d.Coherent
  ring : d.chip.core.RxRing
  pos : a < rxSize
  next : d.nextPacketPtr = BitVec.ofNat 32 a
  erxrdpt : d.chip.core.ptr erxrdptl erxrdpth = a
  erxwrpt : d.chip.core.ptr erxwrptl erxwrpth = (a + total ps) % rxSize
  count : (d.chip.core.reg epktcnt).toNat = ps.length
  fits : total ps < rxSize
  wellFormed : ∀ p ∈ ps, 4 ≤ p.data.length
  layout : Layout d.chip.core.mem a ps

/-- The driver reads the three words of a header at position `a`. -/
theorem header_words (env : Env) {d : Dev} (hd : d.Idle) (hc : d.chip.core.RxRing) {a : Nat}
    (ha : d.chip.core.ptr erdptl erdpth = a % rxSize) :
    let cell (k : Nat) := d.chip.core.mem ((a + k) % rxSize)
    let next := readBufOp16 env d
    let len := readBufOp16 env { next.2 with nextPacketPtr := next.1 }
    let rxstat := readBufOp16 env len.2
    ReadDev a 6 { d with nextPacketPtr := next.1 } rxstat.2 ∧
      next.1 = word (cell 0) (cell 1) ∧ len.1 = word (cell 2) (cell 3) ∧
        rxstat.1 = word (cell 4) (cell 5) := by
  intro cell next len rxstat
  obtain ⟨hv₁, hr₁⟩ := readBufOp16_spec env hd hc ha
  let d₁ : Dev := { next.2 with nextPacketPtr := next.1 }
  have h₁ : ReadDev a 2 { d with nextPacketPtr := next.1 } d₁ := ⟨hr₁.core, hr₁.bank, rfl⟩
  have hi₁ : d₁.Idle := hr₁.idle hd
  have hc₁ : d₁.chip.core.RxRing := hr₁.core.ring hc
  obtain ⟨hv₂, hr₂⟩ := readBufOp16_spec env hi₁ hc₁ hr₁.core.erdpt
  have hc₂ : len.2.chip.core.RxRing := hr₂.core.ring hc₁
  obtain ⟨hv₃, hr₃⟩ := readBufOp16_spec env (hr₂.idle hi₁) hc₂ hr₂.core.erdpt
  have hmem₁ : d₁.chip.core.mem = d.chip.core.mem := hr₁.core.mem
  have hmem₂ : len.2.chip.core.mem = d.chip.core.mem := hr₂.core.mem.trans hmem₁
  refine ⟨(h₁.trans hr₂).trans hr₃, hv₁, ?_, ?_⟩
  · rw [hv₂, hmem₁]
  · rw [hv₃, hmem₂]

/-- The driver reads the header of the oldest packet. -/
theorem header_spec (env : Env) {d : Dev} (hd : d.Idle) (hc : d.chip.core.RxRing) {a : Nat}
    {p : RxPacket} {ps : List RxPacket} (ha : d.chip.core.ptr erdptl erdpth = a % rxSize)
    (hlen : p.data.length < 2 ^ 16) (hl : Layout d.chip.core.mem a (p :: ps)) :
    let next := readBufOp16 env d
    let len := readBufOp16 env { next.2 with nextPacketPtr := next.1 }
    let rxstat := readBufOp16 env len.2
    ReadDev a 6 { d with nextPacketPtr := next.1 } rxstat.2 ∧
      next.1 = BitVec.ofNat 32 ((a + p.size) % rxSize) ∧
      len.1 = BitVec.ofNat 32 p.data.length ∧ rxstat.1 = BitVec.ofNat 32 p.status.toNat := by
  intro next len rxstat
  obtain ⟨hheader, -⟩ := layout_header hl
  obtain ⟨h0, h1, h2, h3, h4, h5⟩ : d.chip.core.mem (a % rxSize) =
        BitVec.ofNat 8 ((a + p.size) % rxSize) ∧
      d.chip.core.mem ((a + 1) % rxSize) = BitVec.ofNat 8 ((a + p.size) % rxSize / 256) ∧
      d.chip.core.mem ((a + 2) % rxSize) = BitVec.ofNat 8 p.data.length ∧
      d.chip.core.mem ((a + 3) % rxSize) = BitVec.ofNat 8 (p.data.length / 256) ∧
      d.chip.core.mem ((a + 4) % rxSize) = BitVec.ofNat 8 p.status.toNat ∧
      d.chip.core.mem ((a + 5) % rxSize) = BitVec.ofNat 8 (p.status.toNat / 256) := by
    simpa [slice, List.range_succ, Core.bytes16] using hheader
  have hpos : (a + p.size) % rxSize < 2 ^ 16 :=
    Nat.lt_trans (Nat.mod_lt _ (by decide)) (by decide : rxSize < 2 ^ 16)
  obtain ⟨hread, hv₁, hv₂, hv₃⟩ := header_words env hd hc ha
  refine ⟨hread, ?_, ?_, ?_⟩
  · refine hv₁.trans ?_
    show word (d.chip.core.mem (a % rxSize)) (d.chip.core.mem ((a + 1) % rxSize)) = _
    rw [h0, h1, word_bytes16 hpos]
  · refine hv₂.trans ?_
    show word (d.chip.core.mem ((a + 2) % rxSize)) (d.chip.core.mem ((a + 3) % rxSize)) = _
    rw [h2, h3, word_bytes16 hlen]
  · refine hv₃.trans ?_
    show word (d.chip.core.mem ((a + 4) % rxSize)) (d.chip.core.mem ((a + 5) % rxSize)) = _
    rw [h4, h5, word_bytes16 p.status.isLt]

/-- The length of a packet after `len -= 4` and the cut to the buffer. -/
theorem cut_length {n maxlen : Nat} (hn : 4 ≤ n) (hn' : n < 2 ^ 16) (hm : 0 < maxlen)
    (hm' : maxlen < 2 ^ 32) :
    (if BitVec.ofNat 32 n - 4 > BitVec.ofNat 32 maxlen - 1 then BitVec.ofNat 32 maxlen - 1
      else BitVec.ofNat 32 n - 4) = BitVec.ofNat 32 (min (n - 4) (maxlen - 1)) := by
  have h4 : BitVec.ofNat 32 n - 4 = BitVec.ofNat 32 (n - 4) := by
    apply BitVec.eq_of_toNat_eq
    simp only [BitVec.toNat_sub, BitVec.toNat_ofNat, show (4 : BitVec 32).toNat = 4 from rfl]
    omega
  have h1 : BitVec.ofNat 32 maxlen - 1 = BitVec.ofNat 32 (maxlen - 1) := by
    apply BitVec.eq_of_toNat_eq
    simp only [BitVec.toNat_sub, BitVec.toNat_ofNat, show (1 : BitVec 32).toNat = 1 from rfl]
    omega
  have hlt : BitVec.ofNat 32 (n - 4) > BitVec.ofNat 32 (maxlen - 1) ↔ maxlen - 1 < n - 4 := by
    rw [gt_iff_lt, BitVec.lt_def, BitVec.toNat_ofNat, BitVec.toNat_ofNat,
      Nat.mod_eq_of_lt (by omega), Nat.mod_eq_of_lt (by omega)]
  rw [h4, h1]
  by_cases h : maxlen - 1 < n - 4
  · rw [if_pos (hlt.mpr h), Nat.min_eq_right (Nat.le_of_lt h)]
  · rw [if_neg (mt hlt.mp h), Nat.min_eq_left (Nat.le_of_not_lt h)]

/-- The receive-ok bit, as the driver tests it. -/
theorem rxstat_bit (status : BitVec 16) :
    BitVec.ofNat 32 status.toNat &&& 0x80 = 0 ↔ status &&& 0x80 = 0 := by
  have hlt : status.toNat < 2 ^ 32 := Nat.lt_trans status.isLt (by decide)
  rw [BitVec.toNat_eq, BitVec.toNat_eq, BitVec.toNat_and, BitVec.toNat_and, BitVec.toNat_ofNat,
    Nat.mod_eq_of_lt hlt]
  rfl

theorem length_frame {p : RxPacket} (maxlen : Nat) (h : ¬ p.status &&& 0x80 = 0) :
    (p.frame maxlen).length = min (p.data.length - 4) (maxlen - 1) := by
  rw [RxPacket.frame, if_neg h, List.length_take, List.length_take]
  omega

theorem readFrame_spec (env : Env) {d : Dev} (hd : d.Idle) (hc : d.chip.core.RxRing) {a : Nat}
    {p : RxPacket} (ha : d.chip.core.ptr erdptl erdpth = a % rxSize)
    (hdata : slice rxSize d.chip.core.mem a p.data.length = p.data)
    (hlen : p.data.length < 2 ^ 16) (maxlen : Nat) (packet : Nat → Byte) :
    let r := readFrame env (BitVec.ofNat 32 p.status.toNat)
      (BitVec.ofNat 32 (min (p.data.length - 4) (maxlen - 1))) packet d
    r.1 = BitVec.ofNat 32 (p.frame maxlen).length ∧ r.2.1 = p.buffer maxlen packet ∧
      ∃ k, ReadDev a k d r.2.2 := by
  intro r
  by_cases hok : p.status &&& 0x80 = 0
  · have hr : r = (0, packet, d) := if_pos ((rxstat_bit p.status).mpr hok)
    rw [hr, RxPacket.frame, RxPacket.buffer, if_pos hok, if_pos hok]
    exact ⟨rfl, rfl, 0, ⟨rfl, fun _ _ _ => rfl, ha⟩, rfl, rfl⟩
  · let n := min (p.data.length - 4) (maxlen - 1)
    have hle : n ≤ p.data.length := (Nat.min_le_left _ _).trans (Nat.sub_le _ _)
    have hn : (BitVec.ofNat 32 n).toNat = n := by
      rw [BitVec.toNat_ofNat, Nat.mod_eq_of_lt (by omega)]
    have hr : r = (BitVec.ofNat 32 n, readBuf env (BitVec.ofNat 32 n) packet d) :=
      if_neg (mt (rxstat_bit p.status).mp hok)
    obtain ⟨hdat, hcore⟩ := readBuf_spec env (BitVec.ofNat 32 n) packet hd
    obtain ⟨hbank, hnext⟩ := readBuf_fields env (BitVec.ofNat 32 n) packet d
    obtain ⟨hval, hread⟩ := Core.readMany_spec hc n ha
    rw [hn] at hdat hcore
    have hframe : slice rxSize d.chip.core.mem a n = p.frame maxlen := by
      rw [RxPacket.frame, if_neg hok, List.take_take, Nat.min_comm, slice_take _ _ hle, hdata]
    rw [hr]
    refine ⟨?_, ?_, n, ?_, hbank, hnext⟩
    · rw [length_frame maxlen hok]
    · rw [RxPacket.buffer, if_neg hok, length_frame maxlen hok, ← hframe, ← hval]
      exact hdat
    · show Core.Read a n d.chip.core (readBuf env (BitVec.ofNat 32 n) packet d).2.chip.core
      rw [hcore]
      exact hread

theorem RxInv.ring_lt {a : Nat} {ps : List RxPacket} {d : Dev} (h : RxInv a ps d) :
    a < memSize := Nat.lt_trans h.pos (by decide)

theorem RxInv.rebanked {a : Nat} {ps : List RxPacket} {d d' : Dev} (h : RxInv a ps d)
    (hr : d.chip.core.Rebanked d'.chip.core) (hc : d'.Coherent)
    (hn : d'.nextPacketPtr = d.nextPacketPtr) : RxInv a ps d' where
  idle := hr.txrts.trans h.idle
  coherent := hc
  ring := h.ring.congr fun r hr' => hr.reg r (rxRegs_ne (mem_rxRegs hr')).1
  pos := h.pos
  next := hn.trans h.next
  erxrdpt := (Core.ptr_congr (hr.reg _ (by decide)) (hr.reg _ (by decide))).trans h.erxrdpt
  erxwrpt := (Core.ptr_congr (hr.reg _ (by decide)) (hr.reg _ (by decide))).trans h.erxwrpt
  count := by rw [hr.reg _ (by decide), h.count]
  fits := h.fits
  wellFormed := h.wellFormed
  layout := by rw [hr.mem]; exact h.layout

/-- With a coherent bank the packet count comes back as the chip holds it. -/
theorem read_epktcnt_eq (env : Env) {d : Dev} (hd : d.Idle) (hc : d.Coherent) :
    (read env epktcnt d).1 = d.chip.core.reg epktcnt := by
  obtain ⟨-, -, -, -, hval⟩ := read_spec env hd (hc.at epktcnt) (by decide) (by decide)
  exact hval (by decide) (by decide) (by decide)

/-- `EPKTCNT` is read. -/
theorem RxInv.read_epktcnt (env : Env) {a : Nat} {ps : List RxPacket} {d : Dev}
    (h : RxInv a ps d) :
    (read env epktcnt d).1.toNat = ps.length ∧
      d.chip.core.Rebanked (read env epktcnt d).2.chip.core ∧
      RxInv a ps (read env epktcnt d).2 := by
  obtain ⟨hr, hbank, hdrv, hnext, -⟩ :=
    read_spec env h.idle (h.coherent.at epktcnt) (by decide) (by decide)
  refine ⟨?_, hr, h.rebanked hr (hbank.trans hdrv.symm) hnext⟩
  rw [read_epktcnt_eq env h.idle h.coherent]
  exact h.count

/-- **With no packet pending nothing is returned and nothing changes**, the
selected bank apart. -/
theorem packetReceive_empty (env : Env) (maxlen : BitVec 32) (packet : Nat → Byte) {a : Nat}
    {d : Dev} (h : RxInv a [] d) :
    let r := packetReceive env maxlen packet d
    r.1 = 0 ∧ r.2.1 = packet ∧ d.chip.core.Rebanked r.2.2.chip.core ∧ RxInv a [] r.2.2 := by
  intro r
  obtain ⟨hcnt, hr, hinv⟩ := h.read_epktcnt env
  have hzero : (read env epktcnt d).1 = 0 := BitVec.eq_of_toNat_eq hcnt
  have heq : r = (0, packet, (read env epktcnt d).2) := if_pos hzero
  rw [heq]
  exact ⟨rfl, rfl, hr, hinv⟩

theorem toNat_sub_one {b : Byte} {n : Nat} (h : b.toNat = n + 1) : (b - 1).toNat = n := by
  rw [BitVec.toNat_sub_of_le (by rw [BitVec.le_def, h]; exact Nat.succ_pos n), h]
  rfl

/-- The cells of the oldest packet are given back, when the read pointers and the
bank are all that has changed since the packet was found. -/
theorem RxInv.released (env : Env) {a : Nat} {p : RxPacket} {ps : List RxPacket} {d d' : Dev}
    (h : RxInv a (p :: ps) d) (hi : d'.Idle) (hc : d'.Coherent)
    (hn : d'.nextPacketPtr = BitVec.ofNat 32 ((a + p.size) % rxSize))
    (hmem : d'.chip.core.mem = d.chip.core.mem)
    (hreg : ∀ r, r ≠ erdptl → r ≠ erdpth → r ≠ econ1 →
      d'.chip.core.reg r = d.chip.core.reg r) :
    RxInv ((a + p.size) % rxSize) ps (release env d') ∧
      (release env d').chip.core.mem = d.chip.core.mem := by
  have hfits := h.fits
  rw [total_cons] at hfits
  have hpos : (a + p.size) % rxSize < rxSize := Nat.mod_lt _ (by decide)
  obtain ⟨hi', hc', hn', hmem', hrd, hdec, hreg'⟩ :=
    release_spec env hi hc (Nat.lt_trans hpos (by decide)) hn
  have hall (r : Byte) (hr : r ∈ rxRegs) :
      (release env d').chip.core.reg r = d.chip.core.reg r := by
    obtain ⟨h3, -, -, h1, h2, -⟩ := rxRegs_ne hr
    rw [hreg' r hr, hreg r h1 h2 h3]
  refine ⟨⟨hi', hc', ?_, hpos, hn'.trans hn, hrd, ?_, ?_, ?_, ?_, ?_⟩, hmem'.trans hmem⟩
  · exact h.ring.congr fun r hr => hall r (mem_rxRegs hr)
  · rw [Core.ptr_congr (hall erxwrptl (by decide)) (hall erxwrpth (by decide)), h.erxwrpt,
      total_cons, Nat.mod_add_mod, Nat.add_assoc]
  · have hcnt := hreg epktcnt (by decide) (by decide) (by decide)
    have hcount : (d.chip.core.reg epktcnt).toNat = ps.length + 1 := h.count
    have hne : d'.chip.core.reg epktcnt ≠ 0 := by
      intro hz
      rw [← hcnt, hz] at hcount
      cases hcount
    rw [hdec hne, hcnt, toNat_sub_one hcount]
  · omega
  · exact fun q hq => h.wellFormed q (List.mem_cons_of_mem p hq)
  · rw [hmem', hmem]
    exact layout_congr (Nat.mod_mod _ _).symm h.layout.2

/-- **The oldest pending packet is returned and taken off the ring.** -/
theorem packetReceive_cons (env : Env) {maxlen : Nat} (hm : 0 < maxlen) (hm' : maxlen < 2 ^ 32)
    (packet : Nat → Byte) {a : Nat} {p : RxPacket} {ps : List RxPacket} {d : Dev}
    (h : RxInv a (p :: ps) d) :
    let r := packetReceive env (BitVec.ofNat 32 maxlen) packet d
    r.1 = BitVec.ofNat 32 (p.frame maxlen).length ∧ r.2.1 = p.buffer maxlen packet ∧
      r.2.2.chip.core.mem = d.chip.core.mem ∧ RxInv ((a + p.size) % rxSize) ps r.2.2 := by
  intro r
  have hlen : p.data.length < 2 ^ 16 := by
    have hfits := h.fits
    rw [total_cons] at hfits
    have hsize : p.data.length ≤ p.size := by simp only [RxPacket.size]; omega
    have hring : rxSize < 2 ^ 16 := by decide
    omega
  have hp4 := h.wellFormed p List.mem_cons_self
  -- the packet counter, then the header
  obtain ⟨hcnt, hr₁, h₁⟩ := h.read_epktcnt env
  have hne : (read env epktcnt d).1 ≠ 0 := by
    intro hz
    rw [hz] at hcnt
    cases hcnt
  let d₁ := (read env epktcnt d).2
  obtain ⟨h₂, hptr⟩ := seek_spec env h₁.idle h₁.coherent h₁.ring_lt h₁.next
  let d₂ := seek env d₁
  have hring₂ : d₂.chip.core.RxRing := h₂.ring h₁.ring
  have hmem₂ : d₂.chip.core.mem = d.chip.core.mem := h₂.mem.trans hr₁.mem
  have hlay₂ : Layout d₂.chip.core.mem a (p :: ps) := hmem₂ ▸ h.layout
  obtain ⟨h₃, hnextv, hlenv, hstatv⟩ := header_spec env h₂.idle hring₂
    (hptr.trans (Nat.mod_eq_of_lt h.pos).symm) hlen hlay₂
  let next := readBufOp16 env d₂
  let len := readBufOp16 env { next.2 with nextPacketPtr := next.1 }
  let rxstat := readBufOp16 env len.2
  let d₃ := rxstat.2
  have hring₃ : d₃.chip.core.RxRing := h₃.core.ring hring₂
  -- the frame
  have hlay₃ : Layout d₃.chip.core.mem a (p :: ps) := by
    rw [show d₃.chip.core.mem = d₂.chip.core.mem from h₃.core.mem]
    exact hlay₂
  obtain ⟨-, hdata⟩ := layout_header hlay₃
  have hidle₃ : d₃.Idle := h₃.idle (h₂.idle.withNext next.1)
  have hptr₃ : d₃.chip.core.ptr erdptl erdpth = (a + 6) % rxSize := h₃.core.erdpt
  obtain ⟨hres, hbuf, k, h₄⟩ := readFrame_spec env hidle₃ hring₃ hptr₃ hdata hlen maxlen packet
  let frame := readFrame env (BitVec.ofNat 32 p.status.toNat)
    (BitVec.ofNat 32 (min (p.data.length - 4) (maxlen - 1))) packet d₃
  have heq : r = (frame.1, frame.2.1, release env frame.2.2) := by
    have hcut := cut_length hp4 hlen hm hm'
    have hr : r =
        let cut := if len.1 - 4 > BitVec.ofNat 32 maxlen - 1 then BitVec.ofNat 32 maxlen - 1
          else len.1 - 4
        let frame := readFrame env rxstat.1 cut packet d₃
        (frame.1, frame.2.1, release env frame.2.2) := if_neg hne
    rw [hr, hlenv, hcut, hstatv]
  -- the cells are given back
  have hreg₄ : ∀ r, r ≠ erdptl → r ≠ erdpth → r ≠ econ1 →
      frame.2.2.chip.core.reg r = d.chip.core.reg r := by
    intro r h1 h2 h3
    rw [h₄.core.reg r h1 h2, h₃.core.reg r h1 h2]
    exact (h₂.keep_ptr (by decide) (by decide) h3 h1 h2).trans (hr₁.reg r h3)
  obtain ⟨hinv, hmem⟩ := h.released env (h₄.idle hidle₃)
    (h₄.coherent (h₃.coherent (h₂.coherent.withNext next.1))) (h₄.next.trans (h₃.next.trans hnextv))
    (h₄.core.mem.trans (h₃.core.mem.trans hmem₂)) hreg₄
  rw [heq]
  exact ⟨hres, hbuf, hmem, hinv⟩

/-! ## The chip stores a packet -/

namespace Core

/-- Of the ring all but one cell can hold unread packets. -/
theorem RxRing.free_eq {c : Core} (h : c.RxRing) {a t : Nat} (ha : a < rxSize) (ht : t < rxSize)
    (hrd : c.ptr erxrdptl erxrdpth = a) (hwr : c.ptr erxwrptl erxwrpth = (a + t) % rxSize) :
    c.free = rxSize - 1 - t := by
  have hsize : c.ringSize = rxSize := by rw [ringSize, h.erxnd, h.erxst]; rfl
  rw [free, hsize, hrd, hwr]
  rcases Nat.lt_or_ge (a + t) rxSize with hlt | hge
  · rw [Nat.mod_eq_of_lt hlt, show a + rxSize - 1 - (a + t) = rxSize - 1 - t by omega]
    exact Nat.mod_eq_of_lt (by omega)
  · have hmod : (a + t) % rxSize = a + t - rxSize := by
      rw [Nat.mod_eq_sub_mod hge, Nat.mod_eq_of_lt (by omega)]
    rw [hmod, show a + rxSize - 1 - (a + t - rxSize) = rxSize - 1 - t + rxSize by omega,
      Nat.add_mod_right]
    exact Nat.mod_eq_of_lt (by omega)

theorem RxRing.receive_spec {c : Core} (h : c.RxRing) (p : RxPacket) {w : Nat}
    (hw : c.ptr erxwrptl erxwrpth = w % rxSize) :
    (c.receive p).mem = store rxSize c.mem w (image p ((w + p.size) % rxSize)) ∧
      (c.receive p).ptr erxwrptl erxwrpth = (w + p.size) % rxSize ∧
      (c.receive p).reg epktcnt = c.reg epktcnt + 1 ∧
      ∀ r, r ≠ erxwrptl → r ≠ erxwrpth → r ≠ epktcnt → (c.receive p).reg r = c.reg r := by
  have hlt : (w + p.size) % rxSize < memSize :=
    Nat.lt_trans (Nat.mod_lt _ (by decide)) (by decide : rxSize < memSize)
  have hend : c.next^[6 + p.data.length + p.pad] (c.ptr erxwrptl erxwrpth) =
      (w + p.size) % rxSize := by rw [hw, h.iterate, RxPacket.size]
  refine ⟨?_, ?_, ?_, fun r h1 h2 h3 => ?_⟩
  · rw [receive, setPtr]
    dsimp only
    rw [hend, hw, h.storeBytes]
  · rw [receive, ptr_setPtr _ (by decide), hend, Nat.mod_eq_of_lt hlt]
  · rw [receive, setPtr_reg _ (by decide) (by decide)]
    exact Function.update_self epktcnt (c.reg epktcnt + 1) c.reg
  · rw [receive, setPtr_reg _ h1 h2]
    exact Function.update_of_ne h3 (c.reg epktcnt + 1) c.reg

end Core

/-- The chip takes a packet in. -/
def Dev.storePacket (p : RxPacket) (d : Dev) : Dev :=
  { d with chip := { d.chip with core := d.chip.core.receive p } }

/-- **A packet that the chip accepts is added at the end.** -/
theorem RxInv.store {a : Nat} {ps : List RxPacket} {d : Dev} (h : RxInv a ps d) {p : RxPacket}
    (hp : d.chip.core.Accepts p) : RxInv a (ps ++ [p]) (d.storePacket p) := by
  obtain ⟨-, hcnt, hp4, hfree⟩ := hp
  rw [h.ring.free_eq h.pos h.fits h.erxrdpt h.erxwrpt] at hfree
  obtain ⟨hmem, hwr, hcount, hreg⟩ := h.ring.receive_spec p h.erxwrpt
  have he : (d.storePacket p).chip.core.reg econ1 = d.chip.core.reg econ1 :=
    hreg econ1 (by decide) (by decide) (by decide)
  have hfits : total ps + p.size < rxSize := by
    have hsize : p.size = 6 + p.data.length + p.pad := rfl
    have := h.fits
    omega
  refine ⟨?_, ?_, ?_, h.pos, h.next, ?_, ?_, ?_, ?_, ?_, ?_⟩
  · rw [Dev.Idle, Core.txrts, he]
    exact h.idle
  · rw [Dev.Coherent, Core.bank, he]
    exact h.coherent
  · refine h.ring.congr fun r hr => ?_
    have hno : r ≠ erxwrptl ∧ r ≠ erxwrpth := by
      simp only [List.mem_cons, List.not_mem_nil, or_false] at hr
      rcases hr with rfl | rfl | rfl | rfl <;> decide
    exact hreg r hno.1 hno.2 (rxRegs_ne (mem_rxRegs hr)).2.2.1
  · rw [← h.erxrdpt]
    exact Core.ptr_congr (hreg _ (by decide) (by decide) (by decide))
      (hreg _ (by decide) (by decide) (by decide))
  · rw [total_append, total_cons, total_nil, Nat.add_zero, ← Nat.add_assoc]
    exact hwr
  · have hsum : ((d.storePacket p).chip.core.reg epktcnt).toNat =
        (d.chip.core.reg epktcnt).toNat + 1 := by
      rw [show (d.storePacket p).chip.core.reg epktcnt = d.chip.core.reg epktcnt + 1 from hcount,
        BitVec.toNat_add]
      exact Nat.mod_eq_of_lt (by show _ + 1 < 256; omega)
    rw [hsum, h.count, List.length_append, List.length_singleton]
  · rw [total_append, total_cons, total_nil, Nat.add_zero]
    exact hfits
  · intro q hq
    rcases List.mem_append.mp hq with hq | hq
    · exact h.wellFormed q hq
    · rw [List.mem_singleton.mp hq]
      exact hp4
  · show Layout (d.chip.core.receive p).mem a (ps ++ [p])
    have hlen := length_image p ((a + total ps + p.size) % rxSize)
    have hsize : 6 + p.data.length ≤ p.size := Nat.le_add_right _ _
    rw [hmem, layout_append]
    refine ⟨layout_store _ (Nat.le_refl _) (by omega) h.layout, ?_, trivial⟩
    rw [← hlen]
    exact slice_store _ _ _ (by omega)

/-! ## After `ENC28J60_Init` -/

/-- The ring is set up and empty. -/
theorem Started.rxInv {macaddr : Fin 6 → Byte} {d : Dev} (h : Started macaddr d) :
    RxInv rxstartInit [] d := by
  have hval {r a x : Byte} {i : Nat} (hr : r ≠ econ1)
      (hw : (initAll macaddr)[i]? = some (a, x)) (hreach : reaches (a &&& 0x7F) r = true)
      (hrest : spares ((initAddrs ++ [eie]).drop (i + 1)) r = true) :
      d.chip.core.reg r = x :=
    (h.reg r hr).trans (initAll_value macaddr hw hreach hrest _)
  have hstl := hval (r := erxstl) (i := 0) (by decide) rfl rfl rfl
  have hsth := hval (r := erxsth) (i := 1) (by decide) rfl rfl rfl
  have hrdl := hval (r := erxrdptl) (i := 2) (by decide) rfl rfl rfl
  have hrdh := hval (r := erxrdpth) (i := 3) (by decide) rfl rfl rfl
  have hndl := hval (r := erxndl) (i := 4) (by decide) rfl rfl rfl
  have hndh := hval (r := erxndh) (i := 5) (by decide) rfl rfl rfl
  have hwrl := hval (r := erxwrptl) (i := 0) (by decide) rfl rfl rfl
  have hwrh := hval (r := erxwrpth) (i := 1) (by decide) rfl rfl rfl
  have hcnt : d.chip.core.reg epktcnt = 0 :=
    (h.reg epktcnt (by decide)).trans (initAll_other macaddr rfl _)
  refine ⟨h.idle, h.coherent, ⟨?_, ?_⟩, by decide, h.next, ?_, ?_, ?_, by decide, ?_, trivial⟩
  · rw [Core.ptr, hstl, hsth]
    rfl
  · rw [Core.ptr, hndl, hndh]
    rfl
  · rw [Core.ptr, hrdl, hrdh]
    rfl
  · rw [Core.ptr, hwrl, hwrh]
    rfl
  · rw [hcnt]
    rfl
  · exact List.forall_mem_nil _

/-- A reset chip has no packet. -/
theorem Stopped.packetReceive (env : Env) (maxlen : BitVec 32) (packet : Nat → Byte) {d : Dev}
    (h : Stopped d) :
    let r := packetReceive env maxlen packet d
    r.1 = 0 ∧ r.2.1 = packet ∧ d.chip.core.Rebanked r.2.2.chip.core ∧
      r.2.2.nextPacketPtr = d.nextPacketPtr ∧ Stopped r.2.2 := by
  intro r
  obtain ⟨hr, hbank, hdrv, hnext, -⟩ :=
    read_spec env h.idle (h.coherent.at epktcnt) (by decide) (by decide)
  have hzero : (read env epktcnt d).1 = 0 := by
    rw [read_epktcnt_eq env h.idle h.coherent]
    exact h.reg epktcnt (by decide)
  have heq : r = (0, packet, (read env epktcnt d).2) := if_pos hzero
  rw [heq]
  refine ⟨rfl, rfl, hr, hnext, hr.txrts.trans h.idle, hbank.trans hdrv.symm,
    hr.rxen.trans h.rxen, fun r hr1 => (hr.reg r hr1).trans (h.reg r hr1)⟩

/-! ## Runs of reception -/

/-- The device, the caller's buffer, the result of the last call, and what an
observer knows: the packets stored and not yet returned, each with the cell
where it begins. -/
structure RxState where
  dev : Dev
  buf : Nat → Byte
  result : BitVec 32
  pending : List (Nat × RxPacket)

/-- The chip stores a packet, or the driver is called, with what the chip does
during the call. -/
inductive RxEvent where
  | store (p : RxPacket)
  | receive (env : Env)

def rxStep (s : RxState) : RxEvent → Option RxState
  | .store p =>
    let w := s.dev.chip.core.ptr erxwrptl erxwrpth
    if s.dev.chip.core.Accepts p then
      some { s with dev := s.dev.storePacket p, pending := s.pending ++ [(w, p)] }
    else none
  | .receive env =>
    let (result, buf, dev) := packetReceive env (BitVec.ofNat 32 maxFramelen) s.buf s.dev
    some ⟨dev, buf, result, s.pending.tail⟩

/-- A call with nothing pending: the bank may be switched, that is all. -/
structure Untouched (s t : RxState) : Prop where
  result : t.result = 0
  buf : t.buf = s.buf
  mem : t.dev.chip.core.mem = s.dev.chip.core.mem
  reg : ∀ r, r ≠ econ1 → t.dev.chip.core.reg r = s.dev.chip.core.reg r
  next : t.dev.nextPacketPtr = s.dev.nextPacketPtr

/-- Where the oldest unread packet begins, or the next one stored will. -/
def RxState.oldest (s : RxState) : Nat :=
  (s.pending.head?.map Prod.fst).getD (s.dev.chip.core.ptr erxwrptl erxwrpth)

/-- A call that returns the packet `p`. -/
structure Returned (p : RxPacket) (s t : RxState) : Prop where
  result : t.result.toNat = (p.frame maxFramelen).length
  buf : t.buf = p.buffer maxFramelen s.buf
  mem : t.dev.chip.core.mem = s.dev.chip.core.mem
  count : (t.dev.chip.core.reg epktcnt).toNat + 1 = (s.dev.chip.core.reg epktcnt).toNat
  erxrdpt : t.dev.chip.core.ptr erxrdptl erxrdpth = t.oldest
  next : t.dev.nextPacketPtr = BitVec.ofNat 32 t.oldest

/-- The unread packets are in the ring as the chip stored them. -/
def Intact (s : RxState) : Prop :=
  ∀ x ∈ s.pending, slice rxSize s.dev.chip.core.mem x.1 (6 + x.2.data.length) =
    Core.image x.2 ((x.1 + x.2.size) % rxSize)

/-- One step of reception as a step of a queue of packets. -/
def Refines (s : RxState) (e : RxEvent) (t : RxState) : Prop :=
  Intact t ∧
    match e, s.pending with
    | .store p, _ => t.pending.map Prod.snd = s.pending.map Prod.snd ++ [p] ∧ t.buf = s.buf
    | .receive _, [] => Untouched s t ∧ t.pending = []
    | .receive _, (_, p) :: rest => Returned p s t ∧ t.pending = rest

/-- Where the packets of a chain begin. -/
def starts : Nat → List RxPacket → List (Nat × RxPacket)
  | _, [] => []
  | a, p :: ps => (a % rxSize, p) :: starts (a + p.size) ps

theorem starts_append (a : Nat) (ps qs : List RxPacket) :
    starts a (ps ++ qs) = starts a ps ++ starts (a + total ps) qs := by
  induction ps generalizing a with
  | nil => rfl
  | cons p ps ih => rw [List.cons_append, starts, ih, total_cons, Nat.add_assoc]; rfl

theorem starts_congr {a b : Nat} (h : a % rxSize = b % rxSize) (ps : List RxPacket) :
    starts a ps = starts b ps := by
  induction ps generalizing a b with
  | nil => rfl
  | cons p ps ih => rw [starts, starts, h, ih (Nat.ModEq.add_right p.size h)]

/-- Packets of a chain are intact. -/
theorem layout_starts {mem : Nat → Byte} {a : Nat} {ps : List RxPacket} (h : Layout mem a ps) :
    ∀ x ∈ starts a ps, slice rxSize mem x.1 (6 + x.2.data.length) =
      Core.image x.2 ((x.1 + x.2.size) % rxSize) := by
  induction ps generalizing a with
  | nil => exact List.forall_mem_nil _
  | cons p ps ih =>
    obtain ⟨hp, hps⟩ := h
    intro x hx
    rcases List.mem_cons.mp hx with rfl | hx
    · rw [slice_mod, Nat.mod_add_mod]
      exact hp
    · exact ih hps x hx

/-- The invariant of a run. -/
def RxRun (s : RxState) : Prop :=
  (∃ a ps, RxInv a ps s.dev ∧ s.pending = starts a ps) ∨ (Stopped s.dev ∧ s.pending = [])

/-- The oldest unread packet begins where the driver reads on. -/
theorem oldest_eq {s : RxState} {a : Nat} {ps : List RxPacket} (h : RxInv a ps s.dev)
    (hs : s.pending = starts a ps) : s.oldest = a := by
  rw [RxState.oldest, hs]
  cases ps with
  | nil => exact h.erxwrpt.trans (Nat.mod_eq_of_lt h.pos)
  | cons p ps => exact Nat.mod_eq_of_lt h.pos

theorem length_frame_lt (p : RxPacket) {maxlen : Nat} (hm : 0 < maxlen) :
    (p.frame maxlen).length < maxlen := by
  rw [RxPacket.frame]
  split
  · exact hm
  · rw [List.length_take]
    omega

theorem rxStep_store {s t : RxState} {p : RxPacket} (h : RxRun s)
    (hs : rxStep s (.store p) = some t) : RxRun t ∧ Refines s (.store p) t := by
  rw [rxStep] at hs
  split at hs
  case isFalse => cases hs
  case isTrue hp =>
    obtain rfl := Option.some.inj hs
    rcases h with ⟨a, ps, hinv, hpend⟩ | ⟨hstop, -⟩
    · have hinv' := hinv.store hp
      have hpend' : s.pending ++ [(s.dev.chip.core.ptr erxwrptl erxwrpth, p)] =
          starts a (ps ++ [p]) := by rw [starts_append, hpend, hinv.erxwrpt]; rfl
      refine ⟨.inl ⟨a, ps ++ [p], hinv', hpend'⟩, ?_, ?_, rfl⟩
      · intro x hx
        rw [hpend'] at hx
        exact layout_starts hinv'.layout x hx
      · rw [List.map_append]
        rfl
    · exact absurd (hstop.rxen.symm.trans hp.1) Bool.false_ne_true

theorem rxStep_receive {s t : RxState} {env : Env} (h : RxRun s)
    (hs : rxStep s (.receive env) = some t) : RxRun t ∧ Refines s (.receive env) t := by
  obtain rfl := Option.some.inj hs
  rcases h with ⟨a, ps, hinv, hpend⟩ | ⟨hstop, hpend⟩
  · cases ps with
    | nil =>
      obtain ⟨hres, hbuf, hr, hinv'⟩ :=
        packetReceive_empty env (BitVec.ofNat 32 maxFramelen) s.buf hinv
      have hnil : s.pending = [] := hpend
      refine ⟨.inl ⟨a, [], hinv', by rw [hnil]; rfl⟩, ?_, ?_⟩
      · intro x hx
        rw [hnil] at hx
        cases hx
      · rw [hnil]
        exact ⟨⟨hres, hbuf, hr.mem, hr.reg, hinv'.next.trans hinv.next.symm⟩, rfl⟩
    | cons p ps =>
      obtain ⟨hres, hbuf, hmem, hinv'⟩ :=
        packetReceive_cons env (by decide : 0 < maxFramelen) (by decide) s.buf hinv
      have hcons : s.pending = (a % rxSize, p) :: starts (a + p.size) ps := hpend
      have htail : s.pending.tail = starts ((a + p.size) % rxSize) ps := by
        rw [hcons]
        exact starts_congr (Nat.mod_mod _ _).symm ps
      refine ⟨.inl ⟨_, ps, hinv', htail⟩, ?_, ?_⟩
      · intro x hx
        exact layout_starts hinv'.layout x (htail ▸ hx)
      · rw [hcons]
        have hold := oldest_eq (s := ⟨_, s.buf, 0, s.pending.tail⟩) hinv' htail
        refine ⟨⟨?_, hbuf, hmem, ?_, ?_, ?_⟩, rfl⟩
        · have hlt := length_frame_lt p (by decide : 0 < maxFramelen)
          have hmax : maxFramelen < 2 ^ 32 := by decide
          show (packetReceive env _ s.buf s.dev).1.toNat = _
          rw [hres, BitVec.toNat_ofNat, Nat.mod_eq_of_lt (Nat.lt_trans hlt hmax)]
        · rw [hinv.count]
          exact congrArg (· + 1) hinv'.count
        · rw [← hcons]
          exact hinv'.erxrdpt.trans hold.symm
        · rw [← hcons]
          exact hinv'.next.trans (congrArg (BitVec.ofNat 32) hold.symm)
  · obtain ⟨hres, hbuf, hr, hnext, hstop'⟩ :=
      hstop.packetReceive env (BitVec.ofNat 32 maxFramelen) s.buf
    refine ⟨.inr ⟨hstop', by rw [hpend]; rfl⟩, ?_, ?_⟩
    · intro x hx
      rw [hpend] at hx
      cases hx
    · rw [hpend]
      exact ⟨⟨hres, hbuf, hr.mem, hr.reg, hnext⟩, rfl⟩

/-- **`ENC28J60_Packet_Receive` refines a queue of packets**: after
`ENC28J60_Init`, along every run of packets stored by the chip and calls of the
driver, each call returns the oldest packet that was not returned yet, and
nothing if there is none. -/
theorem receive_refines (env : Env) (macaddr : Fin 6 → Byte) (d : Dev) (buf : Nat → Byte)
    (es : List RxEvent) : Along rxStep Refines ⟨(init env macaddr d).2, buf, 0, []⟩ es := by
  have hstart : RxRun ⟨(init env macaddr d).2, buf, 0, []⟩ := by
    rcases init_spec env macaddr d with ⟨-, h⟩ | ⟨-, h⟩
    · exact .inl ⟨rxstartInit, [], h.rxInv, rfl⟩
    · exact .inr ⟨h, rfl⟩
  refine along_of_inv (fun s e t h hs => ?_) es hstart
  cases e with
  | store p => exact rxStep_store h hs
  | receive env => exact rxStep_receive h hs

end MqttDevice.Enc28j60
