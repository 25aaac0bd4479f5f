import MqttDevice.Enc28j60.Init

/-!
# Sending a frame (`ENC28J60_Packet_Send`)

* `packetSend_spec`: a call made while the transmitter rests loads the frame
  behind `TXSTART_INIT` and starts the transmitter;
* `Sending.fetch`: one step of the transmitter on a loaded frame;
* `Sending.delivers`: left alone, it puts exactly this frame on the wire.
-/

namespace MqttDevice.Enc28j60

open MqttDevice.Ascii MqttDevice.Ring

namespace Core

/-! ## Loading a frame -/

/-- The pointers of a frame of `len` bytes are set. -/
def pointed (c : Core) (len : Nat) : Core :=
  (((c.setReg ewrptl (lo txstartInit)).setReg ewrpth (hi txstartInit)).setReg etxndl
    (lo (txstartInit + len))).setReg etxndh (hi (txstartInit + len))

/-- A frame is loaded with its control byte. -/
def loaded (c : Core) (packet : List Byte) : Core :=
  (0x00 :: packet).foldl writeNext (c.pointed packet.length)

/-- Transmission is requested. -/
def request (c : Core) : Core := c.setReg econ1 (c.reg econ1 ||| econ1Txrts)

/-- Registers that loading a frame does not write. -/
def Untouched (r : Byte) : Prop := r ≠ ewrptl ∧ r ≠ ewrpth ∧ r ≠ etxndl ∧ r ≠ etxndh

instance (r : Byte) : Decidable (Untouched r) := inferInstanceAs (Decidable (_ ∧ _ ∧ _ ∧ _))

theorem writeNext_reg (c : Core) (b : Byte) {r : Byte} (hl : r ≠ ewrptl) (hh : r ≠ ewrpth) :
    (c.writeNext b).reg r = c.reg r := setPtr_reg _ hl hh _

theorem writeNext_txrts (c : Core) (b : Byte) : (c.writeNext b).txrts = c.txrts := by
  rw [txrts, writeNext_reg c b (by decide) (by decide), txrts]

/-- Bytes written one after the other from `a` on. -/
theorem foldl_writeNext (c : Core) (bs : List Byte) {a : Nat}
    (ha : c.ptr ewrptl ewrpth = a % memSize) :
    (bs.foldl writeNext c).mem = store memSize c.mem a bs ∧
      (bs.foldl writeNext c).fetched = c.fetched ∧ (bs.foldl writeNext c).wire = c.wire ∧
      (bs.foldl writeNext c).log =
        c.log ++ (List.range bs.length).map (fun j => Write.buf ((a + j) % memSize) c.txrts) ∧
      ∀ r, r ≠ ewrptl → r ≠ ewrpth → (bs.foldl writeNext c).reg r = c.reg r := by
  induction bs generalizing c a with
  | nil => exact ⟨rfl, rfl, rfl, by simp, fun _ _ _ => rfl⟩
  | cons b bs ih =>
    have ha' : (c.writeNext b).ptr ewrptl ewrpth = (a + 1) % memSize := by
      have h := ptr_setPtr { c with
        mem := Function.update c.mem (c.ptr ewrptl ewrpth) b
        log := c.log ++ [Write.buf (c.ptr ewrptl ewrpth) c.txrts] }
        (by decide : ewrptl ≠ ewrpth) ((c.ptr ewrptl ewrpth + 1) % memSize)
      refine h.trans ?_
      rw [ha, Nat.mod_mod, Nat.mod_add_mod]
    obtain ⟨hmem, hfetched, hwire, hlog, hreg⟩ := ih (c.writeNext b) ha'
    refine ⟨?_, hfetched, hwire, ?_, fun r hl hh => ?_⟩
    · rw [List.foldl_cons, hmem, store, ← ha]
      rfl
    · rw [List.foldl_cons, hlog, writeNext_txrts, List.length_cons, List.range_succ_eq_map]
      show (c.log ++ [Write.buf (c.ptr ewrptl ewrpth) c.txrts]) ++ _ = _
      simp only [ha, List.map_cons, List.map_map, Nat.add_zero, List.append_assoc,
        List.singleton_append]
      congr 2
      refine List.map_congr_left fun j _ => ?_
      simp [Nat.add_assoc, Nat.add_comm 1 j]
    · rw [List.foldl_cons, hreg r hl hh, writeNext_reg c b hl hh]

theorem pointed_spec (c : Core) (len : Nat) :
    (c.pointed len).mem = c.mem ∧ (c.pointed len).fetched = c.fetched ∧
      (c.pointed len).wire = c.wire ∧ (c.pointed len).txrts = c.txrts ∧
      (c.pointed len).log = c.log ++ [Write.reg ewrptl c.txrts, Write.reg ewrpth c.txrts,
        Write.reg etxndl c.txrts, Write.reg etxndh c.txrts] := by
  have h1 : ewrptl ≠ econ1 := by decide
  have h2 : ewrpth ≠ econ1 := by decide
  have h3 : etxndl ≠ econ1 := by decide
  have h4 : etxndh ≠ econ1 := by decide
  refine ⟨?_, ?_, ?_, ?_, ?_⟩
  · simp [pointed]
  · simp only [pointed, setReg_fetched_of_ne _ h1, setReg_fetched_of_ne _ h2,
      setReg_fetched_of_ne _ h3, setReg_fetched_of_ne _ h4]
  · simp [pointed]
  · simp only [pointed, setReg_txrts_of_ne _ h1, setReg_txrts_of_ne _ h2,
      setReg_txrts_of_ne _ h3, setReg_txrts_of_ne _ h4]
  · simp [pointed, setReg_txrts_of_ne _ h1, setReg_txrts_of_ne _ h2, setReg_txrts_of_ne _ h3]

theorem pointed_reg (c : Core) (len : Nat) (r : Byte) :
    (c.pointed len).reg r =
      if r = etxndh then hi (txstartInit + len)
      else if r = etxndl then lo (txstartInit + len)
      else if r = ewrpth then hi txstartInit
      else if r = ewrptl then lo txstartInit
      else c.reg r := by
  have hr (a : Byte) (ha : a ∈ [ewrptl, ewrpth, etxndl, etxndh]) :
      reaches a r = decide (r = a) := by
    have h1 : (a == erxstl) = false ∧ (a == erxsth) = false := by
      revert ha
      revert a
      decide +kernel
    simp only [reaches, h1, Bool.false_and, Bool.or_false]
    rfl
  simp only [pointed, setReg_reg _ (by decide : etxndh ≠ econ1) (by decide : etxndh ≠ econ2),
    setReg_reg _ (by decide : etxndl ≠ econ1) (by decide : etxndl ≠ econ2),
    setReg_reg _ (by decide : ewrpth ≠ econ1) (by decide : ewrpth ≠ econ2),
    setReg_reg _ (by decide : ewrptl ≠ econ1) (by decide : ewrptl ≠ econ2),
    hr ewrptl (by simp), hr ewrpth (by simp), hr etxndl (by simp), hr etxndh (by simp),
    decide_eq_true_eq]

/-- **A loaded frame**: control byte and frame lie behind `TXSTART_INIT`, and
`ETXND` has the 13 bits of the address of the last byte. -/
theorem loaded_spec (c : Core) (packet : List Byte) :
    (c.loaded packet).mem = store memSize c.mem txstartInit (0x00 :: packet) ∧
      (c.loaded packet).fetched = c.fetched ∧ (c.loaded packet).wire = c.wire ∧
      (c.loaded packet).log = c.log ++ [Write.reg ewrptl c.txrts, Write.reg ewrpth c.txrts,
        Write.reg etxndl c.txrts, Write.reg etxndh c.txrts] ++
          (List.range (packet.length + 1)).map
            (fun j => Write.buf ((txstartInit + j) % memSize) c.txrts) ∧
      (∀ r, Untouched r → (c.loaded packet).reg r = c.reg r) ∧
      (c.loaded packet).ptr etxndl etxndh = (txstartInit + packet.length) % memSize := by
  obtain ⟨hmem, hfetched, hwire, htx, hlog⟩ := pointed_spec c packet.length
  have hw : (c.pointed packet.length).ptr ewrptl ewrpth = txstartInit % memSize := by
    rw [ptr, pointed_reg, pointed_reg]
    exact ptr_eq txstartInit
  obtain ⟨hmem', hfetched', hwire', hlog', hreg'⟩ :=
    foldl_writeNext (c.pointed packet.length) (0x00 :: packet) hw
  refine ⟨by rw [loaded, hmem', hmem], hfetched'.trans hfetched, hwire'.trans hwire, ?_, ?_, ?_⟩
  · rw [loaded, hlog', hlog, htx, List.length_cons]
  · rintro r ⟨h1, h2, h3, h4⟩
    rw [loaded, hreg' r h1 h2, pointed_reg, if_neg h4, if_neg h3, if_neg h2, if_neg h1]
  · have hl := hreg' etxndl (by decide) (by decide)
    have hh := hreg' etxndh (by decide) (by decide)
    rw [loaded, ptr_congr hl hh, ptr, pointed_reg, pointed_reg]
    exact ptr_eq (txstartInit + packet.length)

theorem loaded_txrts (c : Core) (packet : List Byte) : (c.loaded packet).txrts = c.txrts := by
  obtain ⟨-, -, -, -, hreg, -⟩ := c.loaded_spec packet
  rw [txrts, hreg econ1 (by decide), txrts]

theorem request_reg (c : Core) {r : Byte} (h : r ≠ econ1) : c.request.reg r = c.reg r := by
  simp [request, setReg, h]

theorem request_bank (c : Core) : c.request.bank = c.bank := by
  have hbit : econ1Txrts &&& econ1Bsel = 0 := by decide
  simp [bank, request, setReg, BitVec.and_or_distrib_right, hbit]

/-! ## The transmitter -/

theorem fetch_reg (c : Core) (s : Fin 7 → Byte) {r : Byte} (h1 : r ≠ econ1) (h2 : r ≠ eir) :
    (c.fetch s).reg r = c.reg r := by
  simp only [fetch]
  split_ifs <;> simp [h1, h2]

/-- Of `ECON1` the transmitter changes only `TXRTS`, of `EIR` only `TXIF`. -/
theorem fetch_flags (c : Core) (s : Fin 7 → Byte) :
    (c.fetch s).reg econ1 &&& ~~~econ1Txrts = c.reg econ1 &&& ~~~econ1Txrts ∧
      (c.fetch s).reg eir &&& eirTxerif = c.reg eir &&& eirTxerif := by
  have hne : econ1 ≠ eir := by decide
  have hbit : eirTxif &&& eirTxerif = 0 := by decide
  simp only [fetch]
  split_ifs
  · refine ⟨?_, ?_⟩
    · simp [hne, BitVec.and_assoc]
    · simp [BitVec.and_or_distrib_right, hbit]
  · exact ⟨rfl, rfl⟩
  · exact ⟨rfl, rfl⟩

theorem fetches_reg (c : Core) (ss : List (Fin 7 → Byte)) {r : Byte} (h1 : r ≠ econ1)
    (h2 : r ≠ eir) : (c.fetches ss).reg r = c.reg r := by
  induction ss generalizing c with
  | nil => rfl
  | cons s ss ih => exact (ih (c.fetch s)).trans (fetch_reg c s h1 h2)

theorem fetches_flags (c : Core) (ss : List (Fin 7 → Byte)) :
    (c.fetches ss).reg econ1 &&& ~~~econ1Txrts = c.reg econ1 &&& ~~~econ1Txrts ∧
      (c.fetches ss).reg eir &&& eirTxerif = c.reg eir &&& eirTxerif := by
  induction ss generalizing c with
  | nil => exact ⟨rfl, rfl⟩
  | cons s ss ih =>
    obtain ⟨h1, h2⟩ := ih (c.fetch s)
    obtain ⟨h3, h4⟩ := fetch_flags c s
    exact ⟨h1.trans h3, h2.trans h4⟩

/-- All that the transmitter writes is status vectors. -/
theorem fetches_log (c : Core) (ss : List (Fin 7 → Byte)) :
    ∃ l, (c.fetches ss).log = c.log ++ l ∧ ∀ w ∈ l, ∃ a, w = Write.status a := by
  induction ss generalizing c with
  | nil => exact ⟨[], by simp, by simp⟩
  | cons s ss ih =>
    obtain ⟨l, hl, hw⟩ := ih (c.fetch s)
    obtain ⟨l₀, hl₀, hw₀⟩ : ∃ l₀, (c.fetch s).log = c.log ++ l₀ ∧
        ∀ w ∈ l₀, ∃ a, w = Write.status a := by
      simp only [fetch]
      split_ifs
      · exact ⟨_, rfl, by simp⟩
      · exact ⟨[], by simp, by simp⟩
      · exact ⟨[], by simp, by simp⟩
    refine ⟨l₀ ++ l, ?_, fun w hwl => ?_⟩
    · rw [← List.append_assoc, ← hl₀]
      exact hl
    · rcases List.mem_append.mp hwl with hwl | hwl
      · exact hw₀ w hwl
      · exact hw w hwl

theorem fetches_bank (c : Core) (ss : List (Fin 7 → Byte)) : (c.fetches ss).bank = c.bank := by
  rw [bank, bank, and_eq_of_and_compl (by decide) (fetches_flags c ss).1]

/-- A frame is on its way: the transmitter has taken part of it and the rest
lies where it will look for it. -/
structure Sending (c : Core) (frame : List Byte) : Prop where
  txrts : c.txrts = true
  fits : frame.length < memSize
  etxst : c.ptr etxstl etxsth = txstartInit
  etxnd : c.ptr etxndl etxndh = (txstartInit + frame.length) % memSize
  mem : slice memSize c.mem txstartInit (frame.length + 1) = 0x00 :: frame
  fetched : ∃ k ≤ frame.length, c.fetched = (0x00 :: frame).take k

/-- What the transmitter leaves behind when the frame is out. -/
structure Sent (c : Core) (frame : List Byte) (c' : Core) : Prop where
  txrts : c'.txrts = false
  wire : c'.wire = c.wire ++ [frame]
  log : c'.log = c.log ++ (List.range 7).map fun i =>
    Write.status ((txstartInit + frame.length + 1 + i) % memSize)
  mem : ∀ a, (∀ i < 7, a ≠ (txstartInit + frame.length + 1 + i) % memSize) → c'.mem a = c.mem a

theorem foldl_update_of_ne {ι : Type} (l : List ι) (f : ι → Nat) (g : ι → Byte) (m : Nat → Byte)
    {a : Nat} (h : ∀ i ∈ l, a ≠ f i) :
    (l.foldl (fun m i => Function.update m (f i) (g i)) m) a = m a := by
  induction l generalizing m with
  | nil => rfl
  | cons i l ih =>
    rw [List.foldl_cons, ih _ fun j hj => h j (List.mem_cons_of_mem i hj),
      Function.update_of_ne (h i List.mem_cons_self)]

/-- **One step of the transmitter.** -/
theorem Sending.fetch {c : Core} {frame : List Byte} (h : c.Sending frame)
    (status : Fin 7 → Byte) :
    ((c.fetch status).Sending frame ∧ (c.fetch status).wire = c.wire ∧
        (c.fetch status).log = c.log ∧ (c.fetch status).mem = c.mem ∧
        (c.fetch status).fetched.length = c.fetched.length + 1) ∨
      (c.Sent frame (c.fetch status) ∧ c.fetched.length = frame.length) := by
  obtain ⟨k, hk, hfetched⟩ := h.fetched
  have hlen : c.fetched.length = k := by
    rw [hfetched, List.length_take, List.length_cons]
    omega
  have hk' : k < ((0x00 : Byte) :: frame).length := Nat.lt_succ_of_le hk
  have hcell : c.mem ((txstartInit + k) % memSize) = ((0x00 : Byte) :: frame)[k] := by
    have hget := congrArg (fun l => l[k]?) h.mem
    rw [List.getElem?_eq_getElem hk'] at hget
    simpa [slice, Nat.lt_succ_of_le hk] using hget
  have htake : c.fetched ++ [c.mem ((txstartInit + k) % memSize)] =
      (0x00 :: frame).take (k + 1) := by
    rw [hfetched, hcell, List.take_append_getElem]
  rcases Nat.lt_or_eq_of_le hk with hlt | heq
  · left
    have hne : (txstartInit + k) % memSize ≠ (txstartInit + frame.length) % memSize :=
      add_mod_ne hlt (by have := h.fits; omega)
    have hfetch : c.fetch status = { c with fetched := (0x00 :: frame).take (k + 1) } := by
      simp only [Core.fetch, h.txrts, if_true, h.etxst, h.etxnd, hlen, if_neg hne, htake]
    rw [hfetch]
    refine ⟨⟨h.txrts, h.fits, h.etxst, h.etxnd, h.mem, k + 1, hlt, rfl⟩, rfl, rfl, rfl, ?_⟩
    rw [List.length_take, hlen]
    omega
  · right
    have hend : (txstartInit + k) % memSize = (txstartInit + frame.length) % memSize := by rw [heq]
    have hstatus (i : Nat) :
        c.statusCell i = (txstartInit + frame.length + 1 + i) % memSize := by
      rw [statusCell, h.etxnd, Nat.add_assoc, Nat.mod_add_mod]
      simp only [Nat.add_assoc]
    have hne : econ1 ≠ eir := by decide
    have hclr : ~~~econ1Txrts &&& econ1Txrts = 0 := by decide
    refine ⟨⟨?_, ?_, ?_, fun a ha => ?_⟩, hlen.trans heq⟩ <;>
      simp only [Core.fetch, h.txrts, if_true, h.etxst, hlen, hend, h.etxnd]
    · simp [Core.txrts, hne, BitVec.and_assoc, hclr]
    · rw [← hend, htake, heq, List.take_of_length_le (by simp), List.tail_cons]
    · simp only [hstatus]
    · refine foldl_update_of_ne _ (fun i : Fin 7 => c.statusCell i.val) status c.mem fun i _ => ?_
      rw [hstatus]
      exact ha i.val i.isLt

/-- **The transmitter left alone**: either still at the frame, or the frame is
out, and it is out as soon as all its bytes have been taken. -/
theorem Sending.fetches {c : Core} {frame : List Byte} (h : c.Sending frame)
    (ss : List (Fin 7 → Byte)) :
    ((c.fetches ss).Sending frame ∧ (c.fetches ss).wire = c.wire ∧
        (c.fetches ss).log = c.log ∧ (c.fetches ss).mem = c.mem ∧
        ss.length + c.fetched.length ≤ frame.length) ∨
      (c.Sent frame (c.fetches ss) ∧ frame.length < ss.length + c.fetched.length) := by
  induction ss generalizing c with
  | nil =>
    obtain ⟨k, hk, hfetched⟩ := h.fetched
    refine .inl ⟨h, rfl, rfl, rfl, ?_⟩
    rw [hfetched, List.length_take, List.length_nil]
    omega
  | cons s ss ih =>
    rcases h.fetch s with ⟨hnext, hwire, hlog, hmem, hlen⟩ | ⟨hsent, hlen⟩
    · rcases ih hnext with ⟨h1, h2, h3, h4, h5⟩ | ⟨h1, h2⟩
      · refine .inl ⟨h1, h2.trans hwire, h3.trans hlog, h4.trans hmem, ?_⟩
        rw [List.length_cons]
        omega
      · refine .inr ⟨⟨h1.txrts, ?_, ?_, fun a ha => ?_⟩, ?_⟩
        · rw [← hwire]
          exact h1.wire
        · rw [← hlog]
          exact h1.log
        · rw [← hmem]
          exact h1.mem a ha
        · rw [List.length_cons]
          omega
    · have hstay : c.fetches (s :: ss) = c.fetch s := fetches_idle hsent.txrts ss
      rw [hstay, List.length_cons]
      exact .inr ⟨hsent, by omega⟩

theorem request_spec (c : Core) (h : c.txrts = false) :
    c.request.txrts = true ∧ c.request.fetched = [] ∧ c.request.mem = c.mem ∧
      c.request.wire = c.wire ∧ c.request.log = c.log ++ [Write.reg econ1 false] := by
  have hbit (x : Byte) : (x ||| econ1Txrts) &&& econ1Txrts ≠ 0 := by
    revert x
    decide +kernel
  refine ⟨?_, ?_, rfl, rfl, ?_⟩
  · simpa [txrts, request, setReg] using hbit (c.reg econ1)
  · have hset : ((c.reg econ1 ||| econ1Txrts) &&& econ1Txrts != 0) = true := by
      simpa using hbit (c.reg econ1)
    have hnew : (!c.txrts) = true := by rw [h]; rfl
    simp only [request, setReg, if_true, hset, Bool.true_and]
    exact if_pos hnew
  · rw [request, setReg_log, h]

/-- **A frame that has just been handed over is on its way.** -/
theorem request_sending {c : Core} (packet : List Byte) (htx : c.txrts = false)
    (hst : c.ptr etxstl etxsth = txstartInit) (hfit : packet.length < memSize) :
    (c.loaded packet).request.Sending packet := by
  obtain ⟨hmem, -, -, -, hreg, hnd⟩ := c.loaded_spec packet
  obtain ⟨htx', hfetched, hmem', -, -⟩ := request_spec (c.loaded packet)
    ((c.loaded_txrts packet).trans htx)
  have hptr (l h : Byte) (hl : l ≠ econ1) (hh : h ≠ econ1) :
      (c.loaded packet).request.ptr l h = (c.loaded packet).ptr l h :=
    ptr_congr (request_reg _ hl) (request_reg _ hh)
  refine ⟨htx', hfit, ?_, ?_, ?_, 0, Nat.zero_le _, by rw [hfetched, List.take_zero]⟩
  · rw [hptr _ _ (by decide) (by decide), ptr_congr (hreg etxstl (by decide))
      (hreg etxsth (by decide)), hst]
  · rw [hptr _ _ (by decide) (by decide), hnd]
  · rw [hmem', hmem]
    exact slice_store c.mem txstartInit (0x00 :: packet) (Nat.succ_le_of_lt hfit)

end Core

/-! ## `ENC28J60_Packet_Send` -/

/-- The driver can send: the transmitter rests, the bank is known, the transmit
area begins at `TXSTART_INIT` and no transmit error is flagged. -/
structure TxReady (d : Dev) : Prop where
  idle : d.Idle
  coherent : d.Coherent
  etxst : d.chip.core.ptr etxstl etxsth = txstartInit
  txerif : d.chip.core.reg eir &&& eirTxerif = 0

theorem Started.txReady {macaddr : Fin 6 → Byte} {d : Dev} (h : Started macaddr d) :
    TxReady d where
  idle := h.idle
  coherent := h.coherent
  etxst := by
    rw [Core.ptr, h.reg _ (by decide), h.reg _ (by decide),
      initAll_value macaddr (i := 6) rfl rfl rfl,
      initAll_value macaddr (i := 7) rfl rfl rfl]
    rfl
  txerif := by
    rw [h.reg _ (by decide), initAll_other macaddr rfl]
    rfl

/-- **A call of `ENC28J60_Packet_Send` with the transmitter at rest** loads the
frame, starts the transmitter and leaves it running. -/
theorem packetSend_spec (env : Env) (packet : List Byte) {d : Dev} (h : TxReady d) :
    ∃ c ss, d.chip.core.Rebanked c ∧
      (packetSend env packet d).chip.core = (c.loaded packet).request.fetches ss ∧
      (packetSend env packet d).Coherent := by
  obtain ⟨c, hr, hbank, hcore₁, -⟩ :=
    write_spec env h.idle (h.coherent.at ewrptl) (by decide) (lo txstartInit)
  let len := packet.length
  let d₁ := write env ewrptl (lo txstartInit) d
  let d₂ := write env ewrpth (hi txstartInit) d₁
  let d₃ := write env etxndl (lo (txstartInit + len)) d₂
  let d₄ := write env etxndh (hi (txstartInit + len)) d₃
  -- after the first write bank 0 is selected, the others switch no bank
  have h₁ := write_after env h.idle (h.coherent.at ewrptl) (by decide) (lo txstartInit)
  have h₂ := write_after env h₁.idle (h₁.coherent.at ewrpth) (by decide) (hi txstartInit)
  have h₃ := write_after env h₂.idle (h₂.coherent.at etxndl) (by decide) (lo (txstartInit + len))
  have h₄ := write_after env h₃.idle (h₃.coherent.at etxndh) (by decide) (hi (txstartInit + len))
  have hb₁ : d₁.enc28j60Bank = 0 := write_bank env ewrptl (lo txstartInit) d
  have hb₂ : d₂.enc28j60Bank = 0 := write_bank env ewrpth (hi txstartInit) d₁
  have hb₃ : d₃.enc28j60Bank = 0 := write_bank env etxndl (lo (txstartInit + len)) d₂
  have hb₄ : d₄.enc28j60Bank = 0 := write_bank env etxndh (hi (txstartInit + len)) d₃
  have hcore₄ : d₄.chip.core = c.pointed len := by
    rw [(write_same env h₃.idle (h₃.coherent.at etxndh) (by decide) hb₃ _).1,
      (write_same env h₂.idle (h₂.coherent.at etxndl) (by decide) hb₂ _).1,
      (write_same env h₁.idle (h₁.coherent.at ewrpth) (by decide) hb₁ _).1, hcore₁]
    rfl
  let d₅ := writeOp env writeBufMem 0 0x00 d₄
  have hcore₅ : d₅.chip.core = d₄.chip.core.writeNext 0x00 := writeOp_writeBuf env h₄.idle 0x00
  have hi₅ : d₅.Idle := by rw [Dev.Idle, hcore₅, Core.writeNext_txrts]; exact h₄.idle
  let d₆ := writeBuf env packet d₅
  have hcore₆ : d₆.chip.core = c.loaded packet := by
    rw [writeBuf_core env packet hi₅, hcore₅, hcore₄]
    rfl
  have hi₆ : d₆.Idle := by
    rw [Dev.Idle, hcore₆, Core.loaded_txrts]
    exact hr.txrts.trans h.idle
  let d₇ := writeOp env bitFieldSet econ1 econ1Txrts d₆
  have hcore₇ : d₇.chip.core = (c.loaded packet).request := by
    rw [← hcore₆]
    exact writeOp_bitSet env hi₆ econ1 econ1Txrts rfl
  have hb₇ : d₇.enc28j60Bank = 0 := by
    rw [writeOp_bank, writeBuf_bank, writeOp_bank, hb₄]
  have hset : setBank env eir d₇ = d₇ := by
    simp only [setBank, hb₇]
    rfl
  obtain ⟨ch, ss, hch, hfin, hval⟩ := readOp_spec env eir d₇
  have hread : read env eir d₇ = readOp env readCtrlReg eir d₇ := by rw [read, hset]
  have hindex : ch.core.index (eir &&& addrMask) = eir := rfl
  rw [hindex] at hval
  have hno : (read env eir d₇).1 &&& eirTxerif = 0 := by
    rw [hread, hval (by decide), Chip.readReg, if_neg (by decide), if_neg (by decide), hch,
      (Core.fetches_flags _ ss).2, hcore₇, Core.request_reg _ (by decide),
      (c.loaded_spec packet).2.2.2.2.1 eir (by decide), hr.reg eir (by decide)]
    exact h.txerif
  have hsend : packetSend env packet d = (read env eir d₇).2 := by
    show (if (read env eir d₇).1 &&& eirTxerif ≠ 0 then _ else (read env eir d₇).2) = _
    rw [if_neg (not_not.mpr hno)]
  have hcore : (packetSend env packet d).chip.core = (c.loaded packet).request.fetches ss := by
    rw [hsend, hread, hfin, hch, hcore₇]
  refine ⟨c, ss, hr, hcore, ?_⟩
  rw [Dev.Coherent, hcore, Core.fetches_bank, Core.request_bank, hsend, hread, readOp_bank, hb₇,
    Core.bank, (c.loaded_spec packet).2.2.2.2.1 econ1 (by decide)]
  exact hbank

end MqttDevice.Enc28j60
