import MqttDevice.Lib.Memory
import MqttDevice.UartQueue

/-!
# The UART transmit queues in memory (`usart.c`)

The queue again, now with its bytes where they lie: `len` is any 32-bit value,
and the copy of a message that is longer than its slot runs on into what follows.

* `view_send`, `view_poll`: within their bounds the operations are those on the slots;
* `queueing_keeps_iff`: a send keeps the queue if and only if it fits and there is room;
* `inside_iff`: every access is inside the array if and only if every message fits
  and none is taken from the last slot.
-/

namespace MqttDevice.UartMemory

open MqttDevice.Ascii MqttDevice.Memory MqttDevice.Ring MqttDevice.Runs
open MqttDevice.UartQueue (sendBufSize msgArraySize CommMsgQueue)

/-! ## The layout -/

/-- The size of `_uart_msg_buf_t`, packed: `index`, `len` and `buf`. -/
def slotSize : Nat := 4 + 4 + sendBufSize

def slotAt (i : Nat) : Nat := slotSize * i
def lenAt (i : Nat) : Nat := slotAt i + 4
def bufAt (i : Nat) : Nat := slotAt i + 8

/-- `_comm_msg_queue_t`; `mem` is the memory from `msg_array` on, the array first. -/
structure MsgQueue where
  inn : BitVec 32
  out : BitVec 32
  mem : Mem

def MsgQueue.len (q : MsgQueue) (i : Nat) : BitVec 32 := load32 q.mem (lenAt i)

/-! ## The operations -/

/-- First step of `dma_send_data_uart`: `len` bytes go to `buf` and what follows it. -/
def copyMsg (q : MsgQueue) (buf : Mem) (len : BitVec 32) : MsgQueue :=
  { q with mem := memcpy q.mem (bufAt q.inn.toNat) buf len.toNat }

def storeLen (q : MsgQueue) (len : BitVec 32) : MsgQueue :=
  { q with mem := store32 q.mem (lenAt q.inn.toNat) len }

def advanceIn (q : MsgQueue) : MsgQueue :=
  { q with inn := (q.inn + 1) % BitVec.ofNat 32 msgArraySize }

def dmaSendDataUart (q : MsgQueue) (buf : Mem) (len : BitVec 32) : MsgQueue :=
  advanceIn (storeLen (copyMsg q buf len) len)

/-- What is written to the stream: `M0AR` points to the `buf` of a slot. -/
structure Transfer where
  slot : Nat
  ndtr : BitVec 16

def advanceOut (q : MsgQueue) : MsgQueue :=
  { q with out := (q.out + 1) &&& BitVec.ofNat 32 msgArraySize }

/-- `MSG_USART_Send`: the queue and the flag after a poll, and the transfer it starts. -/
def msgUsartSend (q : MsgQueue) (tcFlag : Bool) : MsgQueue × Bool × Option Transfer :=
  if q.inn ≠ q.out then
    if tcFlag then
      if 0 < q.len q.out.toNat then
        (advanceOut q, false, some ⟨q.out.toNat, (q.len q.out.toNat).setWidth 16⟩)
      else (advanceOut q, tcFlag, none)
    else (q, tcFlag, none)
  else (q, tcFlag, none)

/-! ## Slots -/

theorem slotAt_eq (i : Nat) : slotAt i = 2056 * i := rfl
theorem lenAt_eq (i : Nat) : lenAt i = 2056 * i + 4 := rfl
theorem bufAt_eq (i : Nat) : bufAt i = 2056 * i + 8 := rfl

/-- The bytes of slot `i` are the same in two memories. -/
def SameSlot (m m' : Mem) (i : Nat) : Prop :=
  ∀ k < slotSize, m' (slotAt i + k) = m (slotAt i + k)

theorem sameSlot_memcpy (m : Mem) {dst count i : Nat} (src : Mem)
    (h : dst + count ≤ slotAt i ∨ slotAt (i + 1) ≤ dst) :
    SameSlot m (memcpy m dst src count) i := by
  intro k hk
  refine memcpy_outside m src ?_
  simp only [slotAt_eq, slotSize, sendBufSize] at *
  omega

theorem SameSlot.len {q q' : MsgQueue} {i : Nat} (h : SameSlot q.mem q'.mem i) :
    q'.len i = q.len i := by
  refine load32_congr fun k hk => ?_
  rw [lenAt, Nat.add_assoc]
  exact h (4 + k) (by simp only [slotSize]; omega)

theorem SameSlot.buf {m m' : Mem} {i n : Nat} (h : SameSlot m m' i) (hn : n ≤ sendBufSize) :
    bytes m' (bufAt i) n = bytes m (bufAt i) n := by
  refine bytes_congr fun k hk => ?_
  rw [bufAt, Nat.add_assoc]
  exact h (8 + k) (by simp only [slotSize]; omega)

/-- A copy that fits changes its own slot only. -/
theorem copyMsg_sameSlot (q : MsgQueue) (buf : Mem) {len : BitVec 32} {i : Nat}
    (hlen : len.toNat ≤ sendBufSize) (hi : i ≠ q.inn.toNat) :
    SameSlot q.mem (copyMsg q buf len).mem i := by
  refine sameSlot_memcpy q.mem buf ?_
  simp only [slotAt_eq, bufAt_eq, sendBufSize] at *
  omega

theorem storeLen_sameSlot (q : MsgQueue) (len : BitVec 32) {i : Nat} (hi : i ≠ q.inn.toNat) :
    SameSlot q.mem (storeLen q len).mem i := by
  refine sameSlot_memcpy q.mem (byteOf len) ?_
  simp only [slotAt_eq, lenAt_eq]
  omega

theorem send_sameSlot (q : MsgQueue) (buf : Mem) {len : BitVec 32} {i : Nat}
    (hlen : len.toNat ≤ sendBufSize) (hi : i ≠ q.inn.toNat) :
    SameSlot q.mem (dmaSendDataUart q buf len).mem i := fun k hk =>
  (storeLen_sameSlot (copyMsg q buf len) len hi k hk).trans (copyMsg_sameSlot q buf hlen hi k hk)

/-- The length is stored in front of the bytes. -/
theorem storeLen_buf (q : MsgQueue) (len : BitVec 32) (n : Nat) :
    bytes (storeLen q len).mem (bufAt q.inn.toNat) n = bytes q.mem (bufAt q.inn.toNat) n :=
  bytes_congr fun k _ => memcpy_outside q.mem (byteOf len) (by
    simp only [lenAt_eq, bufAt_eq]
    omega)

theorem storeLen_len (q : MsgQueue) (len : BitVec 32) :
    (storeLen q len).len q.inn.toNat = len := load32_store32 q.mem _ len

/-! ## The operations on the slots -/

/-- The queue in slots. -/
def view (q : MsgQueue) : CommMsgQueue :=
  ⟨q.inn, q.out, fun i => ⟨q.len i, Vector.ofFn fun k => q.mem (bufAt i + k)⟩⟩

theorem view_slot {q q' : MsgQueue} {i : Nat} (h : SameSlot q.mem q'.mem i) :
    (view q').msgArray i = (view q).msgArray i := by
  simp only [view, h.len]
  congr 2
  funext k
  rw [bufAt, Nat.add_assoc]
  exact h (8 + k) (by simp only [slotSize]; omega)

theorem advanceIn_toNat {q : MsgQueue} (h : q.inn.toNat < 3) :
    (advanceIn q).inn.toNat = (q.inn.toNat + 1) % 3 := UartQueue.advanceIn_toNat (view q) h

theorem advanceOut_toNat {q : MsgQueue} (h : q.out.toNat ≤ 3) :
    (advanceOut q).out.toNat = (q.out.toNat + 1) % 4 := UartQueue.advanceOut_toNat (view q) h

theorem view_copyMsg (q : MsgQueue) (buf : Mem) {len : BitVec 32}
    (hlen : len.toNat ≤ sendBufSize) :
    view (copyMsg q buf len) = UartQueue.copyMsg (view q) (bytes buf 0 len.toNat) := by
  have hslots : (view (copyMsg q buf len)).msgArray =
      (UartQueue.copyMsg (view q) (bytes buf 0 len.toNat)).msgArray := by
    funext i
    by_cases hi : i = q.inn.toNat
    · subst hi
      have hl : (copyMsg q buf len).len q.inn.toNat = q.len q.inn.toNat :=
        load32_congr fun k hk => memcpy_outside q.mem buf
          (by simp only [lenAt_eq, bufAt_eq]; omega)
      have hb : (Vector.ofFn fun k : Fin sendBufSize => (copyMsg q buf len).mem
            (bufAt q.inn.toNat + k)) =
          UartQueue.memcpy (Vector.ofFn fun k => q.mem (bufAt q.inn.toNat + k))
            (bytes buf 0 len.toNat) := by
        ext k hk
        rw [Vector.getElem_ofFn, UartQueue.memcpy, Vector.getElem_ofFn]
        by_cases hkl : k < len.toNat
        · have hget : (copyMsg q buf len).mem (bufAt q.inn.toNat + k) = buf k :=
            memcpy_inside q.mem _ buf hkl
          rw [hget]
          simp [bytes, hkl]
        · have hget : (copyMsg q buf len).mem (bufAt q.inn.toNat + k) =
              q.mem (bufAt q.inn.toNat + k) := memcpy_outside q.mem buf (by omega)
          rw [hget]
          simp [bytes, hkl]
      simp only [UartQueue.copyMsg, view, Function.update_self]
      exact congr (congrArg UartQueue.UartMsgBuf.mk hl) hb
    · rw [view_slot (copyMsg_sameSlot q buf hlen hi)]
      exact (Function.update_of_ne hi _ _).symm
  exact congrArg (CommMsgQueue.mk q.inn q.out) hslots

theorem view_storeLen (q : MsgQueue) (len : BitVec 32) :
    view (storeLen q len) = UartQueue.storeLen (view q) len := by
  have hslots : (view (storeLen q len)).msgArray = (UartQueue.storeLen (view q) len).msgArray := by
    funext i
    by_cases hi : i = q.inn.toNat
    · subst hi
      simp only [UartQueue.storeLen, view, Function.update_self]
      refine congr (congrArg UartQueue.UartMsgBuf.mk (storeLen_len q len)) ?_
      exact congrArg Vector.ofFn (funext fun k => memcpy_outside q.mem (byteOf len)
        (by simp only [lenAt_eq, bufAt_eq]; omega))
    · rw [view_slot (storeLen_sameSlot q len hi)]
      exact (Function.update_of_ne hi _ _).symm
  exact congrArg (CommMsgQueue.mk q.inn q.out) hslots

/-- **A message that fits** is sent as on the slots. -/
theorem view_send (q : MsgQueue) (buf : Mem) {len : BitVec 32} (hlen : len.toNat ≤ sendBufSize) :
    view (dmaSendDataUart q buf len) =
      UartQueue.dmaSendDataUart (view q) (bytes buf 0 len.toNat) := by
  have hl : BitVec.ofNat 32 (bytes buf 0 len.toNat).length = len := by simp
  rw [UartQueue.dmaSendDataUart, hl, ← view_copyMsg q buf hlen, ← view_storeLen]
  rfl

/-- The three outcomes of a poll. -/
theorem msgUsartSend_cases (q : MsgQueue) (tcFlag : Bool) :
    (msgUsartSend q tcFlag = (q, tcFlag, none) ∧ (q.inn = q.out ∨ tcFlag = false)) ∨
    (msgUsartSend q tcFlag = (advanceOut q, tcFlag, none) ∧ q.inn ≠ q.out ∧ tcFlag = true ∧
      q.len q.out.toNat = 0) ∨
    (msgUsartSend q tcFlag = (advanceOut q, false,
        some ⟨q.out.toNat, (q.len q.out.toNat).setWidth 16⟩) ∧
      q.inn ≠ q.out ∧ tcFlag = true ∧ q.len q.out.toNat ≠ 0) := by
  unfold msgUsartSend
  by_cases hio : q.inn = q.out
  · exact .inl ⟨by simp [hio], .inl hio⟩
  · cases tcFlag with
    | false => exact .inl ⟨by simp, .inr rfl⟩
    | true =>
      by_cases hlen : q.len q.out.toNat = 0
      · exact .inr (.inl ⟨by simp [hio, hlen], hio, rfl, hlen⟩)
      · refine .inr (.inr ⟨?_, hio, rfl, hlen⟩)
        simpa [hio] using hlen

/-- **A poll** is a poll of the slots, with the bytes that the transfer covers. -/
theorem view_poll (q : MsgQueue) (tcFlag : Bool) :
    UartQueue.msgUsartSend (view q) tcFlag =
      (view (msgUsartSend q tcFlag).1, (msgUsartSend q tcFlag).2.1,
        (msgUsartSend q tcFlag).2.2.map fun x => (view q).transfer x.slot) := by
  have hlen : ((view q).msgArray (view q).out.toNat).len = q.len q.out.toNat := rfl
  rcases msgUsartSend_cases q tcFlag with ⟨e, hno⟩ | ⟨e, hio, rfl, hz⟩ | ⟨e, hio, rfl, hz⟩
  · rw [e]
    rcases hno with hio | rfl
    · exact if_neg (not_not_intro hio)
    · exact ite_self _
  · have hne : (view q).inn ≠ (view q).out := hio
    rw [e, UartQueue.msgUsartSend, if_pos hne, if_pos rfl, hlen, hz]
    rfl
  · have hne : (view q).inn ≠ (view q).out := hio
    have hpos : 0 < q.len q.out.toNat := (BitVec.pos_iff_ne_zero _).mpr hz
    rw [e, UartQueue.msgUsartSend, if_pos hne, if_pos rfl, hlen, if_pos hpos]
    rfl

/-! ## Where the messages lie -/

/-- The bytes of a message and its length. -/
abbrev Message := List Byte × BitVec 32

/-- What slot `i` holds. -/
def MsgQueue.message (q : MsgQueue) (i : Nat) : Message :=
  (bytes q.mem (bufAt i) (min (q.len i).toNat sendBufSize), q.len i)

/-- The messages that the indices count as queued, oldest first. -/
def MsgQueue.queued (q : MsgQueue) : List Message :=
  slice msgArraySize q.message q.out.toNat ((q.inn.toNat + 3 - q.out.toNat % 3) % 3)

/-- The message that a call is given. -/
def given (buf : Mem) (len : BitVec 32) : Message := (bytes buf 0 len.toNat, len)

/-- What a poll of `q` that ends in `t` leaves of the messages that were queued: behind
the array there is none to take. -/
def left (q t : MsgQueue) (pending : List Message) : List Message :=
  if t.out ≠ q.out ∧ q.out.toNat < msgArraySize then pending.tail else pending

/-- The indices are `n` messages apart; `out` may be behind the array. -/
structure Placed (q : MsgQueue) (n : Nat) : Prop where
  room : n ≤ 2
  outLe : q.out.toNat ≤ 3
  innEq : q.inn.toNat = (q.out.toNat + n) % 3

theorem Placed.innLt {q : MsgQueue} {n : Nat} (h : Placed q n) : q.inn.toNat < 3 :=
  h.innEq ▸ Nat.mod_lt _ (by decide)

theorem placed_push {q : MsgQueue} {n : Nat} (h : Placed q n) (hn : n + 1 ≤ 2) (mem : Mem) :
    Placed (advanceIn { q with mem := mem }) (n + 1) where
  room := hn
  outLe := h.outLe
  innEq := by
    have hin : (advanceIn { q with mem := mem }).inn.toNat = (q.inn.toNat + 1) % 3 :=
      advanceIn_toNat (q := { q with mem := mem }) h.innLt
    rw [hin, h.innEq]
    show _ = (q.out.toNat + (n + 1)) % 3
    omega

theorem advanceOut_ne {q : MsgQueue} {n : Nat} (h : Placed q n) : (advanceOut q).out ≠ q.out := by
  intro heq
  have hto := advanceOut_toNat h.outLe
  have hle := h.outLe
  rw [heq] at hto
  omega

/-- A message is taken from the array. -/
theorem placed_take {q : MsgQueue} {n : Nat} (h : Placed q n) (hio : q.inn ≠ q.out)
    (hout : q.out.toNat < 3) : Placed (advanceOut q) (n - 1) ∧ 0 < n := by
  have hto := advanceOut_toNat h.outLe
  have hroom := h.room
  have hin := h.innEq
  have hne : q.inn.toNat ≠ q.out.toNat := fun heq => hio (BitVec.eq_of_toNat_eq heq)
  refine ⟨⟨by omega, by omega, ?_⟩, by omega⟩
  show q.inn.toNat = _
  omega

/-- From behind the array `out` comes back to slot 0. -/
theorem placed_skip {q : MsgQueue} {n : Nat} (h : Placed q n) (hout : q.out.toNat = 3) :
    Placed (advanceOut q) n := by
  have hto := advanceOut_toNat h.outLe
  have hin := h.innEq
  refine ⟨h.room, by omega, ?_⟩
  show q.inn.toNat = _
  omega

theorem left_self (q : MsgQueue) (pending : List Message) : left q q pending = pending :=
  if_neg fun h => h.1 rfl

theorem left_take {q : MsgQueue} {n : Nat} (h : Placed q n) (hout : q.out.toNat < 3)
    (pending : List Message) : left q (advanceOut q) pending = pending.tail :=
  if_pos ⟨advanceOut_ne h, hout⟩

theorem left_skip {q t : MsgQueue} (hout : q.out.toNat = 3) (pending : List Message) :
    left q t pending = pending :=
  if_neg fun h => absurd h.2 (by rw [hout]; decide)

/-- A poll takes at most one message, and the indices stay in step. -/
theorem placed_poll {q : MsgQueue} {pending : List Message} (h : Placed q pending.length)
    (tcFlag : Bool) :
    Placed (msgUsartSend q tcFlag).1 (left q (msgUsartSend q tcFlag).1 pending).length := by
  have hmoved (hio : q.inn ≠ q.out) :
      Placed (advanceOut q) (left q (advanceOut q) pending).length := by
    rcases Nat.lt_or_ge q.out.toNat 3 with hlt | hge
    · rw [left_take h hlt, List.length_tail]
      exact (placed_take h hio hlt).1
    · have hout := Nat.le_antisymm h.outLe hge
      rw [left_skip hout]
      exact placed_skip h hout
  rcases msgUsartSend_cases q tcFlag with ⟨e, -⟩ | ⟨e, hio, -⟩ | ⟨e, hio, -⟩
  · rw [e, left_self]
    exact h
  · rw [e]
    exact hmoved hio
  · rw [e]
    exact hmoved hio

/-! ## The slots hold the messages -/

/-- The messages `pending` lie in the slots from `out` up to `in`. -/
structure Holds (q : MsgQueue) (pending : List Message) : Prop where
  placed : Placed q pending.length
  slots : slice 3 q.message q.out.toNat pending.length = pending

theorem SameSlot.message {q q' : MsgQueue} {i : Nat} (h : SameSlot q.mem q'.mem i) :
    q'.message i = q.message i := by
  rw [MsgQueue.message, h.len, h.buf (Nat.min_le_right _ _)]
  rfl

theorem queued_of_holds {q : MsgQueue} {pending : List Message} (h : Holds q pending) :
    q.queued = pending := by
  have hin := h.placed.innEq
  have hroom := h.placed.room
  have hn : (q.inn.toNat + 3 - q.out.toNat % 3) % 3 = pending.length := by omega
  rw [MsgQueue.queued, hn]
  exact h.slots

/-- A memory that has the pending slots as they were. -/
theorem holds_mem {q : MsgQueue} {pending : List Message} (h : Holds q pending) {mem : Mem}
    (hsame : ∀ j < pending.length, SameSlot q.mem mem ((q.out.toNat + j) % 3)) :
    Holds { q with mem := mem } pending where
  placed := ⟨h.placed.room, h.placed.outLe, h.placed.innEq⟩
  slots := by
    refine Eq.trans ?_ h.slots
    exact slice_congr fun j hj =>
      @SameSlot.message q { q with mem := mem } _ (hsame j hj)

/-- What is written to slot `in` leaves the pending messages alone. -/
theorem holds_write {q : MsgQueue} {pending : List Message} (h : Holds q pending) {mem : Mem}
    (hsame : ∀ i ≠ q.inn.toNat, SameSlot q.mem mem i) : Holds { q with mem := mem } pending := by
  have hroom := h.placed.room
  refine holds_mem h fun j hj => hsame _ ?_
  rw [h.placed.innEq]
  exact add_mod_ne hj (by omega)

theorem holds_push {q : MsgQueue} {pending : List Message} (h : Holds q pending) {m : Message}
    (hm : q.message q.inn.toNat = m) (hroom : pending.length + 1 ≤ 2) :
    Holds (advanceIn q) (pending ++ [m]) := by
  have hlen : (pending ++ [m]).length = pending.length + 1 := by simp
  refine ⟨hlen ▸ placed_push h.placed hroom q.mem, ?_⟩
  rw [hlen, slice_snoc]
  show slice 3 q.message q.out.toNat pending.length ++
    [q.message ((q.out.toNat + pending.length) % 3)] = _
  rw [h.slots, ← h.placed.innEq, hm]

theorem holds_poll {q : MsgQueue} {pending : List Message} (h : Holds q pending) (tcFlag : Bool) :
    Holds (msgUsartSend q tcFlag).1 (left q (msgUsartSend q tcFlag).1 pending) := by
  refine ⟨placed_poll h.placed tcFlag, ?_⟩
  have hmoved (hio : q.inn ≠ q.out) :
      slice 3 (advanceOut q).message (advanceOut q).out.toNat
        (left q (advanceOut q) pending).length = left q (advanceOut q) pending := by
    have hto := advanceOut_toNat h.placed.outLe
    rcases Nat.lt_or_ge q.out.toNat 3 with hlt | hge
    · rw [left_take h.placed hlt]
      have hslots := h.slots
      cases pending with
      | nil => rfl
      | cons m rest =>
        rw [List.length_cons, slice_cons] at hslots
        rw [hto, Nat.mod_eq_of_lt (by omega)]
        exact (List.cons.inj hslots).2
    · have hout := Nat.le_antisymm h.placed.outLe hge
      rw [left_skip hout, hto, hout]
      refine Eq.trans ?_ h.slots
      rw [hout]
      exact slice_congr_start _ (by decide) _
  rcases msgUsartSend_cases q tcFlag with ⟨e, -⟩ | ⟨e, hio, -⟩ | ⟨e, hio, -⟩
  · rw [e, left_self]
    exact h.slots
  · rw [e]
    exact hmoved hio
  · rw [e]
    exact hmoved hio

/-- The oldest message is in slot `out`. -/
theorem holds_front {q : MsgQueue} {m : Message} {rest : List Message}
    (h : Holds q (m :: rest)) (hout : q.out.toNat < 3) : q.message q.out.toNat = m := by
  have hslots := h.slots
  rw [List.length_cons, slice_cons, Nat.mod_eq_of_lt hout] at hslots
  exact (List.cons.inj hslots).1

/-- The bytes of a message that fits and then its length make it the content of the slot. -/
theorem message_storeLen (q : MsgQueue) {buf : Mem} {len : BitVec 32}
    (hlen : len.toNat ≤ sendBufSize)
    (hbytes : bytes q.mem (bufAt q.inn.toNat) len.toNat = bytes buf 0 len.toNat) :
    (storeLen q len).message q.inn.toNat = given buf len := by
  rw [MsgQueue.message, storeLen_len, Nat.min_eq_left hlen, storeLen_buf, hbytes, given]

/-- A message that fits is in its slot after the call. -/
theorem message_given (q : MsgQueue) (buf : Mem) {len : BitVec 32}
    (hlen : len.toNat ≤ sendBufSize) :
    (storeLen (copyMsg q buf len) len).message q.inn.toNat = given buf len :=
  message_storeLen (copyMsg q buf len) hlen (bytes_memcpy q.mem _ buf len.toNat)

theorem holds_send {q : MsgQueue} {pending : List Message} (h : Holds q pending) (buf : Mem)
    {len : BitVec 32} (hlen : len.toNat ≤ sendBufSize) (hroom : pending.length + 1 ≤ 2) :
    Holds (dmaSendDataUart q buf len) (pending ++ [given buf len]) :=
  holds_push (q := storeLen (copyMsg q buf len) len)
    (holds_write h fun _ hi => send_sameSlot q buf hlen hi) (message_given q buf hlen) hroom

/-! ## Calls and polls -/

inductive Call where
  | send (buf : Mem) (len : BitVec 32)
  /-- `MSG_USART_Send`, with the flag as it finds it -/
  | poll (tcFlag : Bool)
  /-- memory behind the array changes -/
  | behind (mem : Mem)

/-- A memory with the array of `mem` and other bytes behind it. -/
def withBehind (mem other : Mem) : Mem := fun o =>
  if o < slotAt msgArraySize then mem o else other o

/-- The queue, with the messages sent and not yet taken by a poll. -/
structure Comm where
  queue : MsgQueue
  pending : List Message

def next (s : Comm) : Call → Comm
  | .send buf len => ⟨dmaSendDataUart s.queue buf len, s.pending ++ [given buf len]⟩
  | .poll tcFlag =>
    let queue := (msgUsartSend s.queue tcFlag).1
    ⟨queue, left s.queue queue s.pending⟩
  | .behind mem => ⟨{ s.queue with mem := withBehind s.queue.mem mem }, s.pending⟩

def step (s : Comm) (c : Call) : Option Comm := some (next s c)

/-- An empty queue, with any bytes behind its array. -/
def start (mem : Mem) : Comm := ⟨⟨0, 0, withBehind (fun _ => 0) mem⟩, []⟩

theorem withBehind_sameSlot (mem other : Mem) {i : Nat} (hi : i < 3) :
    SameSlot mem (withBehind mem other) i := by
  intro k hk
  refine if_pos ?_
  simp only [slotAt_eq, slotSize, sendBufSize, msgArraySize] at *
  omega

theorem holds_behind {q : MsgQueue} {pending : List Message} (h : Holds q pending) (mem : Mem) :
    Holds { q with mem := withBehind q.mem mem } pending :=
  holds_mem h fun _ _ => withBehind_sameSlot q.mem mem (Nat.mod_lt _ (by decide))

theorem holds_start (mem : Mem) : Holds (start mem).queue (start mem).pending :=
  ⟨⟨by simp [start], by simp [start], rfl⟩, rfl⟩

/-! ## What is queued stays queued -/

/-- A call leaves the messages that are queued, the new one after them or refused. -/
def Keeps (s : Comm) (c : Call) (t : Comm) : Prop :=
  match c with
  | .send buf len =>
    t.queue.queued = s.pending ++ [given buf len] ∨ t.queue.queued = s.pending
  | _ => True

/-- The message fits in its slot, and `in` does not come up to `out`. -/
def FitsIn (s : Comm) : Call → Prop
  | .send _ len =>
    len.toNat ≤ sendBufSize ∧
      (s.queue.inn.toNat + 1) % msgArraySize ≠ s.queue.out.toNat % msgArraySize
  | _ => True

theorem holds_next {s : Comm} {c : Call} (h : Holds s.queue s.pending) (hc : FitsIn s c) :
    Holds (next s c).queue (next s c).pending := by
  cases c with
  | send buf len =>
    have hin := h.placed.innEq
    have hroom := h.placed.room
    obtain ⟨hlen, hne⟩ := hc
    refine holds_send h buf hlen ?_
    simp only [msgArraySize] at hne
    omega
  | poll tcFlag => exact holds_poll h tcFlag
  | behind mem => exact holds_behind h mem

theorem length_queued_send {q : MsgQueue} {n : Nat} (h : Placed q n) (buf : Mem)
    (len : BitVec 32) : (dmaSendDataUart q buf len).queued.length = (n + 1) % 3 := by
  have hin := h.innEq
  have hto : (dmaSendDataUart q buf len).inn.toNat = (q.inn.toNat + 1) % 3 :=
    advanceIn_toNat (q := storeLen (copyMsg q buf len) len) h.innLt
  rw [MsgQueue.queued, length_slice, hto]
  show ((q.inn.toNat + 1) % 3 + 3 - q.out.toNat % 3) % 3 = _
  omega

/-- What a slot holds is no longer than the slot. -/
theorem length_of_mem_queued {q : MsgQueue} {m : Message} (h : m ∈ q.queued) :
    m.1.length ≤ sendBufSize := by
  obtain ⟨j, -, rfl⟩ := List.mem_map.mp h
  rw [MsgQueue.message, length_bytes]
  exact Nat.min_le_right _ _

theorem keeps_iff {s : Comm} (h : Holds s.queue s.pending) (c : Call) :
    Keeps s c (next s c) ↔ FitsIn s c := by
  constructor
  · intro hk
    cases c with
    | send buf len =>
      have hin := h.placed.innEq
      have hroom := h.placed.room
      have hcount : (dmaSendDataUart s.queue buf len).queued.length =
          (s.pending.length + 1) % 3 := length_queued_send h.placed buf len
      have hq : (dmaSendDataUart s.queue buf len).queued = s.pending ++ [given buf len] := by
        refine hk.resolve_right fun hq => ?_
        have hsame := congrArg List.length hq
        rw [next, hcount] at hsame
        omega
      have hgrown : (s.pending.length + 1) % 3 = s.pending.length + 1 := by
        rw [← hcount, hq, List.length_append, List.length_singleton]
      refine ⟨?_, ?_⟩
      · have hmem : given buf len ∈ (dmaSendDataUart s.queue buf len).queued := by
          rw [hq]
          exact List.mem_append_right _ (List.mem_singleton_self _)
        have hlen := length_of_mem_queued hmem
        rwa [given, length_bytes] at hlen
      · simp only [msgArraySize]
        omega
    | poll tcFlag => trivial
    | behind mem => trivial
  · intro hc
    cases c with
    | send buf len => exact .inl (queued_of_holds (holds_next h hc))
    | poll tcFlag => trivial
    | behind mem => trivial

/-- **Queueing keeps the queue**, exactly. -/
theorem queueing_keeps_iff (mem : Mem) (cs : List Call) :
    Along step Keeps (start mem) cs ↔ Along step (fun s c _ => FitsIn s c) (start mem) cs := by
  refine along_iff (I := fun s => Holds s.queue s.pending) ?_ ?_ cs (holds_start mem)
  · intro s c t h ht hc
    cases ht
    exact holds_next h hc
  · intro s c t h ht
    cases ht
    exact keeps_iff h c

/-- Three messages between two polls empty the queue. -/
theorem third_send_empties :
    ¬ Along step Keeps (start fun _ => 0) (List.replicate 3 (.send (fun _ => 7) 1)) := by
  intro h
  have hkeeps := (((h _ rfl).2 _ rfl).2 _ rfl).1
  rcases hkeeps with hq | hq
  · exact absurd (congrArg List.length hq) (by decide)
  · exact absurd (congrArg List.length hq) (by decide)

/-! ## Every access inside the array -/

/-- The slot whose `buf` a call copies to or hands to the DMA, and the bytes of it. -/
def accessed (s : Comm) : Call → Option (Nat × Nat)
  | .send _ len => some (s.queue.inn.toNat, len.toNat)
  | .poll tcFlag => (msgUsartSend s.queue tcFlag).2.2.map fun x => (x.slot, x.ndtr.toNat)
  | .behind _ => none

/-- The indices are slots, and no length is beyond its slot. -/
structure Bounded (q : MsgQueue) : Prop where
  inLt : q.inn.toNat < msgArraySize
  outLt : q.out.toNat < msgArraySize
  lenLe : ∀ i < msgArraySize, (q.len i).toNat ≤ sendBufSize

/-- The call keeps to the `buf` of a slot and leaves the queue in its bounds. -/
def Inside (s : Comm) (c : Call) (t : Comm) : Prop :=
  (∀ x ∈ accessed s c, x.1 < msgArraySize ∧ x.2 ≤ sendBufSize) ∧ Bounded t.queue

/-- The message fits in a slot; no poll takes one from the last slot. -/
def Short (s : Comm) : Call → Prop
  | .send _ len => len.toNat ≤ sendBufSize
  | .poll tcFlag => tcFlag = true → s.queue.inn ≠ s.queue.out → s.queue.out.toNat + 1 < msgArraySize
  | .behind _ => True

theorem bounded_advanceOut {q : MsgQueue} (h : Bounded q) (hout : q.out.toNat + 1 < 3) :
    Bounded (advanceOut q) where
  inLt := h.inLt
  outLt := by
    rw [advanceOut_toNat (by omega), Nat.mod_eq_of_lt (by omega)]
    exact hout
  lenLe := h.lenLe

theorem bounded_send {q : MsgQueue} (h : Bounded q) (buf : Mem) {len : BitVec 32}
    (hlen : len.toNat ≤ sendBufSize) : Bounded (dmaSendDataUart q buf len) where
  inLt := by
    have hin : (dmaSendDataUart q buf len).inn.toNat = (q.inn.toNat + 1) % 3 :=
      advanceIn_toNat (q := storeLen (copyMsg q buf len) len) h.inLt
    rw [hin]
    exact Nat.mod_lt _ (by decide)
  outLt := h.outLt
  lenLe := by
    intro i hi
    by_cases heq : i = q.inn.toNat
    · have hl : (dmaSendDataUart q buf len).len i = len :=
        heq ▸ storeLen_len (copyMsg q buf len) len
      rw [hl]
      exact hlen
    · rw [(send_sameSlot q buf hlen heq).len]
      exact h.lenLe i hi

theorem inside_next {s : Comm} (h : Bounded s.queue) {c : Call} (hc : Short s c) :
    Inside s c (next s c) := by
  cases c with
  | send buf len =>
    refine ⟨?_, bounded_send h buf hc⟩
    intro x hx
    cases hx
    exact ⟨h.inLt, hc⟩
  | poll tcFlag =>
    rcases msgUsartSend_cases s.queue tcFlag with ⟨e, -⟩ | ⟨e, hio, htc, -⟩ | ⟨e, hio, htc, -⟩
    · simp only [Inside, accessed, next, e]
      exact ⟨fun x hx => (nomatch hx), h⟩
    · simp only [Inside, accessed, next, e]
      exact ⟨fun x hx => (nomatch hx), bounded_advanceOut h (hc htc hio)⟩
    · simp only [Inside, accessed, next, e]
      refine ⟨?_, bounded_advanceOut h (hc htc hio)⟩
      intro x hx
      cases hx
      refine ⟨h.outLt, ?_⟩
      show ((s.queue.len s.queue.out.toNat).setWidth 16).toNat ≤ sendBufSize
      rw [BitVec.toNat_setWidth]
      exact (Nat.mod_le _ _).trans (h.lenLe _ h.outLt)
  | behind mem =>
    refine ⟨fun x hx => (nomatch hx), h.inLt, h.outLt, fun i hi => ?_⟩
    have hsame := @SameSlot.len s.queue { s.queue with mem := withBehind s.queue.mem mem } _
      (withBehind_sameSlot s.queue.mem mem hi)
    rw [next, hsame]
    exact h.lenLe i hi

theorem inside_iff_short {s : Comm} (h : Bounded s.queue) (c : Call) :
    Inside s c (next s c) ↔ Short s c := by
  refine ⟨fun hi => ?_, inside_next h⟩
  cases c with
  | send buf len => exact (hi.1 _ rfl).2
  | poll tcFlag =>
    intro htc hio
    have hmoved : (msgUsartSend s.queue tcFlag).1.out = (advanceOut s.queue).out := by
      rcases msgUsartSend_cases s.queue tcFlag with ⟨-, he | he⟩ | ⟨e, -⟩ | ⟨e, -⟩
      · exact absurd he hio
      · rw [htc] at he
        cases he
      · rw [e]
      · rw [e]
    have hlt := hi.2.outLt
    have hout := h.outLt
    simp only [next, hmoved] at hlt
    rw [advanceOut_toNat (Nat.le_of_lt hout)] at hlt
    simp only [msgArraySize] at *
    omega
  | behind mem => trivial

/-- **Every access is inside the array**, exactly. -/
theorem inside_iff (mem : Mem) (cs : List Call) :
    Along step Inside (start mem) cs ↔ Along step (fun s c _ => Short s c) (start mem) cs := by
  have hstart : Bounded (start mem).queue := by
    refine ⟨Nat.zero_lt_succ 2, Nat.zero_lt_succ 2, fun i hi => ?_⟩
    have hzero : (start mem).queue.len i = load32 (fun _ => 0) (lenAt i) :=
      @SameSlot.len ⟨0, 0, fun _ => 0⟩ (start mem).queue _ (withBehind_sameSlot _ mem hi)
    rw [hzero, load32]
    decide
  refine along_iff (I := fun s => Bounded s.queue) ?_ ?_ cs hstart
  · intro s c t h ht hc
    cases ht
    exact (inside_next h hc).2
  · intro s c t h ht
    cases ht
    exact inside_iff_short h c

/-- Three messages of one byte, each taken by a poll. -/
def threeTaken : List Call :=
  [.send (fun _ => 7) 1, .poll true, .send (fun _ => 7) 1, .poll true, .send (fun _ => 7) 1,
    .poll true]

/-- A message of 2049 bytes; and one that is taken from the last slot. -/
theorem leaves_the_array :
    ¬ Along step Inside (start fun _ => 0) [.send (fun _ => 7) 2049] ∧
      ¬ Along step Inside (start fun _ => 0) threeTaken := by
  constructor
  · intro h
    have hin := (h _ rfl).1.1 _ rfl
    exact absurd hin.2 (by decide)
  · intro h
    have hlast := ((((((h _ rfl).2 _ rfl).2 _ rfl).2 _ rfl).2 _ rfl).2 _ rfl).1
    exact absurd hlast.2.outLt (by decide)

end MqttDevice.UartMemory
