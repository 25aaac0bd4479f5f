import MqttDevice.Lib.Ascii
import MqttDevice.Lib.Ring
import MqttDevice.Lib.Runs

/-!
# The UART transmit queue (`usart.c`)

A producer puts messages into the slots of `msg_array` in three steps (copy,
store the length, advance `in`); `MSG_USART_Send` polls the queue and starts
one DMA transfer at a time. The producer advances its index modulo
`MSG_ARRAY_SIZE`, the consumer with `& MSG_ARRAY_SIZE`, so `out` takes the
value 3 as well and the consumer then looks behind the array.

* `fifo_iff`: along every run, the transfers started are the messages enqueued,
  in order, none skipped and none from a slot never filled, and a poll with the
  flag set starts the oldest message queued (with `out` = 3 the next poll does),
  if and only if every poll that looks behind the array finds the length 0 there;
* `fifo_fails_behind_array`: three messages and one non-zero word behind the
  array are enough to break it.
-/

namespace MqttDevice.UartQueue

open MqttDevice.Ascii MqttDevice.Ring MqttDevice.Runs

/-! ## The queue -/

def sendBufSize : Nat := 2048
def msgArraySize : Nat := 3

/-- `_uart_msg_buf_t`; its `index` is used nowhere. -/
structure UartMsgBuf where
  len : BitVec 32
  buf : Vector Byte sendBufSize

/-- `_comm_msg_queue_t`. The memory is seen in slots from `msg_array` on, so
`msgArray i` with `i` from `msgArraySize` on is what lies behind the array. -/
structure CommMsgQueue where
  inn : BitVec 32
  out : BitVec 32
  msgArray : Nat → UartMsgBuf

/-- `memcpy(dst, src, len)` with the bytes `src` and a `dst` of one slot. -/
def memcpy (dst : Vector Byte sendBufSize) (src : List Byte) : Vector Byte sendBufSize :=
  Vector.ofFn fun i => src.getD i dst[i]

/-- First step of `dma_send_data_uart`: the copy. -/
def copyMsg (q : CommMsgQueue) (buf : List Byte) : CommMsgQueue :=
  let i := q.inn.toNat
  let slot := q.msgArray i
  { q with msgArray := Function.update q.msgArray i { slot with buf := memcpy slot.buf buf } }

/-- Second step: the length. -/
def storeLen (q : CommMsgQueue) (len : BitVec 32) : CommMsgQueue :=
  let i := q.inn.toNat
  let slot := q.msgArray i
  { q with msgArray := Function.update q.msgArray i { slot with len := len } }

/-- Third step: `in` moves on, modulo `MSG_ARRAY_SIZE`. -/
def advanceIn (q : CommMsgQueue) : CommMsgQueue :=
  { q with inn := (q.inn + 1) % BitVec.ofNat 32 msgArraySize }

def dmaSendDataUart (q : CommMsgQueue) (buf : List Byte) : CommMsgQueue :=
  advanceIn (storeLen (copyMsg q buf) (BitVec.ofNat 32 buf.length))

/-- A transfer as it is started: the slot, the value written to the 16 bits of
`NDTR`, and the bytes of the slot that this count covers. -/
structure Transfer where
  slot : Nat
  ndtr : BitVec 16
  bytes : List Byte

/-- The transfer that the consumer starts from slot `i`. -/
def CommMsgQueue.transfer (q : CommMsgQueue) (i : Nat) : Transfer :=
  let ndtr := (q.msgArray i).len.setWidth 16
  ⟨i, ndtr, (q.msgArray i).buf.toList.take ndtr.toNat⟩

/-- The consumer's step of `out`, with `& MSG_ARRAY_SIZE`. -/
def advanceOut (q : CommMsgQueue) : CommMsgQueue :=
  { q with out := (q.out + 1) &&& BitVec.ofNat 32 msgArraySize }

/-- `MSG_USART_Send`: the queue and the transfer-complete flag after one poll,
and the transfer it starts. -/
def msgUsartSend (q : CommMsgQueue) (tcFlag : Bool) : CommMsgQueue × Bool × Option Transfer :=
  if q.inn ≠ q.out then
    if tcFlag then
      if 0 < (q.msgArray q.out.toNat).len then
        (advanceOut q, false, some (q.transfer q.out.toNat))
      else (advanceOut q, tcFlag, none)
    else (q, tcFlag, none)
  else (q, tcFlag, none)

/-! ## Runs -/

/-- Where the producer is in `dma_send_data_uart`, with its argument. -/
inductive Producer
  | idle
  | copied (buf : List Byte)
  | stored (buf : List Byte)

/-- The system, with the messages enqueued, the transfers started and the
slots filled so far. -/
structure Uart where
  queue : CommMsgQueue
  tcFlag : Bool
  producer : Producer
  enqueued : List (List Byte)
  started : List Transfer
  filled : List Nat

inductive Event
  | copy (buf : List Byte)
  | storeLen
  | advanceIn
  | poll
  /-- the stream sets its transfer-complete flag -/
  | dmaComplete
  /-- memory behind the array changes -/
  | behind (i : Nat) (slot : UartMsgBuf)

/-- One event. The callers keep to messages of 1 to `SEND_BUF_SIZE` bytes and
to `MSG_ARRAY_SIZE - 1` messages that are enqueued and not yet started. -/
def step (s : Uart) : Event → Option Uart
  | .copy buf =>
    match s.producer with
    | .idle =>
      if 1 ≤ buf.length ∧ buf.length ≤ sendBufSize then
        some { s with queue := copyMsg s.queue buf, producer := .copied buf }
      else none
    | _ => none
  | .storeLen =>
    match s.producer with
    | .copied buf =>
      some { s with
        queue := storeLen s.queue (BitVec.ofNat 32 buf.length), producer := .stored buf }
    | _ => none
  | .advanceIn =>
    match s.producer with
    | .stored buf =>
      if s.enqueued.length + 1 ≤ s.started.length + (msgArraySize - 1) then
        some { s with
          queue := advanceIn s.queue
          producer := .idle
          enqueued := s.enqueued ++ [buf]
          filled := s.queue.inn.toNat :: s.filled }
      else none
    | _ => none
  | .poll =>
    let (queue, tcFlag, transfer) := msgUsartSend s.queue s.tcFlag
    some { s with queue, tcFlag, started := s.started ++ transfer.toList }
  | .dmaComplete => some { s with tcFlag := true }
  | .behind i slot =>
    if msgArraySize ≤ i then
      some { s with
        queue := { s.queue with msgArray := Function.update s.queue.msgArray i slot } }
    else none

/-- The system at the start: `in = out = 0`, any slots, any flag. -/
def start (slots : Nat → UartMsgBuf) (tcFlag : Bool) : Uart :=
  ⟨⟨0, 0, slots⟩, tcFlag, .idle, [], [], []⟩

/-! ## The law -/

/-- What is on the wire for a message: its bytes and their count. -/
def wire (buf : List Byte) : List Byte × Nat := (buf, buf.length)

def Transfer.wire (x : Transfer) : List Byte × Nat := (x.bytes, x.ndtr.toNat)

/-- One more transfer is started: of the message `m`. -/
def Starts (m : List Byte) (s s' : Uart) : Prop :=
  ∃ x, x.wire = wire m ∧ s'.started = s.started ++ [x]

/-- With the flag set, a poll starts the oldest message that is enqueued and not
yet started. With `out` behind the array it only brings `out` back: nothing is
started, the flag stays set, and the next poll starts the message. -/
def ServesOldest (s s' : Uart) : Prop :=
  s.tcFlag = true → ∀ m ∈ (s.enqueued.drop s.started.length).head?,
    if s.queue.out.toNat = msgArraySize then
      s'.started = s.started ∧ s'.tcFlag = true ∧
        ∃ s'', step s' .poll = some s'' ∧ Starts m s' s''
    else Starts m s s'

/-- The transfers started are the messages enqueued, in order, each once; when
the queue is empty, all of them; each is from a slot that was filled; and a poll
starts the oldest one. -/
structure Fifo (s : Uart) (e : Event) (s' : Uart) : Prop where
  inOrder : s'.started.map Transfer.wire <+: s'.enqueued.map wire
  noneLeft : s'.queue.inn = s'.queue.out → s'.started.length = s'.enqueued.length
  fromFilled : ∀ x ∈ s'.started, x.slot ∈ s'.filled
  served : e = .poll → ServesOldest s s'

/-- A poll that looks behind the array finds the length 0 there. -/
def NothingBehind (s : Uart) : Event → Prop
  | .poll => s.tcFlag = true → s.queue.out.toNat = msgArraySize →
      (s.queue.msgArray msgArraySize).len = 0
  | _ => True

/-! ## What each operation does -/

theorem memcpy_prefix (dst : Vector Byte sendBufSize) (src : List Byte)
    (h : src.length ≤ sendBufSize) : (memcpy dst src).toList.take src.length = src := by
  apply List.ext_getElem
  · simpa using h
  · intro i h₁ h₂
    simp [memcpy, List.getElem?_eq_getElem h₂]

theorem advanceIn_toNat (q : CommMsgQueue) (h : q.inn.toNat < 3) :
    (advanceIn q).inn.toNat = (q.inn.toNat + 1) % 3 := by
  simp only [advanceIn, msgArraySize, BitVec.ofNat_eq_ofNat, BitVec.toNat_umod,
    BitVec.toNat_add, BitVec.toNat_ofNat, Nat.reducePow, Nat.reduceMod]
  omega

theorem advanceOut_toNat (q : CommMsgQueue) (h : q.out.toNat ≤ 3) :
    (advanceOut q).out.toNat = (q.out.toNat + 1) % 4 := by
  have hand : (q.out.toNat + 1) &&& 3 = (q.out.toNat + 1) % 4 :=
    Nat.and_two_pow_sub_one_eq_mod _ 2
  simp only [advanceOut, msgArraySize, BitVec.ofNat_eq_ofNat, BitVec.toNat_and,
    BitVec.toNat_add, BitVec.toNat_ofNat]
  rw [show (q.out.toNat + 1 % 2 ^ 32) % 2 ^ 32 = q.out.toNat + 1 by omega]
  exact hand

theorem transfer_of_ne (q : CommMsgQueue) {i j : Nat} (h : j ≠ i) (slot : UartMsgBuf) :
    CommMsgQueue.transfer { q with msgArray := Function.update q.msgArray i slot } j =
      q.transfer j := by
  simp [CommMsgQueue.transfer, Function.update_of_ne h]

/-- The three outcomes of a poll. -/
theorem msgUsartSend_cases (q : CommMsgQueue) (tcFlag : Bool) :
    (msgUsartSend q tcFlag = (q, tcFlag, none) ∧ (q.inn = q.out ∨ tcFlag = false)) ∨
    (msgUsartSend q tcFlag = (advanceOut q, tcFlag, none) ∧ q.inn ≠ q.out ∧ tcFlag = true ∧
      (q.msgArray q.out.toNat).len = 0) ∨
    (msgUsartSend q tcFlag = (advanceOut q, false, some (q.transfer q.out.toNat)) ∧
      q.inn ≠ q.out ∧ tcFlag = true ∧ (q.msgArray q.out.toNat).len ≠ 0) := by
  unfold msgUsartSend
  by_cases hio : q.inn = q.out
  · exact Or.inl ⟨by simp [hio], Or.inl hio⟩
  · cases tcFlag with
    | false => exact Or.inl ⟨by simp, Or.inr rfl⟩
    | true =>
      by_cases hlen : (q.msgArray q.out.toNat).len = 0
      · exact Or.inr (Or.inl ⟨by simp [hio, hlen], hio, rfl, hlen⟩)
      · refine Or.inr (Or.inr ⟨?_, hio, rfl, hlen⟩)
        simpa [hio] using hlen

/-! ## The slots hold the messages that are pending -/

/-- The messages `pending` lie in the slots from `out` up to `in`. -/
structure Holds (q : CommMsgQueue) (pending : List (List Byte)) : Prop where
  room : pending.length ≤ 2
  outLe : q.out.toNat ≤ 3
  innEq : q.inn.toNat = (q.out.toNat + pending.length) % 3
  slots : slice 3 (fun i => (q.transfer i).wire) q.out.toNat pending.length = pending.map wire
  nonempty : ∀ m ∈ pending, 1 ≤ m.length

theorem holds_congr {q q' : CommMsgQueue} {pending : List (List Byte)} (h : Holds q pending)
    (hin : q'.inn = q.inn) (hout : q'.out = q.out)
    (hslot : ∀ j < pending.length, q'.transfer ((q.out.toNat + j) % 3) =
      q.transfer ((q.out.toNat + j) % 3)) : Holds q' pending where
  room := h.room
  outLe := hout ▸ h.outLe
  innEq := by rw [hin, hout]; exact h.innEq
  slots := by
    rw [hout, ← h.slots]
    exact slice_congr fun j hj => congrArg Transfer.wire (hslot j hj)
  nonempty := h.nonempty

/-- What the producer writes in its slot does not touch the pending messages. -/
theorem holds_update_inn {q : CommMsgQueue} {pending : List (List Byte)} (h : Holds q pending)
    (slot : UartMsgBuf) :
    Holds { q with msgArray := Function.update q.msgArray q.inn.toNat slot } pending := by
  refine holds_congr h rfl rfl fun j hj => transfer_of_ne q ?_ slot
  have hroom := h.room
  rw [h.innEq]
  exact add_mod_ne hj (by omega)

theorem holds_update_behind {q : CommMsgQueue} {pending : List (List Byte)}
    (h : Holds q pending) {i : Nat} (hi : 3 ≤ i) (slot : UartMsgBuf) :
    Holds { q with msgArray := Function.update q.msgArray i slot } pending := by
  refine holds_congr h rfl rfl fun j _ => transfer_of_ne q ?_ slot
  have := Nat.mod_lt (q.out.toNat + j) (show 0 < 3 by decide)
  omega

theorem holds_push {q : CommMsgQueue} {pending : List (List Byte)} (h : Holds q pending)
    {m : List Byte} (hm : (q.transfer q.inn.toNat).wire = wire m) (hpos : 1 ≤ m.length)
    (hroom : pending.length + 1 ≤ 2) : Holds (advanceIn q) (pending ++ [m]) := by
  have hin : q.inn.toNat < 3 := by rw [h.innEq]; exact Nat.mod_lt _ (by decide)
  refine ⟨by simpa using hroom, h.outLe, ?_, ?_, ?_⟩
  · rw [advanceIn_toNat q hin, h.innEq, List.length_append, List.length_singleton]
    show ((q.out.toNat + pending.length) % 3 + 1) % 3 = (q.out.toNat + (pending.length + 1)) % 3
    omega
  · rw [List.length_append, List.length_singleton, List.map_append]
    show slice 3 (fun i => (q.transfer i).wire) q.out.toNat (pending.length + 1) = _
    rw [slice_snoc, h.slots, ← h.innEq]
    exact congrArg (fun x => pending.map wire ++ [x]) hm
  · intro x hx
    rcases List.mem_append.mp hx with hx | hx
    · exact h.nonempty x hx
    · rw [List.mem_singleton.mp hx]; exact hpos

/-- The oldest message is in slot `out`. -/
theorem holds_front {q : CommMsgQueue} {m : List Byte} {pending : List (List Byte)}
    (h : Holds q (m :: pending)) (hout : q.out.toNat < 3) :
    (q.transfer q.out.toNat).wire = wire m := by
  have hs := h.slots
  rw [List.length_cons, slice_cons, Nat.mod_eq_of_lt hout, List.map_cons] at hs
  exact (List.cons.inj hs).1

theorem holds_pop {q : CommMsgQueue} {m : List Byte} {pending : List (List Byte)}
    (h : Holds q (m :: pending)) (hout : q.out.toNat < 3) : Holds (advanceOut q) pending := by
  have hto : (advanceOut q).out.toNat = q.out.toNat + 1 := by
    rw [advanceOut_toNat q h.outLe]; omega
  refine ⟨Nat.le_of_succ_le h.room, by omega, ?_, ?_,
    fun x hx => h.nonempty x (List.mem_cons_of_mem _ hx)⟩
  · show q.inn.toNat = _
    rw [h.innEq, hto, List.length_cons]
    congr 1
    omega
  · have hs := h.slots
    rw [List.length_cons, slice_cons, List.map_cons] at hs
    rw [hto]
    exact (List.cons.inj hs).2

/-- From behind the array `out` comes back to slot 0: both are congruent
modulo 3. -/
theorem holds_skip {q : CommMsgQueue} {pending : List (List Byte)}
    (h : Holds q pending) (hout : q.out.toNat = 3) : Holds (advanceOut q) pending := by
  have hto : (advanceOut q).out.toNat = 0 := by rw [advanceOut_toNat q h.outLe, hout]
  refine ⟨h.room, by omega, ?_, ?_, h.nonempty⟩
  · show q.inn.toNat = _
    rw [h.innEq, hto, hout, Nat.add_mod_left, Nat.zero_add]
  · rw [hto, ← h.slots, hout]
    exact slice_congr_start _ (by decide) _

/-- Inside the array the indices meet exactly when nothing is pending. -/
theorem holds_empty_iff {q : CommMsgQueue} {pending : List (List Byte)} (h : Holds q pending)
    (hout : q.out.toNat < 3) : q.inn = q.out ↔ pending = [] := by
  have hroom := h.room
  have hinn := h.innEq
  rw [BitVec.toNat_eq, ← List.length_eq_zero_iff]
  omega

theorem holds_front_len {q : CommMsgQueue} {m : List Byte} {pending : List (List Byte)}
    (h : Holds q (m :: pending)) (hout : q.out.toNat < 3) :
    (q.msgArray q.out.toNat).len ≠ 0 := by
  intro hz
  have hw : ((q.transfer q.out.toNat).ndtr).toNat = m.length :=
    congrArg Prod.snd (holds_front h hout)
  have hpos := h.nonempty m List.mem_cons_self
  simp only [CommMsgQueue.transfer, hz] at hw
  simp at hw
  omega

/-! ## The invariant -/

/-- What the producer has written so far in slot `in`. -/
def ProducerWrote (q : CommMsgQueue) : Producer → Prop
  | .idle => True
  | .copied buf => (1 ≤ buf.length ∧ buf.length ≤ sendBufSize) ∧
      (q.msgArray q.inn.toNat).buf.toList.take buf.length = buf
  | .stored buf => 1 ≤ buf.length ∧ (q.transfer q.inn.toNat).wire = wire buf

/-- The messages enqueued are those sent and those pending in the slots. -/
structure Split (s : Uart) (sent pending : List (List Byte)) : Prop where
  enqueued : s.enqueued = sent ++ pending
  started : s.started.map Transfer.wire = sent.map wire
  holds : Holds s.queue pending
  producer : ProducerWrote s.queue s.producer
  pendingFilled : ∀ j < pending.length, (s.queue.out.toNat + j) % 3 ∈ s.filled
  filledLt : ∀ i ∈ s.filled, i < 3
  startedFilled : ∀ x ∈ s.started, x.slot ∈ s.filled

def Inv (s : Uart) : Prop := ∃ sent pending, Split s sent pending

theorem split_length {s : Uart} {sent pending : List (List Byte)} (h : Split s sent pending) :
    s.started.length = sent.length := by
  simpa using congrArg List.length h.started

theorem inv_start (slots : Nat → UartMsgBuf) (tcFlag : Bool) : Inv (start slots tcFlag) :=
  ⟨[], [], rfl, rfl, ⟨by simp, by simp [start], by simp [start], rfl, by simp⟩, trivial,
    by simp, by simp [start], by simp [start]⟩

theorem split_copy {s : Uart} {sent pending : List (List Byte)} (h : Split s sent pending)
    {buf : List Byte} (hbuf : 1 ≤ buf.length ∧ buf.length ≤ sendBufSize) :
    Split { s with queue := copyMsg s.queue buf, producer := .copied buf } sent pending where
  enqueued := h.enqueued
  started := h.started
  holds := holds_update_inn h.holds _
  producer := by
    refine ⟨hbuf, ?_⟩
    simp only [copyMsg, Function.update_self]
    exact memcpy_prefix _ _ hbuf.2
  pendingFilled := h.pendingFilled
  filledLt := h.filledLt
  startedFilled := h.startedFilled

theorem split_storeLen {s : Uart} {sent pending : List (List Byte)} (h : Split s sent pending)
    {buf : List Byte} (hp : s.producer = .copied buf) :
    Split { s with
      queue := storeLen s.queue (BitVec.ofNat 32 buf.length), producer := .stored buf }
      sent pending where
  enqueued := h.enqueued
  started := h.started
  holds := holds_update_inn h.holds _
  producer := by
    have hw := h.producer
    rw [hp] at hw
    obtain ⟨⟨hpos, hle⟩, htake⟩ := hw
    have hn : buf.length < 2 ^ 16 := Nat.lt_of_le_of_lt hle (by decide)
    have hndtr : ((BitVec.ofNat 32 buf.length).setWidth 16).toNat = buf.length := by
      simp only [BitVec.toNat_setWidth, BitVec.toNat_ofNat]
      omega
    refine ⟨hpos, ?_⟩
    simp only [storeLen, CommMsgQueue.transfer, Transfer.wire, wire, Function.update_self,
      hndtr, htake]
  pendingFilled := h.pendingFilled
  filledLt := h.filledLt
  startedFilled := h.startedFilled

theorem split_advanceIn {s : Uart} {sent pending : List (List Byte)} (h : Split s sent pending)
    {buf : List Byte} (hp : s.producer = .stored buf)
    (hroom : s.enqueued.length + 1 ≤ s.started.length + (msgArraySize - 1)) :
    Split { s with
      queue := advanceIn s.queue
      producer := .idle
      enqueued := s.enqueued ++ [buf]
      filled := s.queue.inn.toNat :: s.filled } sent (pending ++ [buf]) := by
  have hw := h.producer
  rw [hp] at hw
  have hlen : pending.length + 1 ≤ 2 := by
    rw [split_length h, h.enqueued, List.length_append] at hroom
    simp only [msgArraySize] at hroom
    omega
  have hin := h.holds.innEq
  refine ⟨by simp [h.enqueued], h.started, holds_push h.holds hw.2 hw.1 hlen, trivial,
    ?_, ?_, fun x hx => List.mem_cons_of_mem _ (h.startedFilled x hx)⟩
  · intro j hj
    rw [List.length_append, List.length_singleton] at hj
    rcases Nat.lt_succ_iff_lt_or_eq.mp hj with hj | rfl
    · exact List.mem_cons_of_mem _ (h.pendingFilled j hj)
    · rw [hin]; exact List.mem_cons_self
  · intro i hi
    rcases List.mem_cons.mp hi with rfl | hi
    · rw [hin]; exact Nat.mod_lt _ (by decide)
    · exact h.filledLt i hi

/-- A transfer from inside the array is the oldest pending message. -/
theorem split_startTransfer {s : Uart} {sent pending : List (List Byte)}
    (h : Split s sent pending) (hio : s.queue.inn ≠ s.queue.out)
    (hout : s.queue.out.toNat < 3) (tcFlag : Bool) :
    ∃ m rest, pending = m :: rest ∧
      Split { s with
        queue := advanceOut s.queue
        tcFlag
        started := s.started ++ [s.queue.transfer s.queue.out.toNat] } (sent ++ [m]) rest := by
  cases pending with
  | nil => exact absurd ((holds_empty_iff h.holds hout).mpr rfl) hio
  | cons m rest =>
    have hto : (advanceOut s.queue).out.toNat = s.queue.out.toNat + 1 := by
      rw [advanceOut_toNat _ h.holds.outLe]; omega
    have hfront := h.pendingFilled 0 (by simp)
    rw [Nat.add_zero, Nat.mod_eq_of_lt hout] at hfront
    refine ⟨m, rest, rfl, by simp [h.enqueued], ?_, holds_pop h.holds hout, ?_, ?_,
      h.filledLt, ?_⟩
    · simp [h.started, holds_front h.holds hout]
    · exact h.producer
    · intro j hj
      have := h.pendingFilled (j + 1) (by simpa using hj)
      show ((advanceOut s.queue).out.toNat + j) % 3 ∈ s.filled
      rwa [hto, Nat.add_assoc, Nat.add_comm 1 j]
    · intro x hx
      rcases List.mem_append.mp hx with hx | hx
      · exact h.startedFilled x hx
      · rw [List.mem_singleton.mp hx]; exact hfront

/-- Behind the array nothing is started and nothing is lost. -/
theorem split_skip {s : Uart} {sent pending : List (List Byte)} (h : Split s sent pending)
    (hout : s.queue.out.toNat = 3) :
    Split { s with queue := advanceOut s.queue } sent pending where
  enqueued := h.enqueued
  started := h.started
  holds := holds_skip h.holds hout
  producer := h.producer
  pendingFilled := by
    have hto : (advanceOut s.queue).out.toNat = 0 := by
      rw [advanceOut_toNat _ h.holds.outLe, hout]
    intro j hj
    have hmem := h.pendingFilled j hj
    show ((advanceOut s.queue).out.toNat + j) % 3 ∈ s.filled
    rw [hout, Nat.add_mod_left] at hmem
    rwa [hto, Nat.zero_add]
  filledLt := h.filledLt
  startedFilled := h.startedFilled

theorem copy_eq {s t : Uart} {buf : List Byte} (h : step s (.copy buf) = some t) :
    s.producer = .idle ∧ (1 ≤ buf.length ∧ buf.length ≤ sendBufSize) ∧
      t = { s with queue := copyMsg s.queue buf, producer := .copied buf } := by
  simp only [step] at h
  split at h
  · rename_i hp
    obtain ⟨hbuf, h⟩ := Option.ite_none_right_eq_some.mp h
    exact ⟨hp, hbuf, (Option.some.inj h).symm⟩
  · cases h

theorem storeLen_eq {s t : Uart} (h : step s .storeLen = some t) :
    ∃ buf, s.producer = .copied buf ∧ t = { s with
      queue := storeLen s.queue (BitVec.ofNat 32 buf.length), producer := .stored buf } := by
  simp only [step] at h
  split at h
  · rename_i buf hp
    exact ⟨buf, hp, (Option.some.inj h).symm⟩
  · cases h

theorem advanceIn_eq {s t : Uart} (h : step s .advanceIn = some t) :
    ∃ buf, s.producer = .stored buf ∧ s.enqueued.length + 1 ≤ s.started.length + 2 ∧
      t = { s with
        queue := advanceIn s.queue
        producer := .idle
        enqueued := s.enqueued ++ [buf]
        filled := s.queue.inn.toNat :: s.filled } := by
  simp only [step] at h
  split at h
  · rename_i buf hp
    obtain ⟨hroom, h⟩ := Option.ite_none_right_eq_some.mp h
    exact ⟨buf, hp, hroom, (Option.some.inj h).symm⟩
  · cases h

/-- A poll starts the oldest message, or looks behind the array. -/
theorem inv_poll {s t : Uart} (h : Inv s) (hs : step s .poll = some t)
    (hbehind : NothingBehind s .poll) : Inv t := by
  obtain ⟨sent, pending, h⟩ := h
  simp only [step, Option.some.injEq] at hs
  subst hs
  have hout := h.holds.outLe
  rcases msgUsartSend_cases s.queue s.tcFlag with ⟨e, -⟩ | ⟨e, hio, htc, hlen⟩ |
    ⟨e, hio, htc, hlen⟩
  · simp only [e, Option.toList_none, List.append_nil]
    exact ⟨sent, pending, h⟩
  · simp only [e, Option.toList_none, List.append_nil]
    rcases Nat.lt_or_ge s.queue.out.toNat 3 with hlt | hge
    · obtain ⟨m, rest, rfl, -⟩ := split_startTransfer h hio hlt s.tcFlag
      exact absurd hlen (holds_front_len h.holds hlt)
    · exact ⟨sent, pending, split_skip h (by omega)⟩
  · simp only [e, Option.toList_some]
    rcases Nat.lt_or_ge s.queue.out.toNat 3 with hlt | hge
    · obtain ⟨m, rest, -, hsplit⟩ := split_startTransfer h hio hlt false
      exact ⟨_, _, hsplit⟩
    · have h3 : s.queue.out.toNat = msgArraySize := Nat.le_antisymm hout hge
      exact absurd (hbehind htc h3) (h3 ▸ hlen)

/-- What lies behind the array is not in the queue. -/
theorem split_behind {s : Uart} {sent pending : List (List Byte)} (h : Split s sent pending)
    {i : Nat} (hi : 3 ≤ i) (slot : UartMsgBuf) :
    Split { s with queue :=
      { s.queue with msgArray := Function.update s.queue.msgArray i slot } } sent pending := by
  refine { h with holds := holds_update_behind h.holds hi slot, producer := ?_ }
  have hin : s.queue.inn.toNat ≠ i := by
    have := Nat.mod_lt (s.queue.out.toNat + pending.length) (show 0 < 3 by decide)
    rw [h.holds.innEq]
    omega
  have hw := h.producer
  cases hp : s.producer with
  | idle => trivial
  | copied buf =>
    rw [hp] at hw
    simpa [ProducerWrote, Function.update_of_ne hin] using hw
  | stored buf =>
    rw [hp] at hw
    exact ⟨hw.1, (congrArg Transfer.wire (transfer_of_ne _ hin _)).trans hw.2⟩

/-- **Step lemma.** -/
theorem inv_step {s s' : Uart} {e : Event} (h : Inv s) (hs : step s e = some s')
    (hbehind : NothingBehind s e) : Inv s' := by
  cases e with
  | poll => exact inv_poll h hs hbehind
  | copy buf =>
    obtain ⟨sent, pending, h⟩ := h
    obtain ⟨-, hbuf, rfl⟩ := copy_eq hs
    exact ⟨sent, pending, split_copy h hbuf⟩
  | storeLen =>
    obtain ⟨sent, pending, h⟩ := h
    obtain ⟨buf, hp, rfl⟩ := storeLen_eq hs
    exact ⟨sent, pending, split_storeLen h hp⟩
  | advanceIn =>
    obtain ⟨sent, pending, h⟩ := h
    obtain ⟨buf, hp, hroom, rfl⟩ := advanceIn_eq hs
    exact ⟨sent, pending ++ [buf], split_advanceIn h hp hroom⟩
  | dmaComplete =>
    obtain ⟨sent, pending, h⟩ := h
    cases hs
    exact ⟨sent, pending, { h with }⟩
  | behind i slot =>
    obtain ⟨sent, pending, h⟩ := h
    obtain ⟨hi, hs⟩ := Option.ite_none_right_eq_some.mp hs
    cases hs
    exact ⟨sent, pending, split_behind h hi slot⟩

/-! ## FIFO, exactly -/

theorem split_unsent {s : Uart} {sent pending : List (List Byte)} (h : Split s sent pending) :
    s.enqueued.drop s.started.length = pending := by
  rw [split_length h, h.enqueued, List.drop_left]

/-- While a message is pending the indices differ, also with `out` behind the
array: `in` stays below 3. -/
theorem split_inn_ne {s : Uart} {sent pending : List (List Byte)} (h : Split s sent pending)
    (hne : pending ≠ []) : s.queue.inn ≠ s.queue.out := by
  intro hio
  rcases Nat.lt_or_ge s.queue.out.toNat 3 with hlt | hge
  · exact hne ((holds_empty_iff h.holds hlt).mp hio)
  · have hinn := h.holds.innEq
    have hmod := Nat.mod_lt (s.queue.out.toNat + pending.length) (show 0 < 3 by decide)
    rw [hio] at hinn
    omega

theorem step_poll (s : Uart) :
    step s .poll = some { s with
      queue := (msgUsartSend s.queue s.tcFlag).1
      tcFlag := (msgUsartSend s.queue s.tcFlag).2.1
      started := s.started ++ (msgUsartSend s.queue s.tcFlag).2.2.toList } := rfl

/-- A poll inside the array starts the oldest message. -/
theorem poll_starts {s : Uart} {sent rest : List (List Byte)} {m : List Byte}
    (h : Split s sent (m :: rest)) (htc : s.tcFlag = true) (hout : s.queue.out.toNat < 3) :
    ∃ s', step s .poll = some s' ∧ Starts m s s' := by
  have hio := split_inn_ne h (List.cons_ne_nil m rest)
  refine ⟨_, step_poll s, s.queue.transfer s.queue.out.toNat, holds_front h.holds hout, ?_⟩
  rcases msgUsartSend_cases s.queue s.tcFlag with ⟨-, he | he⟩ | ⟨-, -, -, hlen⟩ | ⟨e, -⟩
  · exact absurd he hio
  · rw [htc] at he; cases he
  · exact absurd hlen (holds_front_len h.holds hout)
  · simp only [e, Option.toList_some]

/-- A poll behind the array, where the length is 0, brings `out` back. -/
theorem poll_skips {s s' : Uart} {sent pending : List (List Byte)} (h : Split s sent pending)
    (hne : pending ≠ []) (htc : s.tcFlag = true) (hout : s.queue.out.toNat = 3)
    (hlen : (s.queue.msgArray 3).len = 0) (hs : step s .poll = some s') :
    s' = { s with queue := advanceOut s.queue } := by
  simp only [step, Option.some.injEq] at hs
  subst hs
  rcases msgUsartSend_cases s.queue s.tcFlag with ⟨-, he | he⟩ | ⟨e, -⟩ | ⟨-, -, -, he⟩
  · exact absurd he (split_inn_ne h hne)
  · rw [htc] at he; cases he
  · simp [e]
  · exact absurd hlen (hout ▸ he)

theorem servesOldest_of_inv {s s' : Uart} (h : Inv s) (hs : step s .poll = some s')
    (hbehind : NothingBehind s .poll) : ServesOldest s s' := by
  obtain ⟨sent, pending, h⟩ := h
  intro htc m hm
  rw [split_unsent h] at hm
  cases pending with
  | nil => cases hm
  | cons m' rest =>
    obtain rfl : m' = m := by simpa using hm
    split
    · rename_i hout
      have hlen := hbehind htc hout
      have hskip := poll_skips h (List.cons_ne_nil _ _) htc hout hlen hs
      have hto : (advanceOut s.queue).out.toNat = 0 := by
        rw [advanceOut_toNat _ h.holds.outLe, hout]; rfl
      have h' := split_skip h hout
      subst hskip
      exact ⟨rfl, htc, poll_starts h' htc (by rw [hto]; decide)⟩
    · rename_i hout
      have hle := h.holds.outLe
      simp only [msgArraySize] at hout
      obtain ⟨t, ht, hstarts⟩ := poll_starts h htc (by omega)
      rw [Option.some.inj (hs.symm.trans ht)]
      exact hstarts

theorem fifo_of_inv {s s' : Uart} {e : Event} (h : Inv s) (hs : step s e = some s')
    (hbehind : NothingBehind s e) : Fifo s e s' := by
  obtain ⟨sent, pending, h'⟩ := inv_step h hs hbehind
  refine ⟨?_, ?_, h'.startedFilled, ?_⟩
  · rw [h'.started, h'.enqueued, List.map_append]
    exact List.prefix_append _ _
  · intro hio
    have hnil : pending = [] := by
      by_contra hne
      exact split_inn_ne h' hne hio
    rw [split_length h', h'.enqueued, hnil, List.append_nil]
  · rintro rfl
    exact servesOldest_of_inv h hs hbehind

/-- A transfer from behind the array is from a slot that was never filled. -/
theorem nothingBehind_of_fifo {s s' : Uart} {e : Event} (h : Inv s) (hs : step s e = some s')
    (hf : Fifo s e s') : NothingBehind s e := by
  cases e with
  | poll =>
    intro htc hout
    by_contra hlen
    obtain ⟨sent, pending, h⟩ := h
    simp only [step, Option.some.injEq] at hs
    subst hs
    have hio : s.queue.inn ≠ s.queue.out := by
      have hmod := Nat.mod_lt (s.queue.out.toNat + pending.length) (show 0 < 3 by decide)
      have hinn := h.holds.innEq
      intro hio
      rw [hio, hout] at hinn
      simp only [msgArraySize] at hinn hout
      omega
    rcases msgUsartSend_cases s.queue s.tcFlag with ⟨-, he | he⟩ | ⟨-, -, -, he⟩ | ⟨e, -⟩
    · exact hio he
    · rw [htc] at he; cases he
    · exact hlen (hout ▸ he)
    · have hmem := hf.fromFilled (s.queue.transfer s.queue.out.toNat) (by simp [e])
      have hlt : s.queue.out.toNat < 3 := h.filledLt _ hmem
      rw [hout] at hlt
      exact absurd hlt (by decide)
  | _ => trivial

/-- **The queue is a FIFO, exactly.** Along every run the law holds throughout
if and only if every poll that looks behind the array finds the length 0. -/
theorem fifo_iff (slots : Nat → UartMsgBuf) (tcFlag : Bool) (es : List Event) :
    Along step Fifo (start slots tcFlag) es ↔
      Along step (fun s e _ => NothingBehind s e) (start slots tcFlag) es := by
  refine along_iff (fun s e t hi hs hb => inv_step hi hs hb) ?_ es (inv_start slots tcFlag)
  intro s e t hi hs
  exact ⟨nothingBehind_of_fifo hi hs, fifo_of_inv hi hs⟩

/-- A message is sent and its transfer completes. -/
def sendOne (buf : List Byte) : List Event :=
  [.copy buf, .storeLen, .advanceIn, .poll, .dmaComplete]

/-- After three messages the next poll looks behind the array: with the queue
empty it starts a transfer of the bytes it finds there. -/
theorem fifo_fails_behind_array :
    ¬ Along step Fifo
      (start (fun i => ⟨if i < 3 then 0 else 5, Vector.replicate _ 0⟩) true)
      (sendOne [1] ++ sendOne [2] ++ sendOne [3] ++ [.poll]) := by
  intro h
  obtain ⟨-, h⟩ := (along_append _ _ _).mp h
  have hfifo := (h _ rfl _ rfl).1
  have hmem : 3 ∈ [2, 1, 0] :=
    hfifo.fromFilled _ (List.mem_append_right _ (List.mem_singleton_self _))
  revert hmem
  decide

end MqttDevice.UartQueue
