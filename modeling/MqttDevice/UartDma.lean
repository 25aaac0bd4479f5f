import MqttDevice.UartMemory

/-!
# The DMA reads a transmit queue (`usart.c`)

A transfer reads the `buf` of its slot byte by byte while messages are sent. At the
begin `uart2_init` and `uart3_init` enable one of `SEND_BUF_SIZE` bytes of slot 0; unlike
`MSG_USART_Send` they leave `out` where it is.

* `dma_undisturbed_iff`: the slot in the hands of the DMA is not written if and only
  if no message is sent during this first transfer and no copy runs on into the
  slot; when every message fits, the DMA sends the bytes enqueued.
-/

namespace MqttDevice.UartDma

open MqttDevice.Ascii MqttDevice.Memory MqttDevice.Runs MqttDevice.UartMemory
open MqttDevice.UartQueue (sendBufSize msgArraySize)

/-! ## The system -/

/-- What a transfer was started for. -/
inductive Source where
  /-- enabled by `uart2_init` or `uart3_init` -/
  | init
  | message (m : Message)
  /-- what a poll found behind the array -/
  | behind

/-- A running transfer, with the bytes it has put on the wire. -/
structure Stream where
  slot : Nat
  ndtr : BitVec 16
  source : Source
  wire : List Byte

/-- Where the producer is in `dma_send_data_uart`, with its arguments. -/
inductive Producer where
  | idle
  | copied (buf : Mem) (len : BitVec 32)
  | stored (buf : Mem) (len : BitVec 32)

/-- The queue with the stream; `pending` are the messages queued and not yet started. -/
structure Uart where
  queue : MsgQueue
  tcFlag : Bool
  dma : Option Stream
  producer : Producer
  pending : List Message

inductive Event where
  | copy (buf : Mem) (len : BitVec 32)
  | storeLen
  | advanceIn
  | poll
  /-- the stream sends its next byte -/
  | dmaByte
  /-- the stream has sent its bytes and raises its flag -/
  | dmaComplete
  /-- memory behind the array changes -/
  | behind (mem : Mem)

/-- The message in slot `out` is the oldest one. -/
def sourceOf (slot : Nat) : List Message → Source
  | m :: _ => if slot < msgArraySize then .message m else .behind
  | [] => .behind

/-- One event. The producer keeps to `MSG_ARRAY_SIZE - 1` messages that are queued
and not yet started. -/
def step (s : Uart) : Event → Option Uart
  | .copy buf len =>
    match s.producer with
    | .idle =>
      if s.pending.length + 1 ≤ msgArraySize - 1 then
        some { s with queue := copyMsg s.queue buf len, producer := .copied buf len }
      else none
    | _ => none
  | .storeLen =>
    match s.producer with
    | .copied buf len =>
      some { s with queue := storeLen s.queue len, producer := .stored buf len }
    | _ => none
  | .advanceIn =>
    match s.producer with
    | .stored buf len =>
      some { s with
        queue := advanceIn s.queue, producer := .idle, pending := s.pending ++ [given buf len] }
    | _ => none
  | .poll =>
    let (queue, tcFlag, transfer) := msgUsartSend s.queue s.tcFlag
    some { s with
      queue, tcFlag
      dma := match transfer with
        | some x => some ⟨x.slot, x.ndtr, sourceOf x.slot s.pending, []⟩
        | none => s.dma
      pending := left s.queue queue s.pending }
  | .dmaByte =>
    match s.dma with
    | some x =>
      if x.wire.length < x.ndtr.toNat then
        let byte := s.queue.mem (bufAt x.slot + x.wire.length)
        some { s with dma := some { x with wire := x.wire ++ [byte] } }
      else none
    | none => none
  | .dmaComplete =>
    match s.dma with
    | some x =>
      if x.wire.length = x.ndtr.toNat then some { s with dma := none, tcFlag := true } else none
    | none => none
  | .behind mem => some { s with queue := { s.queue with mem := withBehind s.queue.mem mem } }

/-- An empty queue, and the transfer that was enabled with it. -/
def start (mem : Mem) : Uart where
  queue := ⟨0, 0, withBehind (fun _ => 0) mem⟩
  tcFlag := false
  dma := some ⟨0, BitVec.ofNat 16 sendBufSize, .init, []⟩
  producer := .idle
  pending := []

/-! ## The law -/

/-- The bytes that the producer writes in an event. -/
def Writes (q : MsgQueue) : Event → Nat → Prop
  | .copy _ len, o => bufAt q.inn.toNat ≤ o ∧ o < bufAt q.inn.toNat + len.toNat
  | .storeLen, o => lenAt q.inn.toNat ≤ o ∧ o < lenAt q.inn.toNat + 4
  | _, _ => False

/-- The producer does not write the slot that the DMA reads. -/
def NotWritten (s : Uart) (e : Event) : Prop :=
  ∀ x, s.dma = some x → ∀ o, Writes s.queue e o → ¬ (slotAt x.slot ≤ o ∧ o < slotAt (x.slot + 1))

/-- The bytes on the wire for a message are bytes of the message, and so many. -/
def OnWire (s : Uart) : Prop :=
  ∀ x m, s.dma = some x → x.source = .message m → x.wire <+: m.1 ∧ x.ndtr.toNat = m.1.length

/-- Nothing is written during the transfer enabled at the begin, and a copy ends before
a slot behind it that the DMA reads. -/
def Undisturbed (s : Uart) : Event → Prop
  | .copy _ len => ∀ x, s.dma = some x → (x.source = .init → len.toNat = 0) ∧
      (s.queue.inn.toNat < x.slot → bufAt s.queue.inn.toNat + len.toNat ≤ slotAt x.slot)
  | .storeLen => ∀ x, s.dma = some x → x.source ≠ .init
  | _ => True

/-- The message fits in its slot. -/
def Fits : Event → Prop
  | .copy _ len => len.toNat ≤ sendBufSize
  | _ => True

/-! ## What an event does -/

theorem copy_eq {s t : Uart} {buf : Mem} {len : BitVec 32} (h : step s (.copy buf len) = some t) :
    s.producer = .idle ∧ s.pending.length + 1 ≤ 2 ∧
      t = { s with queue := copyMsg s.queue buf len, producer := .copied buf len } := by
  simp only [step] at h
  split at h
  · rename_i hp
    obtain ⟨hroom, h⟩ := Option.ite_none_right_eq_some.mp h
    exact ⟨hp, hroom, (Option.some.inj h).symm⟩
  · cases h

theorem storeLen_eq {s t : Uart} (h : step s .storeLen = some t) :
    ∃ buf len, s.producer = .copied buf len ∧
      t = { s with queue := storeLen s.queue len, producer := .stored buf len } := by
  simp only [step] at h
  split at h
  · rename_i buf len hp
    exact ⟨buf, len, hp, (Option.some.inj h).symm⟩
  · cases h

theorem advanceIn_eq {s t : Uart} (h : step s .advanceIn = some t) :
    ∃ buf len, s.producer = .stored buf len ∧ t = { s with
      queue := advanceIn s.queue, producer := .idle, pending := s.pending ++ [given buf len] } := by
  simp only [step] at h
  split at h
  · rename_i buf len hp
    exact ⟨buf, len, hp, (Option.some.inj h).symm⟩
  · cases h

theorem dmaByte_eq {s t : Uart} (h : step s .dmaByte = some t) :
    ∃ x, s.dma = some x ∧ x.wire.length < x.ndtr.toNat ∧
      t = { s with dma := some { x with
        wire := x.wire ++ [s.queue.mem (bufAt x.slot + x.wire.length)] } } := by
  simp only [step] at h
  split at h
  · rename_i x hx
    obtain ⟨hlt, h⟩ := Option.ite_none_right_eq_some.mp h
    exact ⟨x, hx, hlt, (Option.some.inj h).symm⟩
  · cases h

theorem dmaComplete_eq {s t : Uart} (h : step s .dmaComplete = some t) :
    ∃ x, s.dma = some x ∧ x.wire.length = x.ndtr.toNat ∧
      t = { s with dma := none, tcFlag := true } := by
  simp only [step] at h
  split at h
  · rename_i x hx
    obtain ⟨heq, h⟩ := Option.ite_none_right_eq_some.mp h
    exact ⟨x, hx, heq, (Option.some.inj h).symm⟩
  · cases h

/-! ## Indices and slots -/

/-- A transfer that a poll started: `out` has moved on from its slot. -/
def Released (q : MsgQueue) (x : Stream) : Prop :=
  x.slot = 3 ∨ (x.slot < 3 ∧ (x.slot + 1) % 3 = q.out.toNat % 3)

structure InStep (s : Uart) : Prop where
  placed : Placed s.queue s.pending.length
  room : s.producer ≠ .idle → s.pending.length + 1 ≤ 2
  flag : s.tcFlag = true → s.dma = none
  begins : ∀ x, s.dma = some x → x.source = .init →
    x.slot = 0 ∧ s.queue.inn.toNat = 0 ∧ ∀ buf len, s.producer ≠ .stored buf len
  released : ∀ x, s.dma = some x → x.source ≠ .init → Released s.queue x

/-- With room for one more message the producer is not at the slot of the transfer. -/
theorem inn_ne_slot {s : Uart} (h : InStep s) (hroom : s.pending.length + 1 ≤ 2) {x : Stream}
    (hx : s.dma = some x) (hsource : x.source ≠ .init) : s.queue.inn.toNat ≠ x.slot := by
  have hin := h.placed.innEq
  rcases h.released x hx hsource with h3 | ⟨-, hmod⟩
  · omega
  · omega

theorem copy_outside_iff (inn slot n : Nat) :
    (∀ o, bufAt inn ≤ o ∧ o < bufAt inn + n → ¬ (slotAt slot ≤ o ∧ o < slotAt (slot + 1))) ↔
      (inn = slot → n = 0) ∧ (inn < slot → bufAt inn + n ≤ slotAt slot) := by
  simp only [bufAt_eq, slotAt_eq]
  constructor
  · intro h
    refine ⟨fun heq => ?_, fun hlt => ?_⟩
    · have hfirst := h (2056 * inn + 8)
      omega
    · have hslot := h (2056 * slot)
      omega
  · rintro ⟨heq, hlt⟩ o ho hs
    rcases Nat.lt_trichotomy inn slot with hc | hc | hc
    · have := hlt hc
      omega
    · have := heq hc
      omega
    · omega

theorem notWritten_iff {s t : Uart} {e : Event} (h : InStep s) (ht : step s e = some t) :
    NotWritten s e ↔ Undisturbed s e := by
  cases e with
  | copy buf len =>
    obtain ⟨-, hroom, -⟩ := copy_eq ht
    refine forall_congr' fun x => forall_congr' fun hx => ?_
    refine (copy_outside_iff s.queue.inn.toNat x.slot len.toNat).trans ?_
    refine and_congr_left fun _ => ?_
    by_cases hinit : x.source = .init
    · obtain ⟨hslot, hin, -⟩ := h.begins x hx hinit
      simp [hinit, hslot, hin]
    · simp [hinit, inn_ne_slot h hroom hx hinit]
  | storeLen =>
    obtain ⟨_, _, hp, -⟩ := storeLen_eq ht
    have hroom := h.room (by rw [hp]; nofun)
    refine forall_congr' fun x => forall_congr' fun hx => ?_
    constructor
    · intro hw hinit
      obtain ⟨hslot, hin, -⟩ := h.begins x hx hinit
      refine hw (lenAt s.queue.inn.toNat) ⟨Nat.le_refl _, by omega⟩ ?_
      rw [hslot, hin]
      decide
    · rintro hinit o ⟨hlo, hhi⟩ hs
      have hne := inn_ne_slot h hroom hx hinit
      simp only [lenAt_eq, slotAt_eq] at hlo hhi hs
      omega
  | _ => exact ⟨fun _ => trivial, fun _ _ _ _ hw => hw.elim⟩

theorem sourceOf_ne_init (slot : Nat) (pending : List Message) : sourceOf slot pending ≠ .init := by
  unfold sourceOf
  split
  · split <;> nofun
  · nofun

/-- The flag is raised only when no transfer runs. -/
theorem dma_of_moved {s : Uart} (h : InStep s) (htc : s.tcFlag = true) {x : Stream} :
    s.dma ≠ some x := by
  rw [h.flag htc]
  exact Option.some_ne_none x |>.symm

theorem released_advanceOut {q : MsgQueue} {n : Nat} (h : Placed q n) {x : Stream}
    (hx : x.slot = q.out.toNat) : Released (advanceOut q) x := by
  have hto := advanceOut_toNat h.outLe
  have hle := h.outLe
  rcases Nat.lt_or_ge q.out.toNat 3 with hlt | hge
  · refine .inr ⟨by omega, ?_⟩
    rw [hx, hto]
    omega
  · exact .inl (by omega)

theorem length_left_le (q q' : MsgQueue) (pending : List Message) :
    (left q q' pending).length ≤ pending.length := by
  unfold left
  split
  · rw [List.length_tail]
    exact Nat.sub_le _ _
  · exact Nat.le_refl _

/-- A poll starts a transfer of the slot that it moves `out` away from. -/
theorem inStep_poll {s t : Uart} (h : InStep s) (ht : step s .poll = some t) : InStep t := by
  simp only [step, Option.some.injEq] at ht
  subst ht
  have hplaced := placed_poll h.placed s.tcFlag
  have hroom (q : MsgQueue) (hp : s.producer ≠ .idle) :
      (left s.queue q s.pending).length + 1 ≤ 2 :=
    (Nat.succ_le_succ (length_left_le s.queue q s.pending)).trans (h.room hp)
  rcases msgUsartSend_cases s.queue s.tcFlag with ⟨e, -⟩ | ⟨e, hio, htc, -⟩ | ⟨e, hio, htc, -⟩
  · simp only [e] at hplaced ⊢
    exact ⟨hplaced, hroom _, h.flag, h.begins, h.released⟩
  · simp only [e] at hplaced ⊢
    exact ⟨hplaced, hroom _, h.flag, h.begins, fun x hx => absurd hx (dma_of_moved h htc)⟩
  · simp only [e] at hplaced ⊢
    refine ⟨hplaced, hroom _, nofun, ?_, ?_⟩
    · intro x hx hinit
      cases hx
      exact absurd hinit (sourceOf_ne_init _ _)
    · intro x hx _
      cases hx
      exact released_advanceOut h.placed rfl

/-- **Step lemma.** -/
theorem inStep_step {s t : Uart} {e : Event} (h : InStep s) (ht : step s e = some t)
    (hg : Undisturbed s e) : InStep t := by
  have hplaced (mem : Mem) : Placed { s.queue with mem := mem } s.pending.length :=
    ⟨h.placed.room, h.placed.outLe, h.placed.innEq⟩
  cases e with
  | copy buf len =>
    obtain ⟨-, hroom, rfl⟩ := copy_eq ht
    refine ⟨hplaced _, fun _ => hroom, h.flag, ?_, h.released⟩
    intro x hx hinit
    obtain ⟨hslot, hin, -⟩ := h.begins x hx hinit
    exact ⟨hslot, hin, fun _ _ => nofun⟩
  | storeLen =>
    obtain ⟨buf, len, hp, rfl⟩ := storeLen_eq ht
    refine ⟨hplaced _, fun _ => h.room (by rw [hp]; nofun), h.flag, ?_, h.released⟩
    intro x hx hinit
    exact absurd hinit (hg x hx)
  | advanceIn =>
    obtain ⟨buf, len, hp, rfl⟩ := advanceIn_eq ht
    have hroom := h.room (by rw [hp]; nofun)
    have hlen : (s.pending ++ [given buf len]).length = s.pending.length + 1 := by simp
    refine ⟨hlen ▸ placed_push h.placed hroom s.queue.mem, fun hidle => absurd rfl hidle,
      h.flag, ?_, h.released⟩
    intro x hx hinit
    exact absurd hp ((h.begins x hx hinit).2.2 buf len)
  | poll => exact inStep_poll h ht
  | dmaByte =>
    obtain ⟨x, hx, -, rfl⟩ := dmaByte_eq ht
    refine ⟨h.placed, h.room, fun htc => absurd hx (dma_of_moved h htc), ?_, ?_⟩
    · intro y hy hinit
      cases hy
      exact h.begins x hx hinit
    · intro y hy hinit
      cases hy
      exact h.released x hx hinit
  | dmaComplete =>
    obtain ⟨x, hx, -, rfl⟩ := dmaComplete_eq ht
    exact ⟨h.placed, h.room, fun _ => rfl, nofun, nofun⟩
  | behind mem =>
    cases ht
    exact ⟨hplaced _, h.room, h.flag, h.begins, h.released⟩

/-! ## What is on the wire -/

/-- The transfer carries the message `m`, which lies in its slot. -/
structure Carries (q : MsgQueue) (x : Stream) (m : Message) : Prop where
  slotLt : x.slot < 3
  fits : m.2.toNat ≤ sendBufSize
  count : x.ndtr.toNat = m.2.toNat
  held : q.message x.slot = m
  soFar : x.wire <+: m.1

/-- What the producer has written so far in slot `in`. -/
def Wrote (q : MsgQueue) : Producer → Prop
  | .idle => True
  | .copied buf len => len.toNat ≤ sendBufSize ∧
      bytes q.mem (bufAt q.inn.toNat) len.toNat = bytes buf 0 len.toNat
  | .stored buf len => len.toNat ≤ sendBufSize ∧ q.message q.inn.toNat = given buf len

structure Intact (s : Uart) : Prop where
  inStep : InStep s
  holds : Holds s.queue s.pending
  fits : ∀ m ∈ s.pending, m.2.toNat ≤ sendBufSize
  wrote : Wrote s.queue s.producer
  carries : ∀ x m, s.dma = some x → x.source = .message m → Carries s.queue x m

theorem Carries.bytes_eq {q : MsgQueue} {x : Stream} {m : Message} (h : Carries q x m) :
    m.1 = bytes q.mem (bufAt x.slot) x.ndtr.toNat := by
  have hm := h.held
  have hlen : q.len x.slot = m.2 := congrArg Prod.snd hm
  rw [← congrArg Prod.fst hm, h.count]
  show bytes q.mem (bufAt x.slot) (min (q.len x.slot).toNat sendBufSize) = _
  rw [hlen, Nat.min_eq_left h.fits]

theorem Carries.frame {q q' : MsgQueue} {x : Stream} {m : Message} (h : Carries q x m)
    (hsame : SameSlot q.mem q'.mem x.slot) : Carries q' x m :=
  { h with held := hsame.message.trans h.held }

theorem wrote_frame {q q' : MsgQueue} {p : Producer} (h : Wrote q p) (hin : q'.inn = q.inn)
    (hsame : SameSlot q.mem q'.mem q.inn.toNat) : Wrote q' p := by
  cases p with
  | idle => trivial
  | copied buf len =>
    refine ⟨h.1, ?_⟩
    rw [hin, hsame.buf h.1]
    exact h.2
  | stored buf len =>
    refine ⟨h.1, ?_⟩
    rw [hin, hsame.message]
    exact h.2

/-- The next byte that the stream sends is the next one of the message. -/
theorem carries_dmaByte {q : MsgQueue} {x : Stream} {m : Message} (h : Carries q x m)
    (hlt : x.wire.length < x.ndtr.toNat) :
    Carries q { x with wire := x.wire ++ [q.mem (bufAt x.slot + x.wire.length)] } m := by
  have hbytes := h.bytes_eq
  have hwire : x.wire = bytes q.mem (bufAt x.slot) x.wire.length := by
    rw [← take_bytes _ _ (Nat.le_of_lt hlt), ← hbytes]
    exact List.prefix_iff_eq_take.mp h.soFar
  refine { h with soFar := ?_ }
  have hnext : x.wire ++ [q.mem (bufAt x.slot + x.wire.length)] =
      bytes q.mem (bufAt x.slot) (x.wire.length + 1) := by
    rw [bytes_snoc, ← hwire]
  rw [hnext, ← take_bytes _ _ hlt, ← hbytes]
  exact List.take_prefix _ _

/-- A transfer from inside the array starts with the oldest message. -/
theorem carries_start {q : MsgQueue} {pending : List Message} (h : Holds q pending)
    (hfits : ∀ m ∈ pending, m.2.toNat ≤ sendBufSize) {m : Message}
    (hsource : sourceOf q.out.toNat pending = .message m) :
    Carries (advanceOut q)
      ⟨q.out.toNat, (q.len q.out.toNat).setWidth 16, sourceOf q.out.toNat pending, []⟩ m := by
  cases pending with
  | nil => cases hsource
  | cons m' rest =>
    rw [sourceOf] at hsource
    split at hsource
    · rename_i hlt
      cases hsource
      have hfront := holds_front h hlt
      have hlen : q.len q.out.toNat = m.2 := congrArg Prod.snd hfront
      have hfit := hfits m List.mem_cons_self
      refine ⟨hlt, hfit, ?_, hfront, List.nil_prefix⟩
      show ((q.len q.out.toNat).setWidth 16).toNat = m.2.toNat
      rw [hlen, BitVec.toNat_setWidth, Nat.mod_eq_of_lt]
      exact Nat.lt_of_le_of_lt hfit (by decide)
    · cases hsource

theorem mem_of_mem_left {q t : MsgQueue} {pending : List Message} {m : Message}
    (h : m ∈ left q t pending) : m ∈ pending := by
  unfold left at h
  split at h
  · exact List.mem_of_mem_tail h
  · exact h

/-- A write to slot `in`, for which there is room, leaves the transfer alone. -/
theorem carries_write {s : Uart} (h : Intact s) (hroom : s.pending.length + 1 ≤ 2)
    {q : MsgQueue} (hsame : ∀ i ≠ s.queue.inn.toNat, SameSlot s.queue.mem q.mem i) (x : Stream)
    (m : Message) (hx : s.dma = some x) (hsource : x.source = .message m) : Carries q x m := by
  refine (h.carries x m hx hsource).frame (hsame _ ?_)
  exact (inn_ne_slot h.inStep hroom hx (by rw [hsource]; nofun)).symm

/-- A transfer starts with the bytes of its message in the slot. -/
theorem intact_poll {s t : Uart} (h : Intact s) (ht : step s .poll = some t) : Intact t := by
  have hinStep := inStep_poll h.inStep ht
  simp only [step, Option.some.injEq] at ht
  subst ht
  have hholds := holds_poll h.holds s.tcFlag
  rcases msgUsartSend_cases s.queue s.tcFlag with ⟨e, -⟩ | ⟨e, hio, htc, -⟩ | ⟨e, hio, htc, -⟩
  · simp only [e] at hholds hinStep ⊢
    exact ⟨hinStep, hholds, fun m hm => h.fits m (mem_of_mem_left hm), h.wrote, h.carries⟩
  · simp only [e] at hholds hinStep ⊢
    exact ⟨hinStep, hholds, fun m hm => h.fits m (mem_of_mem_left hm),
      wrote_frame h.wrote rfl fun _ _ => rfl,
      fun x m hx => absurd hx (dma_of_moved h.inStep htc)⟩
  · simp only [e] at hholds hinStep ⊢
    refine ⟨hinStep, hholds, fun m hm => h.fits m (mem_of_mem_left hm),
      wrote_frame h.wrote rfl fun _ _ => rfl, ?_⟩
    intro x m hx hsource
    cases hx
    exact carries_start h.holds h.fits hsource

/-- **Step lemma** for the bytes. -/
theorem intact_step {s t : Uart} {e : Event} (h : Intact s) (ht : step s e = some t)
    (hg : Undisturbed s e) (hfits : Fits e) : Intact t := by
  have hinStep := inStep_step h.inStep ht hg
  cases e with
  | copy buf len =>
    obtain ⟨-, hroom, rfl⟩ := copy_eq ht
    have hsame (i : Nat) (hi : i ≠ s.queue.inn.toNat) :
        SameSlot s.queue.mem (copyMsg s.queue buf len).mem i :=
      copyMsg_sameSlot s.queue buf hfits hi
    exact ⟨hinStep, holds_write h.holds hsame, h.fits,
      ⟨hfits, bytes_memcpy s.queue.mem _ buf len.toNat⟩, carries_write h hroom hsame⟩
  | storeLen =>
    obtain ⟨buf, len, hp, rfl⟩ := storeLen_eq ht
    have hroom := h.inStep.room (by rw [hp]; nofun)
    have hwrote := h.wrote
    rw [hp] at hwrote
    have hsame (i : Nat) (hi : i ≠ s.queue.inn.toNat) :
        SameSlot s.queue.mem (storeLen s.queue len).mem i := storeLen_sameSlot s.queue len hi
    exact ⟨hinStep, holds_write h.holds hsame, h.fits,
      ⟨hwrote.1, message_storeLen s.queue hwrote.1 hwrote.2⟩, carries_write h hroom hsame⟩
  | advanceIn =>
    obtain ⟨buf, len, hp, rfl⟩ := advanceIn_eq ht
    have hroom := h.inStep.room (by rw [hp]; nofun)
    have hwrote := h.wrote
    rw [hp] at hwrote
    refine ⟨hinStep, holds_push h.holds hwrote.2 hroom, ?_, trivial,
      fun x m hx hsource => (h.carries x m hx hsource).frame fun _ _ => rfl⟩
    intro m hm
    rcases List.mem_append.mp hm with hm | hm
    · exact h.fits m hm
    · rw [List.mem_singleton.mp hm]
      exact hwrote.1
  | poll => exact intact_poll h ht
  | dmaByte =>
    obtain ⟨x, hx, hlt, rfl⟩ := dmaByte_eq ht
    refine ⟨hinStep, h.holds, h.fits, h.wrote, ?_⟩
    intro y m hy hsource
    cases hy
    exact carries_dmaByte (h.carries x m hx hsource) hlt
  | dmaComplete =>
    obtain ⟨x, hx, -, rfl⟩ := dmaComplete_eq ht
    exact ⟨hinStep, h.holds, h.fits, h.wrote, nofun⟩
  | behind mem =>
    cases ht
    refine ⟨hinStep, holds_behind h.holds mem, h.fits, ?_, ?_⟩
    · exact wrote_frame h.wrote rfl (withBehind_sameSlot _ mem h.holds.placed.innLt)
    · intro x m hx hsource
      have hcarries := h.carries x m hx hsource
      exact hcarries.frame (withBehind_sameSlot _ mem hcarries.slotLt)

/-! ## The DMA undisturbed -/

theorem inStep_start (mem : Mem) : InStep (start mem) where
  placed := ⟨Nat.zero_le _, Nat.zero_le _, rfl⟩
  room h := absurd rfl h
  flag h := nomatch h
  begins x hx _ := by
    cases hx
    exact ⟨rfl, rfl, fun _ _ => nofun⟩
  released x hx hne := by
    cases hx
    exact absurd rfl hne

theorem intact_start (mem : Mem) : Intact (start mem) where
  inStep := inStep_start mem
  holds := ⟨⟨Nat.zero_le _, Nat.zero_le _, rfl⟩, rfl⟩
  fits := nofun
  wrote := trivial
  carries x m hx hsource := by
    cases hx
    cases hsource

theorem onWire_of_intact {s : Uart} (h : Intact s) : OnWire s := by
  intro x m hx hsource
  have hcarries := h.carries x m hx hsource
  refine ⟨hcarries.soFar, ?_⟩
  rw [hcarries.bytes_eq, length_bytes]

/-- **The buffer that the DMA reads**: when it is not written, exactly, for messages of
any length; and when each fits in its slot, what is on the wire. -/
theorem dma_undisturbed_iff (mem : Mem) (es : List Event) :
    (Along step (fun s e _ => NotWritten s e) (start mem) es ↔
      Along step (fun s e _ => Undisturbed s e) (start mem) es) ∧
    (Along step (fun s e _ => Undisturbed s e ∧ Fits e) (start mem) es →
      Along step (fun _ _ t => OnWire t) (start mem) es) := by
  constructor
  · refine along_iff (fun s e t h ht hg => ?_) (fun s e t h ht => ?_) es (inStep_start mem)
    · exact inStep_step h ht hg
    · exact notWritten_iff h ht
  · refine along_imp (fun s e t h ht hg => ?_) (intact_start mem)
    have hintact := intact_step h ht hg.1 hg.2
    exact ⟨hintact, onWire_of_intact hintact⟩

/-- The first message goes to slot 0, which the transfer enabled at the begin still reads. -/
theorem first_message_written :
    ¬ Along step (fun s e _ => NotWritten s e) (start fun _ => 0) [.copy (fun _ => 7) 1] := by
  intro h
  have hnot := (h _ rfl).1 _ rfl 8
  exact hnot ⟨by decide, by decide⟩ (by decide)

end MqttDevice.UartDma
