import MqttDevice.Lib.Chunks
import MqttDevice.Lwip.MqttParse

/-!
# Packets and segments (`mqtt_parse_incoming`)

A server sends packets; TCP delivers their bytes in segments that need not end where a
packet ends. Between two segments the parser keeps `rx_buffer` and `msg_idx` only, and
reads the fixed header from the buffer again.

* `Scan.AtHeader.round`, `Scan.AtBody.round`: what a round of the loop does inside a packet;
* `segment_received`: the parts of packets that a segment completes;
* `segments_received`: however a sequence of packets is cut into segments,
  `mqtt_message_received` is called for each packet once, in order, or for each part of
  it that fills the buffer.
-/

namespace MqttDevice.Lwip

open MqttDevice.Memory MqttDevice.Chunks

/-! ## Packets -/

/-- The number in a remaining-length field: seven bits of each byte, the lowest first. -/
def fieldValue : List (BitVec 8) → Nat
  | [] => 0
  | b :: bs => (b &&& 0x7f).toNat + 128 * fieldValue bs

/-- Every byte but the last one says that another one follows. -/
def LengthField : List (BitVec 8) → Prop
  | [] => False
  | [b] => b &&& 0x80 = 0
  | b :: bs => b &&& 0x80 ≠ 0 ∧ LengthField bs

/-- A packet as it is sent. Its length need not be encoded in as few bytes as possible. -/
structure Packet where
  first : BitVec 8
  field : List (BitVec 8)
  body : List (BitVec 8)
  wellFormed : LengthField field
  short : field.length ≤ 4
  value : fieldValue field = body.length

namespace Packet

variable (p : Packet)

/-- The fixed header. -/
def header : List (BitVec 8) := p.first :: p.field

def bytes : List (BitVec 8) := p.header ++ p.body

/-- What the buffer has room for behind the fixed header. -/
def room : Nat := mqttVarHeaderBufferLen - p.header.length

/-- The parts of the packet from position `start` of its body on for which
`mqtt_message_received` is called. -/
def partsFrom (start : Nat) : List (Piece (BitVec 8)) :=
  if p.body = [] then [⟨0, []⟩] else pieces p.room start (p.body.drop start)

/-- The parts of the packet. -/
def parts : List (Piece (BitVec 8)) := p.partsFrom 0

theorem length_header : p.header.length = p.field.length + 1 := rfl

theorem field_ne_nil : p.field ≠ [] := by
  intro h
  have hwf := p.wellFormed
  rw [h] at hwf
  exact hwf

theorem two_le_header : 2 ≤ p.header.length := by
  have hpos := List.length_pos_iff.mpr p.field_ne_nil
  rw [length_header]
  omega

theorem header_le : p.header.length ≤ 5 := by
  have hshort := p.short
  rw [length_header]
  omega

@[simp] theorem length_bytes : p.bytes.length = p.header.length + p.body.length :=
  List.length_append

end Packet

/-! ### The field byte by byte -/

theorem fieldValue_byte_lt (b : BitVec 8) : (b &&& 0x7f).toNat < 128 := by
  rw [BitVec.toNat_and]
  exact Nat.lt_of_le_of_lt Nat.and_le_right (by decide)

theorem fieldValue_lt (bs : List (BitVec 8)) : fieldValue bs < 128 ^ bs.length := by
  induction bs with
  | nil => decide
  | cons b bs ih =>
    have hb := fieldValue_byte_lt b
    rw [fieldValue, List.length_cons, pow_succ]
    omega

theorem fieldValue_append (bs cs : List (BitVec 8)) :
    fieldValue (bs ++ cs) = fieldValue bs + 128 ^ bs.length * fieldValue cs := by
  induction bs with
  | nil => simp [fieldValue]
  | cons b bs ih =>
    rw [List.cons_append, fieldValue, fieldValue, ih, List.length_cons, pow_succ]
    ring

theorem fieldValue_take_succ {bs : List (BitVec 8)} {i : Nat} (hi : i < bs.length) :
    fieldValue (bs.take (i + 1)) = fieldValue (bs.take i) + 128 ^ i * (bs[i] &&& 0x7f).toNat := by
  rw [List.take_succ_eq_append_getElem hi, fieldValue_append, List.length_take,
    Nat.min_eq_left hi.le]
  rfl

theorem Packet.body_lt (p : Packet) : p.body.length < 2 ^ 28 := by
  have hlt := fieldValue_lt p.field
  have hle : 128 ^ p.field.length ≤ 128 ^ 4 := Nat.pow_le_pow_right (by decide) p.short
  rw [p.value] at hlt
  omega

/-- The top bit of each byte but the last one is set. -/
theorem lengthField_getElem {bs : List (BitVec 8)} (h : LengthField bs) {i : Nat}
    (hi : i < bs.length) : bs[i] &&& 0x80 = 0 ↔ i + 1 = bs.length := by
  induction bs generalizing i with
  | nil => cases h
  | cons b bs ih =>
    match bs, i with
    | [], 0 => simpa [LengthField] using h
    | c :: bs, 0 => simpa [LengthField] using h.1
    | c :: bs, i + 1 =>
      have hrest : LengthField (c :: bs) := h.2
      simpa using ih hrest (Nat.lt_of_succ_lt_succ hi)

/-! ## What the buffer holds -/

/-- The bytes in the buffer behind the fixed header when `n` bytes of the packet have come. -/
def Packet.filled (p : Packet) (n : Nat) : Nat := (n - p.header.length) % p.room

/-- The position in the body of the first one of them. -/
def Packet.pieceStart (p : Packet) (n : Nat) : Nat := n - p.header.length - p.filled n

/-- The buffer of a client of which `n` bytes of the packet have come, when the last part
that was full has been taken. -/
structure Packet.Holds (p : Packet) (n : Nat) (rx : RxState) : Prop where
  msgIdx : rx.msgIdx.toNat = n
  header : ∀ i < p.header.length, i < n → rx.rxBuffer i = p.header.getD i 0
  part : ∀ j < p.filled n,
    rx.rxBuffer (p.header.length + j) = p.body.getD (p.pieceStart n + j) 0

/-- What a call of `mqtt_message_received` finds of a part of the packet. -/
structure Received.Shows (k : Received) (p : Packet) (q : Piece (BitVec 8)) : Prop where
  fixedHdrIdx : k.fixedHdrIdx.toNat = p.header.length
  length : k.length = q.data.length
  header : Memory.bytes k.rx.rxBuffer 0 p.header.length = p.header
  data : Memory.bytes k.rx.rxBuffer p.header.length q.data.length = q.data
  msgIdx : k.rx.msgIdx.toNat = p.header.length + q.stop
  remaining : k.remainingLength.toNat = p.body.length - q.stop

theorem Packet.filled_eq_zero (p : Packet) {n : Nat} (h : n ≤ p.header.length) :
    p.filled n = 0 := by
  rw [filled, Nat.sub_eq_zero_of_le h, Nat.zero_mod]

theorem Packet.pieceStart_eq_zero (p : Packet) {n : Nat} (h : n ≤ p.header.length) :
    p.pieceStart n = 0 := by
  rw [pieceStart, Nat.sub_eq_zero_of_le h, Nat.zero_sub]

theorem Packet.room_pos (p : Packet) : 0 < p.room := by
  have hle := p.header_le
  rw [room, mqttVarHeaderBufferLen]
  omega

theorem Packet.filled_lt (p : Packet) (n : Nat) : p.filled n < p.room := Nat.mod_lt _ p.room_pos

theorem Packet.pieceStart_add_filled (p : Packet) (n : Nat) :
    p.pieceStart n + p.filled n = n - p.header.length :=
  Nat.sub_add_cancel (Nat.mod_le _ _)

theorem Packet.filled_add (p : Packet) {n c : Nat} (hle : p.header.length ≤ n) :
    p.filled (n + c) = (p.filled n + c) % p.room := by
  rw [filled, Nat.sub_add_comm hle, ← Nat.mod_add_mod, ← filled]

/-- More bytes of the part. -/
theorem Packet.same_piece (p : Packet) {n c : Nat} (hle : p.header.length ≤ n)
    (hc : p.filled n + c < p.room) :
    p.filled (n + c) = p.filled n + c ∧ p.pieceStart (n + c) = p.pieceStart n := by
  have hfilled : p.filled (n + c) = p.filled n + c := by
    rw [p.filled_add hle, Nat.mod_eq_of_lt hc]
  have hstart := p.pieceStart_add_filled n
  have hstart' := p.pieceStart_add_filled (n + c)
  omega

/-- The rest of the bytes of the part. -/
theorem Packet.next_piece (p : Packet) {n c : Nat} (hle : p.header.length ≤ n)
    (hc : p.filled n + c = p.room) :
    p.filled (n + c) = 0 ∧ p.pieceStart (n + c) = p.pieceStart n + p.room := by
  have hfilled : p.filled (n + c) = 0 := by
    rw [p.filled_add hle, hc, Nat.mod_self]
  have hstart := p.pieceStart_add_filled n
  have hstart' := p.pieceStart_add_filled (n + c)
  omega

/-! ## Rounds -/

/-- The loop is at byte `i` of the fixed header, and `n` bytes of the packet have come. -/
structure Scan.AtHeader (p : Packet) (n i : Nat) (s : Scan) : Prop where
  fixedHdrIdx : s.fixedHdrIdx.toNat = i
  lt : i < p.header.length
  le : i ≤ n
  short : n < p.bytes.length
  holds : p.Holds n s.rx
  msgRemLen : s.msgRemLen.toNat = fieldValue (p.field.take (i - 1))
  b : 2 ≤ i → s.b = p.header.getD (i - 1) 0

/-- The loop is behind the fixed header, and `n` bytes of the packet have come. -/
structure Scan.AtBody (p : Packet) (n : Nat) (s : Scan) : Prop where
  fixedHdrIdx : s.fixedHdrIdx.toNat = p.header.length
  b : s.b &&& 0x80 = 0
  le : p.header.length ≤ n
  lt : n < p.bytes.length
  holds : p.Holds n s.rx
  msgRemLen : s.msgRemLen.toNat = p.bytes.length - n

/-- A packet has been received in full. -/
structure Scan.Fresh (s : Scan) : Prop where
  fixedHdrIdx : s.fixedHdrIdx = 0
  msgRemLen : s.msgRemLen = 0
  msgIdx : s.rx.msgIdx = 0

/-- What is left of the segment and of the segments behind it is what is left of the packet
and of the packets behind it. -/
def Scan.Follows (s : Scan) (later : List (BitVec 8)) (p : Packet) (n : Nat)
    (more : List (BitVec 8)) : Prop :=
  s.rest ++ later = p.bytes.drop n ++ more

theorem Packet.getD_field (p : Packet) {i : Nat} (hi : i < p.field.length) :
    p.header.getD (i + 1) 0 = p.field[i] := by
  simp [header, hi]

/-- The bytes of the header but the last one say that it goes on. -/
theorem Packet.continues_iff (p : Packet) {i : Nat} (h1 : 1 ≤ i) (hi : i < p.header.length) :
    p.header.getD i 0 &&& 0x80 = 0 ↔ i + 1 = p.header.length := by
  obtain ⟨j, rfl⟩ := Nat.exists_eq_add_of_le' h1
  have hj : j < p.field.length := by
    rw [p.length_header] at hi
    omega
  rw [p.getD_field hj, lengthField_getElem p.wellFormed hj, p.length_header]
  omega

theorem Scan.AtHeader.inHeader {p : Packet} {n i : Nat} {s : Scan} (h : s.AtHeader p n i) :
    s.inHeader := by
  have hlt := h.lt
  by_cases h2 : i < 2
  · exact .inl (h.fixedHdrIdx ▸ h2)
  · right
    rw [h.b (by omega), ne_eq, p.continues_iff (by omega) (by omega)]
    omega

theorem Scan.AtBody.not_inHeader {p : Packet} {n : Nat} {s : Scan} (h : s.AtBody p n) :
    ¬ s.inHeader := by
  rintro (hlt | hb)
  · have h2 := p.two_le_header
    rw [h.fixedHdrIdx] at hlt
    omega
  · exact hb h.b

/-- A byte of the header is stored behind those that have come. -/
theorem Packet.Holds.headerByte {p : Packet} {n : Nat} {rx : RxState} (h : p.Holds n rx)
    (hn : n < p.header.length) :
    p.Holds (n + 1)
      ⟨Function.update rx.rxBuffer rx.msgIdx.toNat (p.header.getD n 0), rx.msgIdx + 1⟩ := by
  have hidx := h.msgIdx
  have hle := p.header_le
  refine ⟨?_, fun i _ hi => ?_, fun j hj => ?_⟩
  · rw [BitVec.toNat_add, hidx, show (1 : BitVec 32).toNat = 1 from rfl]
    omega
  · dsimp only
    rw [hidx]
    by_cases heq : i = n
    · rw [heq, Function.update_self]
    · rw [Function.update_of_ne heq]
      exact h.header i (by omega) (by omega)
  · rw [p.filled_eq_zero (by omega)] at hj
    omega

theorem Packet.Holds.bytes_header {p : Packet} {n : Nat} {rx : RxState} (h : p.Holds n rx)
    (hn : p.header.length ≤ n) : Memory.bytes rx.rxBuffer 0 p.header.length = p.header := by
  apply bytes_eq_of_getD
  intro i hi
  rw [Nat.zero_add]
  exact h.header i hi (by omega)

/-- **The byte of the header** comes from the buffer or from the segment. -/
theorem Scan.AtHeader.headerByte {p : Packet} {n i : Nat} {s : Scan} (h : s.AtHeader p n i)
    (hrest : s.rest ≠ []) {later more : List (BitVec 8)} (hfollows : s.Follows later p n more) :
    s.headerByte.fixedHdrIdx.toNat = i + 1 ∧ s.headerByte.b = p.header.getD i 0 ∧
      p.Holds (max n (i + 1)) s.headerByte.rx ∧
      s.headerByte.Follows later p (max n (i + 1)) more ∧
      s.headerByte.msgRemLen = s.msgRemLen := by
  have hidx := h.fixedHdrIdx
  have hmsg := h.holds.msgIdx
  have hlt := h.lt
  have hle := h.le
  have hhdr := p.header_le
  have hnext : (s.fixedHdrIdx + 1).toNat = i + 1 := by
    rw [BitVec.toNat_add, hidx, show (1 : BitVec 8).toNat = 1 from rfl]
    omega
  by_cases hold : i < n
  · have hcond : s.fixedHdrIdx.toNat < s.rx.msgIdx.toNat := by omega
    have heq : s.headerByte = { s with
        b := s.rx.rxBuffer s.fixedHdrIdx.toNat, fixedHdrIdx := s.fixedHdrIdx + 1 } := if_pos hcond
    rw [heq, Nat.max_eq_left hold, hidx]
    exact ⟨hnext, h.holds.header i hlt hold, h.holds, hfollows, rfl⟩
  · obtain rfl : i = n := by omega
    have hcond : ¬ s.fixedHdrIdx.toNat < s.rx.msgIdx.toNat := by omega
    have hlen : i < p.bytes.length := by
      rw [p.length_bytes]
      omega
    have hget : p.bytes[i] = p.header.getD i 0 := by
      simp [Packet.bytes, hlt]
    unfold Scan.Follows at hfollows
    rw [List.drop_eq_getElem_cons hlen, hget] at hfollows
    obtain ⟨b, bs, hbs⟩ := List.exists_cons_of_ne_nil hrest
    rw [hbs] at hfollows
    obtain ⟨rfl, htail⟩ := List.cons.inj hfollows
    have heq : s.headerByte = { s with
        rx := ⟨Function.update s.rx.rxBuffer s.rx.msgIdx.toNat (s.rest.headD 0), s.rx.msgIdx + 1⟩
        rest := s.rest.tail, b := s.rest.headD 0, fixedHdrIdx := s.fixedHdrIdx + 1 } :=
      if_neg hcond
    rw [heq, Nat.max_eq_right (Nat.le_succ i), hbs]
    exact ⟨hnext, rfl, h.holds.headerByte hlt, htail, rfl⟩

/-- The parts of the packet that are still to be received when `n` bytes have come. -/
def Packet.todo (p : Packet) (n : Nat) : List (Piece (BitVec 8)) := p.partsFrom (p.pieceStart n)

/-- The loop is inside the packet of which `n` bytes have come, and reads `ahead` bytes of them
again. -/
inductive Scan.Inside (p : Packet) (n : Nat) : Nat → Scan → Prop
  | header {i : Nat} {s : Scan} (h : s.AtHeader p n i) : Inside p n (min n p.header.length - i) s
  | body {s : Scan} (h : s.AtBody p n) : Inside p n 0 s

theorem Scan.Follows.length {s : Scan} {later more : List (BitVec 8)} {p : Packet} {n : Nat}
    (h : s.Follows later p n more) :
    s.rest.length + later.length = p.bytes.length - n + more.length := by
  have hlen := congrArg List.length h
  simpa only [List.length_append, List.length_drop] using hlen

/-- A byte of the header does not change what is still to be received. -/
theorem Packet.todo_max (p : Packet) {n i : Nat} (hle : i ≤ n) (hlt : i < p.header.length) :
    p.todo (max n (i + 1)) = p.todo n := by
  by_cases hold : i < n
  · rw [Nat.max_eq_left hold]
  · rw [Nat.max_eq_right (by omega), todo, todo, p.pieceStart_eq_zero (by omega),
      p.pieceStart_eq_zero (by omega)]

section Rounds

variable (shiftOut : BitVec 32 → Nat → BitVec 32) (found : Nat → Bool)

/-- The next seven bits of the remaining length. -/
theorem or_shiftLeft_toNat {x : BitVec 32} {k : Nat} (hk : k ≤ 3) (hx : x.toNat < 128 ^ k)
    (b : BitVec 8) :
    (x ||| Scan.shiftLeft shiftOut ((b &&& 0x7f).setWidth 32) (k * 7)).toNat =
      x.toNat + 128 ^ k * (b &&& 0x7f).toNat := by
  have hb : (b &&& 0x7f).toNat < 128 := fieldValue_byte_lt b
  have hpow : 128 ^ k = 2 ^ (k * 7) := by
    rw [Nat.mul_comm k 7, pow_mul]
    norm_num
  have hpos : 128 ^ k ≤ 128 ^ 3 := Nat.pow_le_pow_right (by decide) hk
  have hmul : 128 ^ k * (b &&& 0x7f).toNat ≤ 128 ^ 3 * 127 :=
    Nat.mul_le_mul hpos (by omega)
  have hsmall : (b &&& 0x7f).toNat <<< (k * 7) < 2 ^ 32 := by
    rw [Nat.shiftLeft_eq, ← hpow, Nat.mul_comm]
    omega
  have hfield : (b &&& 0x7f).toNat % 2 ^ 32 = (b &&& 0x7f).toNat := Nat.mod_eq_of_lt (by omega)
  rw [Scan.shiftLeft, if_pos (by omega), BitVec.toNat_or, BitVec.toNat_shiftLeft,
    BitVec.toNat_setWidth, hfield, Nat.mod_eq_of_lt hsmall, Nat.or_comm,
    ← Nat.shiftLeft_add_eq_or_of_lt (hpow ▸ hx), Nat.shiftLeft_eq, ← hpow, Nat.mul_comm,
    Nat.add_comm]

/-- **The remaining length** after byte `j + 1` of the fixed header. -/
theorem Packet.field_read {p : Packet} {t : Scan} {j : Nat} (hj : j < p.field.length)
    (hrem : t.msgRemLen.toNat = fieldValue (p.field.take j)) (hb : t.b = p.field[j])
    (hidx : t.fixedHdrIdx.toNat = j + 2) :
    (t.msgRemLen ||| Scan.shiftLeft shiftOut ((t.b &&& 0x7f).setWidth 32)
      ((t.fixedHdrIdx.toNat - 2) * 7)).toNat = fieldValue (p.field.take (j + 1)) := by
  have hshort := p.short
  have hlt : t.msgRemLen.toNat < 128 ^ j := by
    rw [hrem]
    have hval := fieldValue_lt (p.field.take j)
    rwa [List.length_take, Nat.min_eq_left hj.le] at hval
  rw [hidx, Nat.add_sub_cancel, or_shiftLeft_toNat shiftOut (by omega) hlt, hrem, hb,
    fieldValue_take_succ hj]

/-- A round inside a packet: the loop goes on, or a part of the packet is received, with which
the packet ends or does not. -/
inductive Scan.Progress (p : Packet) (n ahead : Nat) (later more : List (BitVec 8)) (s : Scan) :
    Option Received × Scan → Prop
  | on {t : Scan} {n' ahead' : Nat} (inside : t.Inside p n' ahead')
      (follows : t.Follows later p n' more) (todo : p.todo n' = p.todo n)
      (less : t.rest.length + ahead' < s.rest.length + ahead) :
      Progress p n ahead later more s (none, t)
  | part {k : Received} {t : Scan} {q : Piece (BitVec 8)} {n' : Nat} (shows : k.Shows p q)
      (inside : t.Inside p n' 0) (follows : t.Follows later p n' more)
      (todo : p.todo n = q :: p.todo n') (less : t.rest.length < s.rest.length + ahead) :
      Progress p n ahead later more s (some k, t)
  | last {k : Received} {t : Scan} {q : Piece (BitVec 8)} (shows : k.Shows p q) (fresh : t.Fresh)
      (follows : t.rest ++ later = more) (todo : p.todo n = [q])
      (less : t.rest.length < s.rest.length + ahead) :
      Progress p n ahead later more s (some k, t)

/-- **A round at the fixed header.** -/
theorem Scan.AtHeader.round {p : Packet} {n i : Nat} {s : Scan} (h : s.AtHeader p n i)
    (hrest : s.rest ≠ []) {later more : List (BitVec 8)} (hfollows : s.Follows later p n more) :
    Progress p n (min n p.header.length - i) later more s (s.round shiftOut found) := by
  obtain ⟨hidx, hb, hholds, hnext, hrem⟩ := h.headerByte hrest hfollows
  have hlt := h.lt
  have hle := h.le
  have hshort := h.short
  have hlen := hfollows.length
  have hlen' := hnext.length
  have hbytes := p.length_bytes
  have htwo := p.two_le_header
  have htodo : p.todo (max n (i + 1)) = p.todo n := p.todo_max hle hlt
  have hround : s.round shiftOut found =
      if 2 ≤ s.headerByte.fixedHdrIdx.toNat then s.headerByte.remainingLength shiftOut found
      else (none, s.headerByte) := if_pos h.inHeader
  rw [hround]
  match i with
  | 0 =>
    rw [if_neg (by omega)]
    refine .on (.header ⟨hidx, by omega, by omega, by omega, hholds, ?_, by omega⟩) hnext htodo
      (by omega)
    rw [hrem, h.msgRemLen]
  | j + 1 =>
    have hj : j < p.field.length := by
      rw [p.length_header] at hlt
      omega
    rw [p.getD_field hj] at hb
    have hval := p.field_read shiftOut hj (hrem ▸ h.msgRemLen) hb hidx
    rw [if_pos (by omega), remainingLength]
    dsimp only
    generalize hword : s.headerByte.msgRemLen ||| Scan.shiftLeft shiftOut
      ((s.headerByte.b &&& 0x7f).setWidth 32) ((s.headerByte.fixedHdrIdx.toNat - 2) * 7) = word
      at hval ⊢
    have hend := p.continues_iff (by omega) hlt
    rw [p.getD_field hj, ← hb] at hend
    by_cases hdone : j + 1 + 1 = p.header.length
    · rw [if_pos (hend.mpr hdone)]
      have hall : fieldValue (p.field.take (j + 1)) = p.body.length := by
        rw [p.length_header] at hdone
        rw [List.take_of_length_le (by omega), p.value]
      rw [hall] at hval
      by_cases hempty : p.body = []
      · have hnil : p.body.length = 0 := List.length_eq_zero_iff.mpr hempty
        have hmax : max n (j + 1 + 1) = p.header.length := by omega
        rw [hmax] at hholds hnext
        have hword : word = 0 := BitVec.eq_of_toNat_eq (hval.trans hnil)
        rw [if_pos hword]
        refine .last (q := ⟨0, []⟩) ⟨hidx.trans hdone, rfl, hholds.bytes_header le_rfl, rfl, hholds.msgIdx, ?_⟩
          ⟨rfl, hword, rfl⟩ ?_ ?_ ?_
        · rw [hnil]
          rfl
        · unfold Scan.Follows at hnext
          rwa [List.drop_of_length_le (by omega)] at hnext
        · rw [Packet.todo, Packet.partsFrom, if_pos hempty]
        · change s.headerByte.rest.length < _
          omega
      · have hpos := List.length_pos_iff.mpr hempty
        have hword : word ≠ 0 := fun h0 => by
          rw [h0, show (0 : BitVec 32).toNat = 0 from rfl] at hval
          omega
        rw [if_neg hword]
        refine .on (.body ⟨hidx.trans hdone, hend.mpr hdone, by omega, by omega, hholds, ?_⟩) hnext
          htodo ?_
        · have hsmall := p.body_lt
          have hmsg := hholds.msgIdx
          dsimp only
          rw [BitVec.toNat_sub, BitVec.toNat_add, BitVec.toNat_setWidth, hval, hmsg, hidx]
          omega
        · change s.headerByte.rest.length + 0 < _
          omega
    · rw [if_neg (mt hend.mp hdone)]
      refine .on (.header ⟨hidx, by omega, by omega, by omega, hholds, hval, fun _ => ?_⟩) hnext
        htodo ?_
      · rw [hb, Nat.add_sub_cancel, p.getD_field hj]
      · dsimp only
        omega

end Rounds

/-- The first part, and the others. -/
theorem Packet.parts_eq (p : Packet) :
    p.parts = ⟨0, p.body.take p.room⟩ :: pieces p.room p.room (p.body.drop p.room) := by
  by_cases hbody : p.body = []
  · rw [parts, partsFrom, if_pos hbody, hbody, List.take_nil, List.drop_nil, pieces_nil]
  · rw [parts, partsFrom, if_neg hbody, List.drop_zero, pieces_cons p.room_pos 0 hbody,
      Nat.zero_add]

/-! ### Behind the header -/

/-- The part of the packet for which the next call is made. -/
def Packet.piece (p : Packet) (n : Nat) : Piece (BitVec 8) :=
  ⟨p.pieceStart n, (p.body.drop (p.pieceStart n)).take p.room⟩

theorem Packet.todo_cons (p : Packet) {n : Nat} (hle : p.header.length ≤ n)
    (hlt : n < p.bytes.length) :
    p.todo n = p.piece n ::
      pieces p.room (p.pieceStart n + p.room) (p.body.drop (p.pieceStart n + p.room)) := by
  have hstart := p.pieceStart_add_filled n
  have hbytes := p.length_bytes
  have hbody : p.body ≠ [] := List.length_pos_iff.mp (by omega)
  have hdrop : p.body.drop (p.pieceStart n) ≠ [] := by
    rw [ne_eq, List.drop_eq_nil_iff]
    omega
  rw [todo, partsFrom, if_neg hbody, pieces_cons p.room_pos _ hdrop, List.drop_drop]
  rfl

/-- What the segment has of the body. -/
theorem Scan.Follows.getD {s : Scan} {later more : List (BitVec 8)} {p : Packet} {n i : Nat}
    (h : s.Follows later p n more) (hle : p.header.length ≤ n) (hi : i < s.rest.length)
    (hlt : n + i < p.bytes.length) : s.rest.getD i 0 = p.body.getD (n - p.header.length + i) 0 := by
  have hbytes := p.length_bytes
  have hget := congrArg (fun l : List (BitVec 8) => l[i]?) h
  simp only [List.getElem?_append_left hi] at hget
  rw [List.getElem?_append_left (by rw [List.length_drop]; omega), List.getElem?_drop,
    Packet.bytes, List.getElem?_append_right (by omega)] at hget
  rw [List.getD_eq_getElem?_getD, List.getD_eq_getElem?_getD, hget, Nat.sub_add_comm hle]

theorem Scan.Follows.drop {s : Scan} {later more : List (BitVec 8)} {p : Packet} {n c : Nat}
    (h : s.Follows later p n more) (hc : c ≤ s.rest.length) (hlt : n + c ≤ p.bytes.length) :
    s.rest.drop c ++ later = p.bytes.drop (n + c) ++ more := by
  have hdrop := congrArg (List.drop c) h
  rwa [List.drop_append_of_le_length hc,
    List.drop_append_of_le_length (by rw [List.length_drop]; omega), List.drop_drop] at hdrop

theorem Scan.copyPartial_rxBuffer (s : Scan) :
    s.copyPartial.rx.rxBuffer =
      memcpy s.rx.rxBuffer s.cpyStart (fun i => s.rest.getD i 0) s.cpyLen := rfl

namespace Scan.AtBody

variable {p : Packet} {n : Nat} {s : Scan}

theorem cpyStart_eq (h : s.AtBody p n) : s.cpyStart = p.header.length + p.filled n := by
  have hidx := h.fixedHdrIdx
  have hmsg := h.holds.msgIdx
  have hle := h.le
  have hlt := h.lt
  have hbytes := p.length_bytes
  have hsmall := p.body_lt
  have hhdr := p.header_le
  have hbehind : (s.rx.msgIdx - s.fixedHdrIdx.setWidth 32).toNat = n - p.header.length := by
    rw [BitVec.toNat_sub, BitVec.toNat_setWidth, hmsg, hidx]
    omega
  rw [cpyStart, hbehind, hidx, Nat.add_comm]
  rfl

theorem bufferSpace_eq (h : s.AtBody p n) : s.bufferSpace = p.room - p.filled n := by
  rw [bufferSpace, h.cpyStart_eq, Packet.room]
  omega

theorem cpyLen_eq (h : s.AtBody p n) :
    s.cpyLen = min (min s.rest.length (p.bytes.length - n)) (p.room - p.filled n) := by
  rw [cpyLen, h.msgRemLen, h.bufferSpace_eq]

theorem bounds (h : s.AtBody p n) :
    s.cpyLen ≤ s.rest.length ∧ n + s.cpyLen ≤ p.bytes.length ∧ p.filled n + s.cpyLen ≤ p.room := by
  have hlt := h.lt
  have hfilled := p.filled_lt n
  rw [h.cpyLen_eq]
  omega

theorem copied_msgIdx (h : s.AtBody p n) : s.copyPartial.rx.msgIdx.toNat = n + s.cpyLen := by
  obtain ⟨-, hle, -⟩ := h.bounds
  have hmsg := h.holds.msgIdx
  have hbytes := p.length_bytes
  have hsmall := p.body_lt
  have hhdr := p.header_le
  rw [copyPartial, BitVec.toNat_add, BitVec.toNat_ofNat, hmsg]
  omega

theorem copied_msgRemLen (h : s.AtBody p n) :
    s.copyPartial.msgRemLen.toNat = p.bytes.length - (n + s.cpyLen) := by
  obtain ⟨-, hle, -⟩ := h.bounds
  have hrem := h.msgRemLen
  have hbytes := p.length_bytes
  have hsmall := p.body_lt
  have hhdr := p.header_le
  rw [copyPartial, BitVec.toNat_sub, BitVec.toNat_ofNat, hrem]
  omega

theorem copied_header (h : s.AtBody p n) {i : Nat} (hi : i < p.header.length) :
    s.copyPartial.rx.rxBuffer i = p.header.getD i 0 := by
  have hstart := h.cpyStart_eq
  have hle := h.le
  rw [copyPartial_rxBuffer, memcpy_outside _ _ (.inl (by omega)), h.holds.header i hi (by omega)]

theorem copied_part (h : s.AtBody p n) {later more : List (BitVec 8)}
    (hfollows : s.Follows later p n more) {j : Nat} (hj : j < p.filled n + s.cpyLen) :
    s.copyPartial.rx.rxBuffer (p.header.length + j) = p.body.getD (p.pieceStart n + j) 0 := by
  obtain ⟨hrest, hlen, -⟩ := h.bounds
  have hstart := h.cpyStart_eq
  have hpiece := p.pieceStart_add_filled n
  rw [copyPartial_rxBuffer]
  by_cases hold : j < p.filled n
  · rw [memcpy_outside _ _ (.inl (by omega)), h.holds.part j hold]
  · obtain ⟨k, rfl⟩ := Nat.exists_eq_add_of_le (Nat.not_lt.mp hold)
    rw [← Nat.add_assoc, ← hstart, memcpy_inside _ _ _ (by omega),
      hfollows.getD h.le (by omega) (by omega), ← hpiece, Nat.add_assoc]

/-- The copy fills the part, or has the rest of the packet. -/
theorem piece_length (h : s.AtBody p n)
    (hend : p.filled n + s.cpyLen = p.room ∨ n + s.cpyLen = p.bytes.length) :
    (p.piece n).data.length = p.filled n + s.cpyLen := by
  obtain ⟨-, hlen, hroom⟩ := h.bounds
  have hle := h.le
  have hpiece := p.pieceStart_add_filled n
  have hbytes := p.length_bytes
  rw [Packet.piece, List.length_take, List.length_drop]
  omega

/-- **What the call for the part finds.** -/
theorem shows (h : s.AtBody p n) {later more : List (BitVec 8)}
    (hfollows : s.Follows later p n more)
    (hend : p.filled n + s.cpyLen = p.room ∨ n + s.cpyLen = p.bytes.length) (found : Bool) :
    (⟨s.copyPartial.rx, s.copyPartial.fixedHdrIdx, s.cpyStart + s.cpyLen - s.fixedHdrIdx.toNat,
      s.copyPartial.msgRemLen, found, true⟩ : Received).Shows p (p.piece n) := by
  have hle := h.le
  have hpiece := p.pieceStart_add_filled n
  have hlength := h.piece_length hend
  have hstart := h.cpyStart_eq
  have hidx := h.fixedHdrIdx
  have hbytes := p.length_bytes
  have hstop : p.header.length + (p.piece n).stop = n + s.cpyLen := by
    rw [Piece.stop, hlength]
    dsimp only [Packet.piece]
    omega
  refine ⟨hidx, ?_, ?_, ?_, ?_, ?_⟩
  · dsimp only
    omega
  · apply bytes_eq_of_getD
    intro i hi
    rw [Nat.zero_add]
    exact h.copied_header hi
  · apply bytes_eq_of_getD
    intro j hj
    have hroom : j < p.room := by
      have hle := h.bounds.2.2
      omega
    rw [h.copied_part hfollows (by omega), Packet.piece, List.getD_eq_getElem?_getD,
      List.getD_eq_getElem?_getD, List.getElem?_take_of_lt hroom, List.getElem?_drop]
  · rw [hstop]
    exact h.copied_msgIdx
  · refine h.copied_msgRemLen.trans ?_
    omega

/-- **A round behind the fixed header.** -/
theorem round (h : s.AtBody p n) (shiftOut : BitVec 32 → Nat → BitVec 32) (found : Nat → Bool)
    (hrest : s.rest ≠ []) {later more : List (BitVec 8)} (hfollows : s.Follows later p n more) :
    Progress p n 0 later more s (s.round shiftOut found) := by
  obtain ⟨hcpy, hlen, hroom⟩ := h.bounds
  have hle := h.le
  have hlt := h.lt
  have hspace := h.bufferSpace_eq
  have hrem := h.copied_msgRemLen
  have hfilled := p.filled_lt n
  have hpiece := p.pieceStart_add_filled n
  have hbytes := p.length_bytes
  have hpos : 0 < s.cpyLen := by
    have hrestpos := List.length_pos_iff.mpr hrest
    rw [h.cpyLen_eq]
    omega
  have hnext := hfollows.drop hcpy hlen
  have hless : (s.rest.drop s.cpyLen).length < s.rest.length := by
    rw [List.length_drop]
    omega
  have htodo := p.todo_cons hle hlt
  rw [Scan.round, if_neg h.not_inHeader, bodyRound]
  dsimp only
  by_cases hdone : n + s.cpyLen = p.bytes.length
  · have hzero : s.copyPartial.msgRemLen = 0 := BitVec.eq_of_toNat_eq (by
      rw [hrem, hdone, Nat.sub_self]
      rfl)
    have hbehind : p.body.drop (p.pieceStart n + p.room) = [] := by
      rw [List.drop_eq_nil_iff]
      omega
    rw [if_pos (.inl hzero), if_pos hzero]
    refine .last (h.shows hfollows (.inr hdone) _) ⟨rfl, hzero, rfl⟩ ?_ ?_ hless
    · rwa [hdone, List.drop_length, List.nil_append] at hnext
    · rw [htodo, hbehind, pieces_nil]
  · have hnonzero : s.copyPartial.msgRemLen ≠ 0 := fun h0 => by
      rw [h0, show (0 : BitVec 32).toNat = 0 from rfl] at hrem
      omega
    by_cases hfull : p.filled n + s.cpyLen = p.room
    · obtain ⟨hfilled', hstart'⟩ := p.next_piece hle hfull
      rw [if_pos (.inr (by omega)), if_neg hnonzero]
      refine .part (h.shows hfollows (.inl hfull) _) (.body ⟨h.fixedHdrIdx, h.b, ?_, ?_, ?_, hrem⟩)
        hnext ?_ hless
      · omega
      · omega
      · exact ⟨h.copied_msgIdx, fun i hi _ => h.copied_header hi, fun j hj => by omega⟩
      · have hbody : p.body ≠ [] := List.length_pos_iff.mp (by omega)
        rw [htodo, Packet.todo, Packet.partsFrom, if_neg hbody, hstart']
    · have hopen : p.filled n + s.cpyLen < p.room := by omega
      obtain ⟨hfilled', hstart'⟩ := p.same_piece hle hopen
      have hon : ¬ (s.copyPartial.msgRemLen = 0 ∨ s.cpyLen = s.bufferSpace) := by
        rintro (h0 | hlast)
        · exact hnonzero h0
        · omega
      rw [if_neg hon]
      refine .on (.body ⟨h.fixedHdrIdx, h.b, ?_, ?_, ?_, hrem⟩) hnext ?_ hless
      · omega
      · omega
      · refine ⟨h.copied_msgIdx, fun i hi _ => h.copied_header hi, fun j hj => ?_⟩
        rw [hstart']
        exact h.copied_part hfollows (by omega)
      · rw [Packet.todo, Packet.todo, hstart']

end Scan.AtBody

/-! ## Segments -/

/-- The bytes of packets. -/
def bytesOf (ps : List Packet) : List (BitVec 8) := ps.flatMap Packet.bytes

/-- The parts of packets. -/
def partsOf (ps : List Packet) : List (Packet × Piece (BitVec 8)) :=
  ps.flatMap fun p => p.parts.map fun q => (p, q)

theorem partsOf_cons (p : Packet) (ps : List Packet) :
    partsOf (p :: ps) = ((p.todo 0).map fun q => (p, q)) ++ partsOf ps := by
  rw [Packet.todo, p.pieceStart_eq_zero (Nat.zero_le _)]
  rfl

/-- A call for a part of a packet. -/
def Received.ShowsPart (k : Received) (x : Packet × Piece (BitVec 8)) : Prop := k.Shows x.1 x.2

/-- Between two rounds: the parts that are still to be received of the packets whose rest is
in the segment and in `later`. -/
inductive Scan.Expects (later : List (BitVec 8)) :
    List (Packet × Piece (BitVec 8)) → Nat → Scan → Prop
  | fresh {s : Scan} {ps : List Packet} (fresh : s.Fresh) (follows : s.rest ++ later = bytesOf ps) :
      Expects later (partsOf ps) 0 s
  | inside {s : Scan} {p : Packet} {n ahead : Nat} {ps : List Packet} (inside : s.Inside p n ahead)
      (follows : s.Follows later p n (bytesOf ps)) :
      Expects later (((p.todo n).map fun q => (p, q)) ++ partsOf ps) ahead s

/-- Between two segments: the parts that are still to be received of the packets whose rest
is `later`. -/
inductive RxState.Awaits (later : List (BitVec 8)) :
    List (Packet × Piece (BitVec 8)) → RxState → Prop
  | fresh {rx : RxState} {ps : List Packet} (msgIdx : rx.msgIdx = 0) (follows : later = bytesOf ps) :
      Awaits later (partsOf ps) rx
  | inside {rx : RxState} {p : Packet} {n : Nat} {ps : List Packet} (holds : p.Holds n rx)
      (short : n < p.bytes.length) (follows : later = p.bytes.drop n ++ bytesOf ps) :
      Awaits later (((p.todo n).map fun q => (p, q)) ++ partsOf ps) rx

theorem Packet.holds_zero (p : Packet) {rx : RxState} (h : rx.msgIdx = 0) : p.Holds 0 rx := by
  refine ⟨by rw [h]; rfl, fun i _ hi => absurd hi (Nat.not_lt_zero i), fun j hj => ?_⟩
  rw [p.filled_eq_zero (Nat.zero_le _)] at hj
  exact absurd hj (Nat.not_lt_zero j)

theorem Packet.bytes_pos (p : Packet) : 0 < p.bytes.length := by
  have htwo := p.two_le_header
  rw [p.length_bytes]
  omega

/-- The loop begins at the first byte of the header. -/
theorem Packet.Holds.inside {p : Packet} {n : Nat} {s : Scan} (h : p.Holds n s.rx)
    (hlt : n < p.bytes.length) (hidx : s.fixedHdrIdx = 0) (hrem : s.msgRemLen = 0) :
    s.Inside p n (min n p.header.length) := by
  have htwo := p.two_le_header
  exact .header (i := 0) ⟨by rw [hidx]; rfl, by omega, Nat.zero_le n, hlt, h, by rw [hrem]; rfl,
    fun hi => absurd hi (by decide)⟩

theorem Scan.Inside.short {s : Scan} {p : Packet} {n ahead : Nat} (h : s.Inside p n ahead) :
    n < p.bytes.length := by
  cases h with
  | header h => exact h.short
  | body h => exact h.lt

theorem Scan.Inside.holds {s : Scan} {p : Packet} {n ahead : Nat} (h : s.Inside p n ahead) :
    p.Holds n s.rx := by
  cases h with
  | header h => exact h.holds
  | body h => exact h.holds

/-- The end of a segment. -/
theorem Scan.Expects.awaits {later : List (BitVec 8)} {todo : List (Packet × Piece (BitVec 8))}
    {ahead : Nat} {s : Scan} (h : s.Expects later todo ahead) (hrest : s.rest = []) :
    s.rx.Awaits later todo := by
  cases h with
  | fresh hfresh hfollows =>
    rw [hrest, List.nil_append] at hfollows
    exact .fresh hfresh.msgIdx hfollows
  | inside hinside hfollows =>
    unfold Scan.Follows at hfollows
    rw [hrest, List.nil_append] at hfollows
    exact .inside hinside.holds hinside.short hfollows

/-- The beginning of a segment. -/
theorem RxState.Awaits.expects {seg later : List (BitVec 8)}
    {todo : List (Packet × Piece (BitVec 8))} {rx : RxState} (h : rx.Awaits (seg ++ later) todo) :
    ∃ ahead ≤ 5, (⟨rx, seg, 0, 0, 0, 0⟩ : Scan).Expects later todo ahead := by
  cases h with
  | fresh hmsg hfollows => exact ⟨0, Nat.zero_le 5, .fresh ⟨rfl, rfl, hmsg⟩ hfollows⟩
  | @inside rx p n ps hholds hshort hfollows =>
    have hle := p.header_le
    exact ⟨min n p.header.length, by omega, .inside (hholds.inside hshort rfl rfl) hfollows⟩

/-- Nothing is left of the packets. -/
theorem RxState.Awaits.idle {todo : List (Packet × Piece (BitVec 8))} {rx : RxState}
    (h : rx.Awaits [] todo) : todo = [] ∧ rx.msgIdx = 0 := by
  cases h with
  | @fresh rx ps hmsg hfollows =>
    cases ps with
    | nil => exact ⟨rfl, hmsg⟩
    | cons p ps =>
      have hpos := p.bytes_pos
      have hlen := congrArg List.length hfollows
      simp only [bytesOf, List.flatMap_cons, List.length_append, List.length_nil] at hlen
      omega
  | inside hholds hshort hfollows =>
    have hlen := congrArg List.length hfollows
    simp only [List.length_append, List.length_drop, List.length_nil] at hlen
    omega

section Segments

variable (shiftOut : BitVec 32 → Nat → BitVec 32)

theorem Scan.Inside.round {s : Scan} {p : Packet} {n ahead : Nat} (h : s.Inside p n ahead)
    (found : Nat → Bool) (hrest : s.rest ≠ []) {later more : List (BitVec 8)}
    (hfollows : s.Follows later p n more) :
    Progress p n ahead later more s (s.round shiftOut found) := by
  cases h with
  | header h => exact h.round shiftOut found hrest hfollows
  | body h => exact h.round shiftOut found hrest hfollows

/-- **A round**: the loop goes on, or the next part is received. -/
theorem Scan.Expects.round {later : List (BitVec 8)} {todo : List (Packet × Piece (BitVec 8))}
    {ahead : Nat} {s : Scan} (h : s.Expects later todo ahead) (found : Nat → Bool)
    (hrest : s.rest ≠ []) :
    (∃ t ahead', s.round shiftOut found = (none, t) ∧ t.Expects later todo ahead' ∧
      t.rest.length + ahead' < s.rest.length + ahead) ∨
    ∃ k t x todo', s.round shiftOut found = (some k, t) ∧ todo = x :: todo' ∧ k.ShowsPart x ∧
      t.Expects later todo' 0 ∧ t.rest.length < s.rest.length + ahead := by
  have hinside : ∃ p n ps, s.Inside p n ahead ∧ s.Follows later p n (bytesOf ps) ∧
      todo = ((p.todo n).map fun q => (p, q)) ++ partsOf ps := by
    cases h with
    | @fresh s ps hfresh hfollows =>
      cases ps with
      | nil => exact absurd (List.append_eq_nil_iff.mp hfollows).1 hrest
      | cons p ps =>
        refine ⟨p, 0, ps, ?_, hfollows, partsOf_cons p ps⟩
        simpa using (p.holds_zero hfresh.msgIdx).inside p.bytes_pos hfresh.fixedHdrIdx
          hfresh.msgRemLen
    | inside hinside hfollows => exact ⟨_, _, _, hinside, hfollows, rfl⟩
  obtain ⟨p, n, ps, hinside, hfollows, rfl⟩ := hinside
  have hround := hinside.round shiftOut found hrest hfollows
  generalize s.round shiftOut found = out at hround ⊢
  cases hround with
  | on hin hfol htodo hless =>
    left
    refine ⟨_, _, rfl, ?_, hless⟩
    rw [← htodo]
    exact .inside hin hfol
  | part hshows hin hfol htodo hless =>
    right
    refine ⟨_, _, (p, _), _, rfl, ?_, hshows, .inside hin hfol, hless⟩
    rw [htodo]
    rfl
  | last hshows hfresh hfol htodo hless =>
    right
    refine ⟨_, _, (p, _), _, rfl, ?_, hshows, .fresh hfresh hfol, hless⟩
    rw [htodo]
    rfl

/-- **A segment** of packets. The loop ends; `mqtt_message_received` is called for the parts that
come next, and for all that have come when each is accepted. -/
theorem segment_received {later : List (BitVec 8)} (found : Nat → Bool) (c : Nat)
    (rounds : Nat) (s : Scan) (w : Net) {todo : List (Packet × Piece (BitVec 8))} {ahead : Nat}
    (h : s.Expects later todo ahead) (hrounds : s.rest.length + ahead ≤ rounds) :
    let r := mqttParseIncomingBytes shiftOut found c rounds s w
    r.running = false ∧ ∃ done left, todo = done ++ left ∧
      List.Forall₂ Received.ShowsPart r.received done ∧
        ∀ rx w', r.result = some (.accepted, rx, w') → rx.Awaits later left := by
  revert todo ahead
  apply mqttParseIncomingBytes_rule shiftOut found (c := c) (motive := fun rounds s _ r =>
    ∀ {todo : List (Packet × Piece (BitVec 8))} {ahead : Nat}, s.Expects later todo ahead →
      s.rest.length + ahead ≤ rounds → r.running = false ∧ ∃ done left, todo = done ++ left ∧
        List.Forall₂ Received.ShowsPart r.received done ∧
          ∀ rx w', r.result = some (.accepted, rx, w') → rx.Awaits later left)
  case done =>
    intro n s w hrest todo ahead h _
    refine ⟨rfl, [], todo, rfl, .nil, fun rx w' hres => ?_⟩
    cases hres
    exact h.awaits hrest
  case running =>
    intro s w hrest todo ahead _ hrounds
    have hpos := List.length_pos_iff.mpr hrest
    omega
  case skip =>
    intro n s t w hrest hround ih todo ahead h hrounds
    rcases h.round shiftOut found hrest with ⟨t', ahead', hround', h', hless⟩ | ⟨k, t', x, _, hround', _⟩
    · cases hround.symm.trans hround'
      exact ih h' (by omega)
    · cases hround.symm.trans hround'
  case undefined =>
    intro n s t w k data hrest hround hk todo ahead h hrounds
    rcases h.round shiftOut found hrest with ⟨t', _, hround', _⟩ |
      ⟨k', t', x, todo', hround', rfl, hshows, _⟩
    · cases hround.symm.trans hround'
    · cases hround.symm.trans hround'
      exact ⟨rfl, [x], todo', rfl, .cons hshows .nil, fun rx w' hres => nomatch hres⟩
  case stop =>
    intro n s t w k data res w' hrest hround hk hstop todo ahead h hrounds
    rcases h.round shiftOut found hrest with ⟨t', _, hround', _⟩ |
      ⟨k', t', x, todo', hround', rfl, hshows, _⟩
    · cases hround.symm.trans hround'
    · cases hround.symm.trans hround'
      refine ⟨rfl, [x], todo', rfl, .cons hshows .nil, fun rx w' hres => ?_⟩
      cases hres
      exact absurd rfl hstop.2
  case next =>
    intro n s t w k data res w' hrest hround hk hstop r ih todo ahead h hrounds
    rcases h.round shiftOut found hrest with ⟨t', _, hround', _⟩ |
      ⟨k', t', x, todo', hround', rfl, hshows, h', hless⟩
    · cases hround.symm.trans hround'
    · cases hround.symm.trans hround'
      obtain ⟨hrun, done, left, rfl, hdone, hleft⟩ := ih h' (by omega)
      exact ⟨hrun, x :: done, left, rfl, .cons hshows hdone, hleft⟩

/-- A segment that `mqtt_tcp_recv_cb` passes on: its bytes, the net when it comes, the results of
`mqtt_take_request`, and the number of rounds for which the loop is followed. -/
structure Arrival where
  bytes : List (BitVec 8)
  net : Net
  found : Nat → Bool
  rounds : Nat

/-- What is seen of `mqtt_parse_incoming` for segments: the calls of `mqtt_message_received`, those
of `data_cb`, whether the rounds did not suffice for a segment, and the buffer, if the connection
is kept. -/
structure Reception where
  received : List Received := []
  data : List DataCall := []
  running : Bool := false
  rx : Option RxState := none

/-- `mqtt_parse_incoming` for one segment after the other. -/
def parseSegments (c : Nat) : RxState → List Arrival → Reception
  | rx, [] => { rx := some rx }
  | rx, g :: gs =>
    let r := mqttParseIncomingBytes shiftOut g.found c g.rounds { rx := rx, rest := g.bytes } g.net
    match r.result with
    | some (.accepted, rx, _) =>
      let rest := parseSegments c rx gs
      { rest with received := r.received ++ rest.received, data := r.data ++ rest.data }
    | _ => { received := r.received, data := r.data, running := r.running }

/-- **Segments of packets.** However the packets are cut into segments, and whatever the client
does between two of them, the loop ends for each segment, and `mqtt_message_received` is called
for their parts in order, for all of them when the connection is kept. -/
theorem segments_received (c : Nat) (ps : List Packet) (gs : List Arrival) (rx : RxState)
    (hrx : rx.msgIdx = 0) (hcut : gs.flatMap Arrival.bytes = bytesOf ps)
    (hrounds : ∀ g ∈ gs, g.bytes.length + 5 ≤ g.rounds) :
    let r := parseSegments shiftOut c rx gs
    r.running = false ∧ ∃ done left, partsOf ps = done ++ left ∧
      List.Forall₂ Received.ShowsPart r.received done ∧
        ∀ rx', r.rx = some rx' → left = [] ∧ rx'.msgIdx = 0 := by
  have hawaits : rx.Awaits (gs.flatMap Arrival.bytes) (partsOf ps) := .fresh hrx hcut
  generalize partsOf ps = todo at hawaits ⊢
  clear hcut hrx
  dsimp only
  induction gs generalizing rx todo with
  | nil =>
    refine ⟨rfl, [], todo, rfl, .nil, fun rx' hrx' => ?_⟩
    cases hrx'
    exact hawaits.idle
  | cons g gs ih =>
    obtain ⟨hg, hgs⟩ := List.forall_mem_cons.mp hrounds
    rw [List.flatMap_cons] at hawaits
    obtain ⟨ahead, hahead, hexpects⟩ := hawaits.expects
    obtain ⟨hrun, done, left, rfl, hdone, hleft⟩ := segment_received shiftOut g.found c g.rounds
      _ g.net hexpects (by dsimp only; omega)
    unfold parseSegments
    dsimp only
    split
    · rename_i rx₁ w₁ hres
      obtain ⟨hrun₁, done₁, left₁, rfl, hdone₁, hleft₁⟩ := ih rx₁ hgs left (hleft rx₁ w₁ hres)
      exact ⟨hrun₁, done ++ done₁, left₁, (List.append_assoc ..).symm, List.rel_append hdone hdone₁,
        hleft₁⟩
    · exact ⟨hrun, done, left, rfl, hdone, fun rx' hrx' => nomatch hrx'⟩

end Segments

/-- A PUBLISH of `b` for the topic `a`, and a PINGRESP. -/
def postAndPing : List Packet :=
  [⟨0x30, [0x04], [0x00, 0x01, 0x61, 0x62], rfl, by decide, rfl⟩,
    ⟨0xd0, [0x00], [], rfl, by decide, rfl⟩]

/-- A client that is connected. -/
def connected : Net :=
  { Net.empty with heap := fun _ => some { connState := .mqttConnected, inpub := true } }

/-- Their bytes in three segments. -/
def threeSegments : List Arrival :=
  [[0x30], [0x04, 0x00, 0x01, 0x61], [0x62, 0xd0, 0x00]].map fun bytes =>
    ⟨bytes, connected, fun _ => false, 9⟩

theorem segments_received_three :
    let r := parseSegments (fun x n => x <<< n) 0 {} threeSegments
    r.running = false ∧ List.Forall₂ Received.ShowsPart r.received (partsOf postAndPing) ∧
      ∃ rx', r.rx = some rx' ∧ rx'.msgIdx = 0 := by
  have hkept : (parseSegments (fun x n => x <<< n) 0 {} threeSegments).rx.isSome = true := by
    decide +kernel
  obtain ⟨rx', hrx⟩ := Option.isSome_iff_exists.mp hkept
  obtain ⟨hrun, done, left, hparts, hshows, hleft⟩ :=
    segments_received (fun x n => x <<< n) 0 postAndPing threeSegments {} rfl rfl
      (by simp [threeSegments])
  obtain ⟨hnil, hidx⟩ := hleft rx' hrx
  rw [hnil, List.append_nil] at hparts
  rw [hparts]
  exact ⟨hrun, hshows, rx', hrx, hidx⟩

end MqttDevice.Lwip
