import MqttDevice.Lwip.InetChksum

/-!
# The checksum of TCP segments (`tcp_out.c`, `tcp_in.c`)

Control segments are summed when they are sent. The data of other segments is summed piece by
piece when it is written, and `tcp_output_segment` sums only the header again, also when it sends
the segment once more; the option `TCP_CHECKSUM_ON_COPY_SANITY_CHECK` then compares the result
with a sum over the whole segment.

* `filled_accepted`: a segment with its checksum filled in passes the test of `tcp_input`;
* `damage_detected`: and it does not when one byte is altered;
* `onCopy_exact`: along any run of writes and transmissions the sum in pieces is the sum over the
  whole segment.
-/

namespace MqttDevice.Lwip

open MqttDevice.Ascii MqttDevice.Memory MqttDevice.OnesComplement
open MqttDevice.EthernetifInput (Pbuf contents totLen)

/-! ## Sent and received -/

def tcpHlen : Nat := 20

/-- Where `struct tcp_hdr` has `chksum`. -/
def chksumOffset : Nat := 16

def ipProtoTcp : BitVec 8 := 6

/-- A segment that is to be sent: the first pbuf can hold `struct tcp_hdr`, and no two payloads
overlap. -/
structure SegmentChain extends ShortChain where
  head : Pbuf
  rest : List Pbuf
  chain_eq : chain = head :: rest
  header : tcpHlen ≤ head.len
  apart : EthernetifInput.Apart chain

/-- The checksum of `tcp_output_control_segment` and of `tcp_input`. -/
def tcpChksum (m : Mem) (p : List Pbuf) (src dest : BitVec 32) : Nat :=
  inetChksumPseudo m p ipProtoTcp (BitVec.ofNat 16 (totLen p)) src dest

/-- `tcphdr->chksum = ip_chksum_pseudo(...)` -/
def fillChksum (m : Mem) (p : SegmentChain) (src dest : BitVec 32) : Mem :=
  store16 m (p.head.payload + chksumOffset) (tcpChksum m p.chain src dest)

/-- The test of `tcp_input`: a segment goes on if its checksum comes out zero. -/
def chksumOk (m : Mem) (p : List Pbuf) (src dest : BitVec 32) : Bool :=
  tcpChksum m p src dest == 0

/-- The half-word of the checksum, between the bytes in front of it and those behind. -/
theorem contents_segment (m : Mem) (p : SegmentChain) :
    contents m p.chain = bytes m p.head.payload chksumOffset ++
      (bytes m (p.head.payload + chksumOffset) 2 ++
        (bytes m (p.head.payload + chksumOffset + 2) (p.head.len - (chksumOffset + 2)) ++
          contents m p.rest)) := by
  have hheader := p.header
  have hlen : p.head.len = chksumOffset + (2 + (p.head.len - (chksumOffset + 2))) := by
    unfold tcpHlen at hheader
    unfold chksumOffset
    omega
  rw [p.chain_eq, EthernetifInput.contents_cons]
  conv_lhs => rw [hlen]
  rw [bytes_add, bytes_add, List.append_assoc, List.append_assoc]

/-- Storing the checksum changes nothing else of the segment. -/
theorem value_store (m : Mem) (p : SegmentChain) (c : Nat) (hc : c < 65536)
    (hzero : load16 m (p.head.payload + chksumOffset) = 0) :
    value (contents (store16 m (p.head.payload + chksumOffset) c) p.chain) =
      value (contents m p.chain) + 256 ^ chksumOffset * c := by
  have hheader : 18 ≤ p.head.len := Nat.le_trans (by decide) p.header
  have hapart := p.apart
  rw [p.chain_eq] at hapart
  have hrest : contents (store16 m (p.head.payload + chksumOffset) c) p.rest =
      contents m p.rest := by
    refine EthernetifInput.contents_congr fun q hq i hi => store16_outside m c ?_
    have hne := List.rel_of_pairwise_cons hapart hq
    have hlo := hne 16 (by omega) i hi
    have hhi := hne 17 (by omega) i hi
    unfold chksumOffset
    omega
  have hfront : bytes (store16 m (p.head.payload + chksumOffset) c) p.head.payload chksumOffset =
      bytes m p.head.payload chksumOffset :=
    bytes_congr fun k hk => store16_outside m c (.inl (by omega))
  have hback (n : Nat) : bytes (store16 m (p.head.payload + chksumOffset) c)
      (p.head.payload + chksumOffset + 2) n = bytes m (p.head.payload + chksumOffset + 2) n :=
    bytes_congr fun k hk => store16_outside m c (.inr (by omega))
  rw [contents_segment, contents_segment m p, hrest, hfront, hback]
  simp only [value_append, length_bytes, value_pair, load16_store16, hzero,
    Nat.mod_eq_of_lt hc]
  ring

/-- **A segment with its checksum filled in passes** the test of `tcp_input`, also when it arrives
in a chain that is cut in another way. -/
theorem filled_accepted (m m' : Mem) (p : SegmentChain) (q : ShortChain) (src dest : BitVec 32)
    (hzero : load16 m (p.head.payload + chksumOffset) = 0)
    (harrived : contents m' q.chain = contents (fillChksum m p src dest) p.chain) :
    chksumOk m' q.chain src dest = true := by
  have htot : totLen q.chain = totLen p.chain := by
    rw [← EthernetifInput.length_contents m', harrived, EthernetifInput.length_contents]
  refine beq_iff_eq.mpr ?_
  unfold tcpChksum
  rw [htot, inetChksumPseudo_eq, harrived]
  unfold fillChksum tcpChksum
  rw [inetChksumPseudo_eq m p.toShortChain]
  generalize hheader : pseudoHeader src dest ipProtoTcp (BitVec.ofNat 16 (totLen p.chain)) = header
  have hlen : header.length = 12 := by
    rw [← hheader]
    rfl
  have hle : norm 65535 (value (header ++ contents m p.chain)) ≤ 65535 := norm_le (by decide) _
  have hc : checksum (header ++ contents m p.chain) < 65536 := by
    unfold checksum
    omega
  -- the checksum is added to what it was taken over
  have hsum : value (header ++ contents (store16 m (p.head.payload + chksumOffset)
      (checksum (header ++ contents m p.chain))) p.chain) =
      value (header ++ contents m p.chain) +
        256 ^ (12 + chksumOffset) * checksum (header ++ contents m p.chain) := by
    rw [value_append, value_store m p _ hc hzero, value_append, hlen]
    ring
  have hsame := (norm_same 65535 (value (header ++ contents m p.chain))).symm.add
    (same_unshift (j := 12 + chksumOffset) rfl (checksum (header ++ contents m p.chain)))
  rw [← hsum, checksum, Nat.add_sub_cancel' hle] at hsame
  unfold checksum
  rw [norm_congr hsame, norm_of_le (Nat.le_refl _)]

/-- A memory with a cleared checksum field at 117. -/
def oddMem : Mem := fun a => if a = 117 ∨ a = 118 then 0 else BitVec.ofNat 8 (7 * a)

/-- A segment at an odd address, cut behind 23 bytes. -/
def oddSegment : SegmentChain where
  chain := [⟨0, 101, 23⟩, ⟨1, 200, 4⟩]
  lens := by decide
  head := ⟨0, 101, 23⟩
  rest := [⟨1, 200, 4⟩]
  chain_eq := rfl
  header := by decide
  apart := List.pairwise_pair.mpr fun i hi j hj => by
    dsimp only at hi hj ⊢
    omega

/-- Where it arrives: in one pbuf, at an even address. -/
def oneBuffer : ShortChain where
  chain := [⟨5, 0, 27⟩]
  lens := by decide

def arrivedMem : Mem := fun a =>
  (contents (fillChksum oddMem oddSegment 0x0a01a8c0 0x1401a8c0) oddSegment.chain).getD a 0

theorem filled_accepted_oddSegment :
    chksumOk arrivedMem oneBuffer.chain 0x0a01a8c0 0x1401a8c0 = true :=
  filled_accepted oddMem arrivedMem oddSegment oneBuffer 0x0a01a8c0 0x1401a8c0 (by decide)
    (by
      rw [show oneBuffer.chain = [⟨5, 0, 27⟩] from rfl, EthernetifInput.contents_cons]
      rfl)

/-- What passes sums up to all ones. -/
theorem norm_of_chksumOk {m : Mem} {p : ShortChain} {src dest : BitVec 32}
    (h : chksumOk m p.chain src dest = true) :
    norm 65535 (value (pseudoHeader src dest ipProtoTcp (BitVec.ofNat 16 (totLen p.chain)) ++
      contents m p.chain)) = 65535 := by
  have hzero := beq_iff_eq.mp h
  unfold tcpChksum at hzero
  rw [inetChksumPseudo_eq, checksum] at hzero
  exact Nat.le_antisymm (norm_le (by decide) _) (Nat.le_of_sub_eq_zero hzero)

/-- **One altered byte is found**: two segments that differ in it do not both pass. -/
theorem damage_detected (m m' : Mem) (p q : ShortChain) (src dest : BitVec 32)
    (front back : List Byte) (x y : Byte) (hxy : x ≠ y)
    (hp : contents m p.chain = front ++ x :: back)
    (hq : contents m' q.chain = front ++ y :: back)
    (hok : chksumOk m p.chain src dest = true) : chksumOk m' q.chain src dest = false := by
  refine Bool.eq_false_iff.mpr fun hok' => hxy ?_
  have htot : totLen p.chain = totLen q.chain := by
    rw [← EthernetifInput.length_contents m, ← EthernetifInput.length_contents m', hp, hq,
      List.length_append, List.length_append]
    rfl
  have hnorm := (norm_of_chksumOk hok).trans (norm_of_chksumOk hok').symm
  rw [hp, hq, htot] at hnorm
  have hmod := modEq_of_norm_eq hnorm
  simp only [value_append, value_cons] at hmod
  -- the two sums differ in the multiples of one power of 256 only
  have hmod := Nat.ModEq.add_left_cancel' _ hmod
  have hmod := Nat.ModEq.cancel_left_of_coprime (Nat.Coprime.pow_right _ (by decide)) hmod
  have hmod := Nat.ModEq.add_left_cancel' _ hmod
  have hmod := Nat.ModEq.cancel_left_of_coprime (Nat.Coprime.pow_right _ (by decide)) hmod
  have hmod := Nat.ModEq.add_right_cancel' _ hmod
  have hx := x.isLt
  have hy := y.isLt
  exact BitVec.eq_of_toNat_eq (Nat.ModEq.eq_of_lt_of_lt hmod (by omega) (by omega))

/-- Two bytes that make up for the pseudo header between the addresses zero. -/
def twoBytes (b : Byte) : Mem := fun a => if a = 1 then b else 0xf7

theorem damage_detected_twoBytes :
    chksumOk (twoBytes 0xfe) [⟨0, 1, 1⟩, ⟨1, 2, 1⟩] 0 0 = false :=
  damage_detected (twoBytes 0xff) (twoBytes 0xfe) ⟨[⟨0, 1, 2⟩], by decide⟩
    ⟨[⟨0, 1, 1⟩, ⟨1, 2, 1⟩], by decide⟩ 0 0 [] [0xf7] 0xff 0xfe (by decide) (by decide) (by decide)
    (by decide)

/-! ## Sums kept while data is written -/

/-- The fields of `struct tcp_seg` for the sum of the data. -/
structure SegSum where
  chksum : Nat
  chksumSwapped : Bool
  deriving DecidableEq, Repr

def SegSum.create : SegSum := ⟨0, false⟩

def tcpSegAddChksum (chksum len : Nat) (seg : SegSum) : SegSum :=
  let chksum := foldU32T (chksum + seg.chksum) % 2 ^ 16
  if len % 2 ≠ 0 then ⟨swapBytesInWord chksum, !seg.chksumSwapped⟩
  else ⟨chksum, seg.chksumSwapped⟩

/-- `if (seg->chksum_swapped)` of `tcp_output_segment`. -/
def SegSum.swapBack (seg : SegSum) : SegSum :=
  if seg.chksumSwapped then ⟨swapBytesInWord seg.chksum, false⟩ else seg

/-- The checksum that `tcp_output_segment` puts together, for a header of `hdrlen` words, and the
fields behind the call of `ip_output_if`. -/
def tcpOutputChksum (m : Mem) (p : List Pbuf) (hdrlen : BitVec 4) (src dest : BitVec 32)
    (seg : SegSum) : Nat × SegSum :=
  let acc := inetChksumPseudoPartial m p ipProtoTcp (BitVec.ofNat 16 (totLen p))
    (4 * hdrlen.toNat) src dest
  let back := seg.swapBack
  let acc := 65535 - acc + back.chksum
  let after := if seg.chksumSwapped then ⟨swapBytesInWord back.chksum, true⟩ else back
  (65535 - foldU32T acc % 2 ^ 16, after)

/-- A piece of data for a segment: copied to it, or referred to. -/
inductive DataPiece where
  | copy (m : Mem) (dst src : Nat) (len : BitVec 16)
  | refer (m : Mem) (arg : Nat) (len : BitVec 16)

def DataPiece.len : DataPiece → Nat
  | .copy _ _ _ len => len.toNat
  | .refer _ _ len => len.toNat

def DataPiece.data : DataPiece → List Byte
  | .copy m _ src len => bytes m src len.toNat
  | .refer m arg len => bytes m arg len.toNat

/-- The sum that `tcp_write` takes of it. -/
def DataPiece.chksum : DataPiece → Nat
  | .copy m dst src len => (lwipChksumCopy m dst src len.toNat).2
  -- ~inet_chksum(...), as u16_t
  | .refer m arg len => 65535 - inetChksum m arg len.toNat

/-- What happens to a segment: `tcp_write` puts a piece there, or a piece whose sum was kept in
`concat_chksum`; and it is sent. -/
inductive SegEvent where
  | write (piece : DataPiece)
  | concat (piece : DataPiece)
  | output (m : Mem) (p : List Pbuf) (hdrlen : BitVec 4) (src dest : BitVec 32)

/-- The fields of a new segment that refers to its data. -/
def referSum (chksum len : Nat) : SegSum :=
  if len % 2 ≠ 0 then ⟨swapBytesInWord chksum, true⟩ else ⟨chksum, false⟩

/-- `tcp_write` puts a piece in the segment; where it refers to the first one, it does not call
`tcp_seg_add_chksum`. -/
def SegSum.write (seg : SegSum) (piece : DataPiece) : SegSum :=
  match piece with
  | .copy .. => tcpSegAddChksum piece.chksum piece.len seg
  | .refer .. =>
    if seg = .create then referSum piece.chksum piece.len
    else tcpSegAddChksum piece.chksum piece.len seg

def SegSum.step (seg : SegSum) : SegEvent → SegSum
  | .write piece => seg.write piece
  | .concat piece =>
    let concat := tcpSegAddChksum piece.chksum piece.len .create
    tcpSegAddChksum concat.swapBack.chksum piece.len seg
  | .output m p hdrlen src dest => (tcpOutputChksum m p hdrlen src dest seg).2

def SegEvent.data : SegEvent → List Byte
  | .write piece => piece.data
  | .concat piece => piece.data
  | .output .. => []

/-- The fields hold the sum of the data, shifted by its length. -/
structure SumOf (seg : SegSum) (data : List Byte) : Prop where
  le : seg.chksum ≤ 65535
  swapped : seg.chksumSwapped = decide (data.length % 2 = 1)
  same : Same 65535 seg.chksum (256 ^ data.length * value data)

theorem sumOf_create : SumOf .create [] := ⟨Nat.zero_le _, rfl, .refl _ _⟩

theorem tcpSegAddChksum_eq {seg : SegSum} {c : Nat} (len : Nat) (hc : c ≤ 65535)
    (hseg : seg.chksum ≤ 65535) :
    tcpSegAddChksum c len seg =
      ⟨if len % 2 ≠ 0 then swapBytesInWord (foldU32T (seg.chksum + c))
        else foldU32T (seg.chksum + c),
        if len % 2 ≠ 0 then !seg.chksumSwapped else seg.chksumSwapped⟩ := by
  have hfold : foldU32T (seg.chksum + c) ≤ 65535 := fold_le (by omega)
  have hmod : foldU32T (c + seg.chksum) % 2 ^ 16 = foldU32T (seg.chksum + c) := by
    rw [Nat.add_comm c]
    exact Nat.mod_eq_of_lt (Nat.lt_of_le_of_lt hfold (by decide))
  unfold tcpSegAddChksum
  rw [hmod]
  split <;> rfl

theorem SumOf.add {seg : SegSum} {data piece : List Byte} {c len : Nat} (h : SumOf seg data)
    (hc : c ≤ 65535) (hs : Same 65535 c (value piece)) (hlen : piece.length = len) :
    SumOf (tcpSegAddChksum c len seg) (data ++ piece) := by
  subst hlen
  obtain ⟨hle, hstep⟩ := same_step piece.length h.le hc h.same hs
  have hswap := swapped_step data.length piece.length
  rw [← h.swapped, ← List.length_append] at hswap
  rw [← List.length_append, ← value_append] at hstep
  rw [tcpSegAddChksum_eq piece.length hc h.le]
  exact ⟨hle, hswap, hstep⟩

/-- Swapped back, it is the sum of the data. -/
theorem SumOf.swapBack {seg : SegSum} {data : List Byte} (h : SumOf seg data) :
    seg.swapBack.chksum ≤ 65535 ∧ Same 65535 seg.swapBack.chksum (value data) := by
  have hback : seg.swapBack.chksum = unswap (seg.chksum, decide (data.length % 2 = 1)) := by
    unfold SegSum.swapBack unswap
    rw [h.swapped]
    split <;> rfl
  rw [hback]
  exact ⟨unswap_le h.le, same_unswap h.le h.same⟩

/-- Sending a segment leaves its fields as they were. -/
theorem SumOf.output {seg : SegSum} {data : List Byte} (h : SumOf seg data) (m : Mem)
    (p : List Pbuf) (hdrlen : BitVec 4) (src dest : BitVec 32) :
    (tcpOutputChksum m p hdrlen src dest seg).2 = seg := by
  obtain ⟨chksum, swapped⟩ := seg
  have hswap := swap_swap h.le
  cases swapped with
  | false => rfl
  | true => simp only [tcpOutputChksum, SegSum.swapBack, if_true, hswap]

/-- The sum of a piece is taken where the data goes, or where it stays. -/
theorem DataPiece.chksum_spec (piece : DataPiece) :
    piece.chksum ≤ 65535 ∧ Same 65535 piece.chksum (value piece.data) := by
  cases piece with
  | copy m dst src len =>
    have hspec := lwipStandardChksum_spec (memcpy m dst (fun k => m (src + k)) len.toNat)
      dst len.isLt
    have hcopied : bytes (memcpy m dst (fun k => m (src + k)) len.toNat) dst len.toNat =
        bytes m src len.toNat := by
      rw [bytes_memcpy]
      exact bytes_congr fun k _ => by rw [Nat.zero_add]
    rw [hcopied] at hspec
    exact hspec
  | refer m arg len =>
    have hspec := lwipStandardChksum_spec m arg len.isLt
    have hinv : (DataPiece.refer m arg len).chksum = lwipStandardChksum m arg len.toNat :=
      Nat.sub_sub_self hspec.1
    rw [hinv]
    exact hspec

/-- That `tcp_seg_add_chksum` is not called comes to the same. -/
theorem SegSum.write_eq (seg : SegSum) (piece : DataPiece) :
    seg.write piece = tcpSegAddChksum piece.chksum piece.len seg := by
  have hsum := piece.chksum_spec.1
  cases piece with
  | copy m dst src len => rfl
  | refer m arg len =>
    rw [write]
    split
    · rename_i hnew
      have hfold : foldU32T ((DataPiece.refer m arg len).chksum + 0) % 2 ^ 16 =
          (DataPiece.refer m arg len).chksum := by
        unfold foldU32T
        omega
      rw [hnew, tcpSegAddChksum, create, hfold]
      rfl
    · rfl

theorem DataPiece.length_data (piece : DataPiece) : piece.data.length = piece.len := by
  cases piece with
  | copy m dst src len => exact length_bytes _ _ _
  | refer m arg len => exact length_bytes _ _ _

theorem SumOf.step {seg : SegSum} {data : List Byte} (h : SumOf seg data) (e : SegEvent) :
    SumOf (seg.step e) (data ++ e.data) := by
  cases e with
  | write piece =>
    obtain ⟨hc, hs⟩ := piece.chksum_spec
    rw [SegSum.step, SegSum.write_eq]
    exact h.add hc hs piece.length_data
  | concat piece =>
    obtain ⟨hc, hs⟩ := piece.chksum_spec
    obtain ⟨hc, hs⟩ := (sumOf_create.add hc hs piece.length_data).swapBack
    exact h.add hc hs piece.length_data
  | output m p hdrlen src dest =>
    simp only [SegSum.step, SegEvent.data, h.output, List.append_nil]
    exact h

theorem SumOf.run {seg : SegSum} {data : List Byte} (h : SumOf seg data) (es : List SegEvent) :
    SumOf (es.foldl SegSum.step seg) (data ++ es.flatMap SegEvent.data) := by
  induction es generalizing seg data with
  | nil =>
    rw [List.flatMap_nil, List.append_nil]
    exact h
  | cons e es ih =>
    rw [List.foldl_cons, List.flatMap_cons, ← List.append_assoc]
    exact ih (h.step e)

/-- **The sum in pieces is the sum over the segment**, whatever pieces the data was written in and
however often the segment was sent before: the sanity check never finds a difference. -/
theorem onCopy_exact (es : List SegEvent) (m : Mem) (p : ShortChain) (hdrlen : BitVec 4)
    (src dest : BitVec 32) (header : List Byte) (hheader : header.length = 4 * hdrlen.toNat)
    (hcontents : contents m p.chain = header ++ es.flatMap SegEvent.data) :
    (tcpOutputChksum m p.chain hdrlen src dest (es.foldl SegSum.step .create)).1 =
      tcpChksum m p.chain src dest := by
  have hrun := (sumOf_create.run es).swapBack
  rw [List.nil_append] at hrun
  obtain ⟨hc, hs⟩ := hrun
  have htake : (contents m p.chain).take (4 * hdrlen.toNat) = header := by
    rw [hcontents, ← hheader, List.take_left]
  unfold tcpOutputChksum tcpChksum
  dsimp only
  rw [inetChksumPseudoPartial_eq, htake, inetChksumPseudo_eq, hcontents, ← List.append_assoc]
  generalize hpseudo : pseudoHeader src dest ipProtoTcp (BitVec.ofNat 16 (totLen p.chain)) = pseudo
  have hlen : pseudo.length = 12 := by
    rw [← hpseudo]
    rfl
  have hle : norm 65535 (value (pseudo ++ header)) ≤ 65535 := norm_le (by decide) _
  unfold checksum
  rw [Nat.sub_sub_self hle]
  have hfold := fold_le (u := norm 65535 (value (pseudo ++ header)) +
    (es.foldl SegSum.step SegSum.create).swapBack.chksum) (by omega)
  rw [Nat.mod_eq_of_lt (Nat.lt_of_le_of_lt hfold (by decide))]
  -- the header is of even length, so the data is not shifted
  refine congrArg (65535 - ·) (eq_norm hfold ((same_fold _).trans ?_))
  rw [value_append (pseudo ++ header)]
  refine (norm_same _ _).add (hs.trans (same_unshift ?_ _).symm)
  rw [List.length_append, hlen, hheader]
  omega

def givenMem : Mem := fun a => BitVec.ofNat 8 (7 * a)

/-- Three bytes copied, a transmission, and two more bytes by reference. -/
def writtenTwice : List SegEvent :=
  [.write (.copy givenMem 300 101 3), .output givenMem [⟨0, 0, 23⟩] 5 0x0a01a8c0 0x1401a8c0,
    .concat (.refer givenMem 104 2)]

/-- The segment with both, behind a header of twenty bytes. -/
def writtenMem : Mem := fun a => if a < 20 then 5 else givenMem (a + 81)

theorem onCopy_exact_writtenTwice :
    (tcpOutputChksum writtenMem [⟨0, 0, 23⟩, ⟨1, 23, 2⟩] 5 0x0a01a8c0 0x1401a8c0
      (writtenTwice.foldl SegSum.step .create)).1 =
      tcpChksum writtenMem [⟨0, 0, 23⟩, ⟨1, 23, 2⟩] 0x0a01a8c0 0x1401a8c0 :=
  onCopy_exact writtenTwice writtenMem ⟨[⟨0, 0, 23⟩, ⟨1, 23, 2⟩], by decide⟩ 5 0x0a01a8c0
    0x1401a8c0 (List.replicate 20 5) (by decide) (by decide)

end MqttDevice.Lwip
