import MqttDevice.Enc28j60.Receive
import MqttDevice.Ethernetif
import MqttDevice.Lib.Memory
import MqttDevice.Lwip.Tcp

/-!
# The network interface (`ethernetif.c`): input

`ethernetif_input` polls the device: `low_level_input` takes a chain from the pbuf
pool for the received bytes and copies them from `lwip_buf` into it, and the chain
goes to `ethernet_input`. Here `lwip_buf` and the payloads are ranges of one memory,
since replies that are sent from inside `ethernet_input` go through `lwip_buf` again.

* `pbufAlloc_apart`: the chains of the pool do not overlap;
* `frames_preserved`: what is sent is the chain, what `low_level_input` returns
  holds the frame, and replies do not touch the chain that is being processed;
* `polls_exact_iff`: the stack gets exactly the frames received if and only if no
  poll comes back empty.
-/

namespace MqttDevice.EthernetifInput

open MqttDevice.Ascii MqttDevice.Memory MqttDevice.Runs MqttDevice.Enc28j60
open MqttDevice.Lwip (ErrT)

/-! ## Chains in memory -/

/-- `struct pbuf`, without the link to the next one; `element` is the element of the
pool that it is. -/
structure Pbuf where
  element : Nat
  payload : Nat
  len : Nat
  deriving DecidableEq, Repr

def totLen (p : List Pbuf) : Nat := (p.map Pbuf.len).sum

def contents (m : Mem) (p : List Pbuf) : List Byte := p.flatMap fun q => bytes m q.payload q.len

def lwipBufSize : Nat := 1500 * 2

def InBuf (lwipBuf a : Nat) : Prop := lwipBuf ≤ a ∧ a < lwipBuf + lwipBufSize

/-- No payload lies in `lwip_buf`. -/
def Outside (lwipBuf : Nat) (p : List Pbuf) : Prop :=
  ∀ q ∈ p, ∀ i < q.len, ¬ InBuf lwipBuf (q.payload + i)

def Apart (p : List Pbuf) : Prop :=
  p.Pairwise fun q r => ∀ i < q.len, ∀ j < r.len, q.payload + i ≠ r.payload + j

/-- A chain that can be sent. -/
structure OutChain (lwipBuf : Nat) where
  chain : List Pbuf
  outside : Outside lwipBuf chain
  fits : totLen chain ≤ lwipBufSize

/-- A chain for `n` received bytes. -/
structure InChain (lwipBuf n : Nat) where
  chain : List Pbuf
  outside : Outside lwipBuf chain
  apart : Apart chain
  total : totLen chain = n

section Copies

variable (lwipBuf : Nat)

/-- The loop of `low_level_output`. -/
def gatherLoop : List Pbuf → Nat → Mem → Mem × Nat
  | [], sendLen, m => (m, sendLen)
  | q :: qs, sendLen, m =>
    gatherLoop qs (sendLen + q.len)
      (memcpy m (lwipBuf + sendLen) (fun k => m (q.payload + k)) q.len)

/-- The loop of `low_level_input`. -/
def scatterLoop : List Pbuf → Nat → Mem → Mem
  | [], _, m => m
  | q :: qs, revLen, m =>
    scatterLoop qs (revLen + q.len)
      (memcpy m q.payload (fun k => m (lwipBuf + revLen + k)) q.len)

/-- What `low_level_output` hands to `ENC28J60_Packet_Send`. -/
def handedOver (p : List Pbuf) (m : Mem) : List Byte :=
  bytes (gatherLoop lwipBuf p 0 m).1 lwipBuf (gatherLoop lwipBuf p 0 m).2

def lowLevelOutput (env : Env) (p : List Pbuf) (m : Mem) (d : Dev) : Mem × Dev :=
  ((gatherLoop lwipBuf p 0 m).1, packetSend env (handedOver lwipBuf p m) d)

/-! ### Gathering -/

theorem contents_cons (m : Mem) (q : Pbuf) (qs : List Pbuf) :
    contents m (q :: qs) = bytes m q.payload q.len ++ contents m qs := List.flatMap_cons

theorem totLen_cons (q : Pbuf) (qs : List Pbuf) : totLen (q :: qs) = q.len + totLen qs := by
  simp [totLen]

theorem length_contents (m : Mem) (p : List Pbuf) : (contents m p).length = totLen p := by
  simp [contents, totLen, List.length_flatMap]

/-- A chain is read where nothing was written. -/
theorem contents_congr {m m' : Mem} {p : List Pbuf}
    (h : ∀ q ∈ p, ∀ i < q.len, m' (q.payload + i) = m (q.payload + i)) :
    contents m' p = contents m p := by
  induction p with
  | nil => rfl
  | cons q qs ih =>
    have hhead : bytes m' q.payload q.len = bytes m q.payload q.len :=
      bytes_congr (h q List.mem_cons_self)
    rw [contents_cons, contents_cons, hhead]
    exact congrArg _ (ih fun r hr => h r (List.mem_cons_of_mem q hr))

variable {lwipBuf}

/-- Gathering writes into `lwip_buf` only, behind what is there already. -/
theorem gatherLoop_spec {p : List Pbuf} {n : Nat} {m : Mem} (hout : Outside lwipBuf p)
    (hfits : n + totLen p ≤ lwipBufSize) :
    (gatherLoop lwipBuf p n m).2 = n + totLen p ∧
      bytes (gatherLoop lwipBuf p n m).1 lwipBuf (n + totLen p) =
        bytes m lwipBuf n ++ contents m p ∧
      ∀ a, ¬ InBuf lwipBuf a → (gatherLoop lwipBuf p n m).1 a = m a := by
  induction p generalizing n m with
  | nil => exact ⟨rfl, (List.append_nil _).symm, fun _ _ => rfl⟩
  | cons q qs ih =>
    rw [totLen_cons] at hfits ⊢
    have hqs : Outside lwipBuf qs := fun r hr => hout r (List.mem_cons_of_mem q hr)
    have hcopy : ∀ a, ¬ InBuf lwipBuf a →
        memcpy m (lwipBuf + n) (fun k => m (q.payload + k)) q.len a = m a := by
      intro a ha
      refine memcpy_outside m _ ?_
      simp only [InBuf] at ha
      omega
    obtain ⟨hlen, hbytes, hframe⟩ := ih (n := n + q.len)
      (m := memcpy m (lwipBuf + n) (fun k => m (q.payload + k)) q.len) hqs (by omega)
    rw [gatherLoop]
    refine ⟨hlen.trans (Nat.add_assoc ..), ?_, fun a ha => (hframe a ha).trans (hcopy a ha)⟩
    have hkept : bytes (memcpy m (lwipBuf + n) (fun k => m (q.payload + k)) q.len) lwipBuf n =
        bytes m lwipBuf n :=
      bytes_congr fun k hk => memcpy_outside m _ (.inl (Nat.add_lt_add_left hk lwipBuf))
    have hnew : bytes (memcpy m (lwipBuf + n) (fun k => m (q.payload + k)) q.len) (lwipBuf + n)
        q.len = bytes m q.payload q.len := by
      rw [bytes_memcpy]
      exact bytes_congr fun k _ => congrArg m (by omega)
    have hrest : contents (memcpy m (lwipBuf + n) (fun k => m (q.payload + k)) q.len) qs =
        contents m qs :=
      contents_congr fun r hr i hi => hcopy _ (hqs r hr i hi)
    rw [← Nat.add_assoc, hbytes, bytes_add, hkept, hnew, hrest, contents_cons, List.append_assoc]

theorem handedOver_eq (p : OutChain lwipBuf) (m : Mem) :
    handedOver lwipBuf p.chain m = contents m p.chain := by
  obtain ⟨hlen, hbytes, -⟩ :=
    gatherLoop_spec (m := m) (n := 0) p.outside (by rw [Nat.zero_add]; exact p.fits)
  rw [handedOver, hlen, hbytes]
  rfl

theorem lowLevelOutput_dev (env : Env) (p : OutChain lwipBuf) (m : Mem) (d : Dev) :
    (lowLevelOutput lwipBuf env p.chain m d).2 = packetSend env (contents m p.chain) d := by
  rw [lowLevelOutput, handedOver_eq]

theorem lowLevelOutput_refines (env : Env) (p : OutChain lwipBuf) (m : Mem) (d : Dev)
    (buf : Nat → Byte) :
    (lowLevelOutput lwipBuf env p.chain m d).2 =
      (Ethernetif.lowLevelOutput env (p.chain.map fun q => bytes m q.payload q.len) buf d).2.2 := by
  rw [Ethernetif.lowLevelOutput_dev, lowLevelOutput_dev]
  rfl

/-! ### Scattering -/

/-- Scattering writes into the chain only. -/
theorem scatterLoop_frame {p : List Pbuf} {n : Nat} {m : Mem} {a : Nat}
    (h : ∀ q ∈ p, ∀ i < q.len, q.payload + i ≠ a) : scatterLoop lwipBuf p n m a = m a := by
  induction p generalizing n m with
  | nil => rfl
  | cons q qs ih =>
    rw [scatterLoop, ih fun r hr => h r (List.mem_cons_of_mem q hr)]
    refine memcpy_outside m _ ?_
    by_contra hin
    exact h q List.mem_cons_self (a - q.payload) (by omega) (by omega)

theorem scatterLoop_spec {p : List Pbuf} {n : Nat} {m : Mem} (hout : Outside lwipBuf p)
    (hapart : Apart p) (hfits : n + totLen p ≤ lwipBufSize) :
    contents (scatterLoop lwipBuf p n m) p = bytes m (lwipBuf + n) (totLen p) := by
  induction p generalizing n m with
  | nil => rfl
  | cons q qs ih =>
    rw [totLen_cons] at hfits ⊢
    have hqs : Outside lwipBuf qs := fun r hr => hout r (List.mem_cons_of_mem q hr)
    obtain ⟨hq, hapart⟩ := List.pairwise_cons.mp hapart
    have hhead : bytes (scatterLoop lwipBuf (q :: qs) n m) q.payload q.len =
        bytes m (lwipBuf + n) q.len := by
      refine bytes_congr fun k hk => ?_
      rw [scatterLoop, scatterLoop_frame fun r hr i hi => (hq r hr k hk i hi).symm,
        memcpy_inside m _ _ hk]
    -- the copy into the first segment leaves `lwip_buf` alone
    have hbuf : bytes (memcpy m q.payload (fun k => m (lwipBuf + n + k)) q.len)
        (lwipBuf + (n + q.len)) (totLen qs) = bytes m (lwipBuf + n + q.len) (totLen qs) := by
      refine bytes_congr fun k hk => ?_
      rw [← Nat.add_assoc]
      refine memcpy_outside m _ ?_
      by_contra hin
      refine hout q List.mem_cons_self (lwipBuf + n + q.len + k - q.payload) (by omega) ?_
      simp only [InBuf]
      omega
    rw [contents_cons, hhead, bytes_add, ← hbuf]
    exact congrArg _ (ih hqs hapart (by omega))

end Copies

/-! ## The pbuf pool -/

def sizeofStructPbuf : Nat := 16

/-- `PBUF_POOL_BUFSIZE`, for segments of `TCP_MSS` bytes. -/
def pbufPoolBufsize : Nat := 536 + 40 + 14

/-- `struct stats_mem`, as far as it is counted. -/
structure StatsMem where
  err : BitVec 16
  used : BitVec 16
  max : BitVec 16
  deriving DecidableEq, Repr

/-- `MEMP_PBUF_POOL`: the elements that are free, by number, and the statistics. -/
structure Pool where
  tab : List Nat
  stats : StatsMem
  deriving DecidableEq, Repr

def mempMalloc (pool : Pool) : Option Nat × Pool :=
  match pool.tab with
  | memp :: tab =>
    let used := pool.stats.used + 1
    let max := if used > pool.stats.max then used else pool.stats.max
    (some memp, ⟨tab, { pool.stats with used := used, max := max }⟩)
  | [] => (none, { pool with stats := { pool.stats with err := pool.stats.err + 1 } })

theorem mempMalloc_some {pool pool' : Pool} {memp : Nat}
    (h : mempMalloc pool = (some memp, pool')) : pool.tab = memp :: pool'.tab := by
  unfold mempMalloc at h
  split at h
  · rename_i memp' tab htab
    cases h
    exact htab
  · cases h

def mempFree (pool : Pool) (mem : Nat) : Pool :=
  ⟨mem :: pool.tab, { pool.stats with used := pool.stats.used - 1 }⟩

/-- `pbuf_free` of a chain to which there is one reference. -/
def pbufFree (p : List Pbuf) (pool : Pool) : Pool :=
  p.foldl (fun pool q => mempFree pool q.element) pool

section Alloc

variable (poolBase : Nat)

/-- The element `memp` of the pool, as a pbuf. -/
def pbufOf (memp len : Nat) : Pbuf :=
  ⟨memp, poolBase + (sizeofStructPbuf + pbufPoolBufsize) * memp + sizeofStructPbuf, len⟩

/-- The loop of `pbuf_alloc` for `PBUF_POOL`. -/
def pbufAllocLoop (p : List Pbuf) (remLen : Nat) (pool : Pool) : Option (List Pbuf) × Pool :=
  match mempMalloc pool with
  | (none, pool) => (none, pbufFree p pool)
  | (some q, pool) =>
    let qlen := min remLen pbufPoolBufsize
    let p := p ++ [pbufOf poolBase q qlen]
    if remLen - qlen > 0 then pbufAllocLoop p (remLen - qlen) pool else (some p, pool)
termination_by remLen
decreasing_by
  simp only [pbufPoolBufsize] at *
  omega

/-- `pbuf_alloc(PBUF_RAW, length, PBUF_POOL)`. -/
def pbufAlloc (length : Nat) (pool : Pool) : Option (List Pbuf) × Pool :=
  pbufAllocLoop poolBase [] length pool

/-- The chain of an allocation has the elements that were at the front of the free
list, each with at most the bytes that it holds, and as many bytes as asked for. -/
theorem pbufAllocLoop_spec {p p' : List Pbuf} {remLen : Nat} {pool pool' : Pool}
    (h : pbufAllocLoop poolBase p remLen pool = (some p', pool')) :
    ∃ qs, p' = p ++ qs ∧ totLen qs = remLen ∧ (qs.map Pbuf.element) <+: pool.tab ∧
      ∀ q ∈ qs, q = pbufOf poolBase q.element q.len ∧ q.len ≤ pbufPoolBufsize := by
  induction p, remLen, pool using pbufAllocLoop.induct poolBase with
  | case1 p remLen pool pool₁ hm =>
    rw [pbufAllocLoop, hm] at h
    cases h
  | case2 p remLen pool q pool₁ hm qlen p₁ hpos ih =>
    rw [pbufAllocLoop, hm] at h
    dsimp only at h
    rw [if_pos hpos] at h
    obtain ⟨qs, rfl, htot, hpre, hqs⟩ := ih h
    refine ⟨pbufOf poolBase q qlen :: qs, List.append_assoc .., ?_, ?_, ?_⟩
    · rw [totLen_cons, htot]
      exact Nat.add_sub_of_le (Nat.min_le_left ..)
    · rw [mempMalloc_some hm]
      exact List.cons_prefix_cons.mpr ⟨rfl, hpre⟩
    · exact List.forall_mem_cons.mpr ⟨⟨rfl, Nat.min_le_right ..⟩, hqs⟩
  | case3 p remLen pool q pool₁ hm qlen hend =>
    rw [pbufAllocLoop, hm] at h
    dsimp only at h
    rw [if_neg hend] at h
    cases h
    refine ⟨[pbufOf poolBase q qlen], rfl, ?_, ?_, ?_⟩
    · have hle : qlen ≤ remLen := Nat.min_le_left ..
      rw [totLen_cons]
      show qlen + 0 = remLen
      omega
    · rw [mempMalloc_some hm]
      exact List.cons_prefix_cons.mpr ⟨rfl, List.nil_prefix⟩
    · exact List.forall_mem_cons.mpr ⟨⟨rfl, Nat.min_le_right ..⟩, by simp⟩

/-- **The chains of the pool** have the length asked for and do not overlap. -/
theorem pbufAlloc_apart {p : List Pbuf} {length : Nat} {pool pool' : Pool}
    (hpool : pool.tab.Nodup) (h : pbufAlloc poolBase length pool = (some p, pool')) :
    totLen p = length ∧ Apart p := by
  obtain ⟨qs, hp, htot, hpre, hqs⟩ := pbufAllocLoop_spec poolBase h
  obtain rfl : p = qs := hp
  have hnodup : (p.map Pbuf.element).Nodup := hpool.sublist hpre.sublist
  refine ⟨htot, ?_⟩
  refine (List.pairwise_map.mp hnodup).imp_of_mem fun {q r} hq hr hne i hi j hj heq => ?_
  obtain ⟨hqp, hql⟩ := hqs q hq
  obtain ⟨hrp, hrl⟩ := hqs r hr
  have hqp : q.payload = poolBase + (sizeofStructPbuf + pbufPoolBufsize) * q.element +
    sizeofStructPbuf := congrArg Pbuf.payload hqp
  have hrp : r.payload = poolBase + (sizeofStructPbuf + pbufPoolBufsize) * r.element +
    sizeofStructPbuf := congrArg Pbuf.payload hrp
  simp only [sizeofStructPbuf, pbufPoolBufsize] at *
  omega

/-- The free elements are different ones, and none of them lies in `lwip_buf`. -/
structure Pool.Sound (lwipBuf : Nat) (pool : Pool) : Prop where
  nodup : pool.tab.Nodup
  outside : ∀ e ∈ pool.tab, ∀ i < pbufPoolBufsize,
    ¬ InBuf lwipBuf ((pbufOf poolBase e pbufPoolBufsize).payload + i)

/-- What `pbuf_alloc` returns is a chain for the received bytes. -/
theorem pbufAlloc_chain {lwipBuf length : Nat} {p : List Pbuf} {pool pool' : Pool}
    (hpool : pool.Sound poolBase lwipBuf) (h : pbufAlloc poolBase length pool = (some p, pool')) :
    ∃ c : InChain lwipBuf length, c.chain = p := by
  obtain ⟨htot, hapart⟩ := pbufAlloc_apart poolBase hpool.nodup h
  obtain ⟨qs, hp, -, hpre, hqs⟩ := pbufAllocLoop_spec poolBase h
  obtain rfl : p = qs := hp
  refine ⟨⟨p, fun q hq i hi => ?_, hapart, htot⟩, rfl⟩
  obtain ⟨hpbuf, hlen⟩ := hqs q hq
  have hpayload : q.payload = (pbufOf poolBase q.element pbufPoolBufsize).payload :=
    (congrArg Pbuf.payload hpbuf).trans rfl
  rw [hpayload]
  exact hpool.outside q.element (hpre.subset (List.mem_map_of_mem hq)) i
    (Nat.lt_of_lt_of_le hi hlen)

end Alloc

/-! ## `low_level_input` and `ethernetif_input` -/

/-- What `ENC28J60_Packet_Receive` returns, and what it leaves in `lwip_buf`. -/
structure Received where
  len : Nat
  packet : Nat → Byte
  fits : len ≤ maxFramelen - 1

def Received.frame (r : Received) : List Byte := bytes r.packet 0 r.len

/-- What a call of `ENC28J60_Packet_Receive` gives. -/
def Received.ofDevice (env : Env) (packet : Nat → Byte) (d : Dev) : Received where
  len := (packetReceive env (BitVec.ofNat 32 maxFramelen) packet d).1.toNat
  packet := (packetReceive env (BitVec.ofNat 32 maxFramelen) packet d).2.1
  fits := packetReceive_le env (by decide) packet d

section Fill

variable (lwipBuf : Nat)

/-- `lwip_buf` as the device left it. -/
def Received.load (r : Received) (m : Mem) : Mem := memcpy m lwipBuf r.packet lwipBufSize

/-- The copy of what was received into a chain. -/
def fill (p : List Pbuf) (r : Received) (m : Mem) : Mem :=
  scatterLoop lwipBuf p 0 (r.load lwipBuf m)

variable {lwipBuf}

theorem contents_fill (r : Received) (p : InChain lwipBuf r.len) (m : Mem) :
    contents (fill lwipBuf p.chain r m) p.chain = r.frame := by
  have hlen : r.len ≤ lwipBufSize := Nat.le_trans r.fits (by decide)
  rw [fill, scatterLoop_spec p.outside p.apart (by rw [Nat.zero_add, p.total]; exact hlen), p.total]
  refine bytes_congr fun k hk => ?_
  rw [Received.load, Nat.add_zero, Nat.zero_add,
    memcpy_inside m _ _ (Nat.lt_of_lt_of_le hk hlen)]

/-- A chain for a received frame can be sent. -/
def InChain.toOut {n : Nat} (p : InChain lwipBuf n) (h : n ≤ lwipBufSize) : OutChain lwipBuf :=
  ⟨p.chain, p.outside, by rw [p.total]; exact h⟩

/-- Sending leaves every chain as it is. -/
theorem contents_lowLevelOutput (env : Env) (q : OutChain lwipBuf) {p : List Pbuf}
    (hp : Outside lwipBuf p) (m : Mem) (d : Dev) :
    contents (lowLevelOutput lwipBuf env q.chain m d).1 p = contents m p := by
  obtain ⟨-, -, hframe⟩ :=
    gatherLoop_spec (m := m) (n := 0) q.outside (by rw [Nat.zero_add]; exact q.fits)
  exact contents_congr fun r hr i hi => hframe _ (hp r hr i hi)

/-- The replies sent while a frame is processed, one after the other. -/
def sendAll (replies : List (Env × OutChain lwipBuf)) (m : Mem) (d : Dev) : Mem × Dev :=
  replies.foldl (fun x q => lowLevelOutput lwipBuf q.1 q.2.chain x.1 x.2) (m, d)

theorem contents_sendAll (replies : List (Env × OutChain lwipBuf)) {p : List Pbuf}
    (hp : Outside lwipBuf p) (m : Mem) (d : Dev) :
    contents (sendAll replies m d).1 p = contents m p := by
  induction replies generalizing m d with
  | nil => rfl
  | cons q qs ih => exact (ih _ _).trans (contents_lowLevelOutput q.1 q.2 hp m d)

/-- The chain is the frame: it has its bytes, sending it sends the frame, and replies that
are sent meanwhile change neither. -/
structure HoldsFrame (lwipBuf : Nat) (m : Mem) (p : List Pbuf) (frame : List Byte) : Prop where
  total : totLen p = frame.length
  contents : contents m p = frame
  replies : ∀ (replies : List (Env × OutChain lwipBuf)) (d : Dev),
    EthernetifInput.contents (sendAll replies m d).1 p = frame
  sentBack : ∀ (replies : List (Env × OutChain lwipBuf)) (d : Dev) (env : Env),
    (lowLevelOutput lwipBuf env p (sendAll replies m d).1 (sendAll replies m d).2).2 =
      packetSend env frame (sendAll replies m d).2

theorem holdsFrame_fill (r : Received) (p : InChain lwipBuf r.len) (m : Mem) :
    HoldsFrame lwipBuf (fill lwipBuf p.chain r m) p.chain r.frame := by
  have hlen : r.len ≤ lwipBufSize := Nat.le_trans r.fits (by decide)
  have hreplies (replies : List (Env × OutChain lwipBuf)) (d : Dev) :
      contents (sendAll replies (fill lwipBuf p.chain r m) d).1 p.chain = r.frame :=
    (contents_sendAll replies p.outside _ d).trans (contents_fill r p m)
  refine ⟨?_, contents_fill r p m, hreplies, fun replies d env => ?_⟩
  · rw [p.total, Received.frame, length_bytes]
  · have hsent := lowLevelOutput_dev env (p.toOut hlen)
      (sendAll replies (fill lwipBuf p.chain r m) d).1
      (sendAll replies (fill lwipBuf p.chain r m) d).2
    exact hsent.trans (congrArg (fun frame => packetSend env frame _) (hreplies replies d))

end Fill

structure StatsProto where
  xmit : BitVec 16
  recv : BitVec 16
  drop : BitVec 16
  memerr : BitVec 16
  proterr : BitVec 16
  deriving DecidableEq, Repr

/-- The pbuf pool and the statistics of lwIP; `others` are those that only the
protocols above Ethernet count. -/
structure Stack (α : Type*) where
  link : StatsProto
  etharp : StatsProto
  ifinerrors : BitVec 32
  pool : Pool
  others : α

/-- What the protocols do with a frame that is longer than its Ethernet header. They
may send replies and free the chain; they do not count received frames. -/
structure Protocols (α : Type*) where
  input : List Pbuf → Mem → Stack α → ErrT × Mem × Stack α
  recv : ∀ p m s, (input p m s).2.2.link.recv = s.link.recv

/-- The memory, the stack, and the number of calls of `netif->input`. -/
structure World (α : Type*) where
  mem : Mem
  stack : Stack α
  calls : Nat

def sizeofEthHdr : Nat := 14

section Poll

variable {α : Type*} (lwipBuf poolBase : Nat) (protocols : Protocols α)

def lowLevelInput (r : Received) (m : Mem) (s : Stack α) : Option (List Pbuf) × Mem × Stack α :=
  match pbufAlloc poolBase r.len s.pool with
  | (some p, pool) =>
    (some p, fill lwipBuf p r m,
      { s with pool := pool, link := { s.link with recv := s.link.recv + 1 } })
  | (none, pool) =>
    (none, r.load lwipBuf m,
      { s with
        pool := pool
        link := { s.link with memerr := s.link.memerr + 1, drop := s.link.drop + 1 } })

/-- `ethernet_input`, the input function of the interface. -/
def ethernetInput (p : List Pbuf) (m : Mem) (s : Stack α) : ErrT × Mem × Stack α :=
  if (p.head?.map Pbuf.len).getD 0 ≤ sizeofEthHdr then
    (.ok, m,
      { s with
        etharp := { s.etharp with proterr := s.etharp.proterr + 1, drop := s.etharp.drop + 1 }
        ifinerrors := s.ifinerrors + 1
        pool := pbufFree p s.pool })
  else protocols.input p m s

def ethernetifInput (r : Received) (w : World α) : World α :=
  match lowLevelInput lwipBuf poolBase r w.mem w.stack with
  | (none, m, s) => ⟨m, s, w.calls⟩
  | (some p, m, s) =>
    let (err, m, s) := ethernetInput protocols p m s
    ⟨m, if err = .ok then s else { s with pool := pbufFree p s.pool }, w.calls + 1⟩

/-- A poll, or whatever the program does between two polls. -/
inductive Event (α : Type*) where
  | poll (r : Received)
  | between (m : Mem) (s : Stack α)

def step (w : World α) : Event α → Option (World α)
  | .poll r => some (ethernetifInput lwipBuf poolBase protocols r w)
  | .between m s => some ⟨m, s, w.calls⟩

/-- The number of frames, 0 or 1, that the stack should get from a poll. -/
def due (r : Received) (s : Stack α) : Nat :=
  if 0 < r.len ∧ (pbufAlloc poolBase r.len s.pool).1.isSome then 1 else 0

/-- A poll hands over a frame if there is one and a chain for it, counts it, and
leaves no trace if there is none. -/
structure HandsOver (w : World α) (r : Received) (w' : World α) : Prop where
  calls : w'.calls = w.calls + due poolBase r w.stack
  recv : w'.stack.link.recv = w.stack.link.recv + BitVec.ofNat 16 (due poolBase r w.stack)
  idle : r.len = 0 → w'.stack = w.stack

/-- What a poll should do; nothing is asked of other events. -/
def Exact (w : World α) (e : Event α) (w' : World α) : Prop :=
  match e with
  | .poll r => HandsOver poolBase w r w'
  | .between _ _ => True

def Event.HasFrame : Event α → Prop
  | .poll r => 0 < r.len
  | .between _ _ => True

variable {lwipBuf poolBase protocols}

theorem ethernetInput_recv (p : List Pbuf) (m : Mem) (s : Stack α) :
    (ethernetInput protocols p m s).2.2.link.recv = s.link.recv := by
  rw [ethernetInput]
  split
  · rfl
  · exact protocols.recv p m s

/-- With a chain, the frame is counted and handed over. -/
theorem ethernetifInput_some {r : Received} {w : World α} {p : List Pbuf} {pool : Pool}
    (h : pbufAlloc poolBase r.len w.stack.pool = (some p, pool)) :
    (ethernetifInput lwipBuf poolBase protocols r w).calls = w.calls + 1 ∧
      (ethernetifInput lwipBuf poolBase protocols r w).stack.link.recv =
        w.stack.link.recv + 1 := by
  rw [ethernetifInput, lowLevelInput, h]
  dsimp only
  refine ⟨rfl, ?_⟩
  split <;> exact ethernetInput_recv p _ _

theorem ethernetifInput_none {r : Received} {w : World α} {pool : Pool}
    (h : pbufAlloc poolBase r.len w.stack.pool = (none, pool)) :
    (ethernetifInput lwipBuf poolBase protocols r w).calls = w.calls ∧
      (ethernetifInput lwipBuf poolBase protocols r w).stack.link =
        { w.stack.link with
          memerr := w.stack.link.memerr + 1, drop := w.stack.link.drop + 1 } := by
  rw [ethernetifInput, lowLevelInput, h]
  exact ⟨rfl, rfl⟩

/-- **Gathering and scattering keep the bytes of a frame.** What `ENC28J60_Packet_Send`
gets is the chain, of any shape. A chain of any shape holds the frame that is copied into
it; so does the one that `low_level_input` returns, and with this one and this memory
`netif->input` is called. -/
theorem frames_preserved (m : Mem) :
    (∀ (env : Env) (p : OutChain lwipBuf) (d : Dev) (buf : Nat → Byte),
      (lowLevelOutput lwipBuf env p.chain m d).2 = packetSend env (contents m p.chain) d ∧
      (Ethernetif.lowLevelOutput env (p.chain.map fun q => bytes m q.payload q.len) buf d).2.2 =
        packetSend env (contents m p.chain) d ∧
      (contents m p.chain).length = totLen p.chain) ∧
    (∀ (r : Received) (p : InChain lwipBuf r.len),
      HoldsFrame lwipBuf (fill lwipBuf p.chain r m) p.chain r.frame) ∧
    ∀ (r : Received) (s : Stack α) (calls : Nat), s.pool.Sound poolBase lwipBuf →
      ∀ p pool', pbufAlloc poolBase r.len s.pool = (some p, pool') →
        ∃ m' s', lowLevelInput lwipBuf poolBase r m s = (some p, m', s') ∧
          HoldsFrame lwipBuf m' p r.frame ∧
          (ethernetifInput lwipBuf poolBase protocols r ⟨m, s, calls⟩).calls = calls + 1 ∧
          (ethernetifInput lwipBuf poolBase protocols r ⟨m, s, calls⟩).mem =
            (ethernetInput protocols p m' s').2.1 := by
  refine ⟨fun env p d buf => ?_, fun r p => holdsFrame_fill r p m,
    fun r s calls hpool p pool' h => ?_⟩
  · refine ⟨lowLevelOutput_dev env p m d, ?_, length_contents m p.chain⟩
    rw [← lowLevelOutput_refines, lowLevelOutput_dev]
  · obtain ⟨c, rfl⟩ := pbufAlloc_chain poolBase hpool h
    have hinput : lowLevelInput lwipBuf poolBase r m s =
        (some c.chain, fill lwipBuf c.chain r m,
          { s with pool := pool', link := { s.link with recv := s.link.recv + 1 } }) := by
      rw [lowLevelInput, h]
    refine ⟨_, _, hinput, holdsFrame_fill r c m, ?_, ?_⟩
    · rw [ethernetifInput, hinput]
    · rw [ethernetifInput, hinput]

/-- **A poll is exact** if it finds a frame, and only then. -/
theorem handsOver_iff (r : Received) (w : World α) :
    HandsOver poolBase w r (ethernetifInput lwipBuf poolBase protocols r w) ↔ 0 < r.len := by
  obtain ⟨p, pool, halloc⟩ : ∃ p pool, pbufAlloc poolBase r.len w.stack.pool = (p, pool) :=
    ⟨_, _, rfl⟩
  cases p with
  | some p =>
    obtain ⟨hcalls, hrecv⟩ := @ethernetifInput_some _ lwipBuf poolBase protocols _ _ _ _ halloc
    constructor
    · intro h
      by_contra hzero
      have hdue : due poolBase r w.stack = 0 := if_neg fun hd => hzero hd.1
      have := h.calls
      rw [hcalls, hdue] at this
      omega
    · intro hlen
      have hdue : due poolBase r w.stack = 1 := if_pos ⟨hlen, by rw [halloc]; rfl⟩
      refine ⟨by rw [hcalls, hdue], by rw [hrecv, hdue]; rfl, fun hzero => ?_⟩
      omega
  | none =>
    obtain ⟨hcalls, hlink⟩ := @ethernetifInput_none _ lwipBuf poolBase protocols _ _ _ halloc
    have hdue : due poolBase r w.stack = 0 := if_neg fun hd => by simp [halloc] at hd
    constructor
    · intro h
      by_contra hzero
      have hsame := congrArg (fun s => s.link.memerr) (h.idle (Nat.eq_zero_of_not_pos hzero))
      simp only [hlink] at hsame
      exact absurd hsame (by simp)
    · intro hlen
      refine ⟨by rw [hcalls, hdue, Nat.add_zero], ?_, fun hzero => ?_⟩
      · rw [hlink, hdue]
        exact (BitVec.add_zero _).symm
      · omega

/-- **The polls of a run**, exactly. -/
theorem polls_exact_iff (w : World α) (es : List (Event α)) :
    Along (step lwipBuf poolBase protocols) (Exact poolBase) w es ↔ ∀ e ∈ es, e.HasFrame := by
  rw [← @along_event_iff _ _ (step lwipBuf poolBase protocols) _ (fun s e => ?_) w]
  · refine along_iff (I := fun _ => True) (fun _ _ _ _ _ _ => trivial) (fun s e t _ ht => ?_) es
      trivial
    cases e with
    | between m s => exact Iff.rfl
    | poll r =>
      cases ht
      exact handsOver_iff r s
  · cases e <;> exact ⟨_, rfl⟩

end Poll

def dropAll : Protocols Unit := ⟨fun p m s => (.ok, m, { s with pool := pbufFree p s.pool }),
  fun _ _ _ => rfl⟩

/-- After start-up. -/
def quiet : World Unit :=
  ⟨fun _ => 0, ⟨⟨0, 0, 0, 0, 0⟩, ⟨0, 0, 0, 0, 0⟩, 0, ⟨List.range 10, ⟨0, 0, 0⟩⟩, ()⟩, 0⟩

/-- A frame of three bytes and its CRC. -/
def shortPacket : RxPacket := ⟨0x80, [1, 2, 3, 0, 0, 0, 0], 1⟩

/-- What a device returns that has started and taken the packet in. -/
def shortFrame : Received :=
  Received.ofDevice Ethernetif.slowEnv (fun _ => 0) (Ethernetif.started.storePacket shortPacket)

theorem shortFrame_spec : shortFrame.len = 3 ∧ shortFrame.frame = [1, 2, 3] := by
  have hstart : RxInv rxstartInit [] Ethernetif.started := by
    rcases init_spec readyEnv Ethernetif.mymac powerUp with ⟨-, h⟩ | ⟨h, -⟩
    · exact h.rxInv
    · exact absurd (Ethernetif.init_ready.symm.trans h) (by decide)
  have haccepts : Ethernetif.started.chip.core.Accepts shortPacket := by decide +kernel
  obtain ⟨hlen, hbuf, -⟩ := packetReceive_cons Ethernetif.slowEnv
    (by decide : 0 < maxFramelen) (by decide) (fun _ => 0) (hstart.store haccepts)
  have hthree : shortFrame.len = 3 := by
    rw [shortFrame, Received.ofDevice]
    dsimp only
    rw [hlen]
    decide
  have hpacket : shortFrame.packet = shortPacket.buffer maxFramelen fun _ => 0 := by
    rw [shortFrame, Received.ofDevice]
    dsimp only
    rw [hbuf]
  refine ⟨hthree, ?_⟩
  rw [Received.frame, hthree, hpacket]
  decide

/-- The chain for it is one element of the pool. -/
theorem frames_preserved_short : ∃ m' s',
    lowLevelInput 0 4000 shortFrame (fun _ => 0) quiet.stack =
      (some [pbufOf 4000 0 3], m', s') ∧
      HoldsFrame 0 m' [pbufOf 4000 0 3] [1, 2, 3] := by
  obtain ⟨hlen, hframe⟩ := shortFrame_spec
  have hsound : quiet.stack.pool.Sound 4000 0 := by
    refine ⟨List.nodup_range, fun e _ i _ hin => ?_⟩
    simp only [InBuf, pbufOf, lwipBufSize, sizeofStructPbuf, pbufPoolBufsize] at hin
    omega
  have halloc : pbufAlloc 4000 shortFrame.len quiet.stack.pool =
      (some [pbufOf 4000 0 3], ⟨[1, 2, 3, 4, 5, 6, 7, 8, 9], ⟨0, 1, 1⟩⟩) := by
    rw [hlen, pbufAlloc, pbufAllocLoop]
    rfl
  obtain ⟨m', s', hinput, hholds, -⟩ :=
    (@frames_preserved _ 0 4000 dropAll fun _ => 0).2.2 shortFrame quiet.stack 0 hsound _ _ halloc
  exact ⟨m', s', hinput, hframe ▸ hholds⟩

def emptyPoll : Received := ⟨0, fun _ => 0, by decide⟩

/-- An idle poll hands an empty chain to the stack, which is counted as a received
frame and as a protocol error. -/
theorem idle_poll_handed_over :
    ¬ Along (step 0 4000 dropAll) (Exact 4000) quiet [.poll emptyPoll] ∧
      (ethernetifInput 0 4000 dropAll emptyPoll quiet).calls = 1 ∧
      (ethernetifInput 0 4000 dropAll emptyPoll quiet).stack.link.recv = 1 ∧
      (ethernetifInput 0 4000 dropAll emptyPoll quiet).stack.etharp.proterr = 1 := by
  have halloc : pbufAlloc 4000 emptyPoll.len quiet.stack.pool =
      (some [pbufOf 4000 0 0], ⟨[1, 2, 3, 4, 5, 6, 7, 8, 9], ⟨0, 1, 1⟩⟩) := by
    rw [pbufAlloc, pbufAllocLoop]
    rfl
  obtain ⟨hcalls, hrecv⟩ := @ethernetifInput_some _ 0 _ dropAll _ _ _ _ halloc
  refine ⟨fun h => ?_, hcalls, hrecv, ?_⟩
  · exact absurd ((handsOver_iff emptyPoll quiet).mp (h _ rfl).1) (by decide)
  · rw [ethernetifInput, lowLevelInput, halloc]
    rfl

end MqttDevice.EthernetifInput
