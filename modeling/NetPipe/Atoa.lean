/-
  `mpi_atoa.c`: the all-to-all module.

  Every rank is transmitter or receiver: rank 0 is the one, all others are the other.  Buffers hold
  a block for every rank, and a transfer is one `MPI_Alltoall`, by whichever of `SendData` and
  `RecvData` it is made.  `CheckBufferData` is not defined for collectives (the generic one is
  left out by `COLLECTIVES`), so what it does is a parameter of the module.

  1. **The functions** of the module, over the collectives of `NetPipe.Collectives`.  `Init` is
     where ranks get their roles, and where too few or too many of them are refused.

  2. **How large the buffers are** (`large_enough_iff`).  `MyMalloc` and `InitBufferData` multiply
     the length of a block by the number of ranks, both of them ints.  The product wraps around,
     to a negative number, to a small positive one or to 0; it is exact just where it is below `2
     ^ 31` (`nbytes1_exact_iff`).  Where it is, both buffers have all blocks; where it is not,
     `malloc` may still give something, and the buffers are short.
-/
import NetPipe.Buffers
import NetPipe.Collectives

namespace NetPipe.Atoa

open Memory Process Ranks Mpi

def MAXPROCS : Int := 2048

/-- The protocol structure, as far as this module uses it. -/
structure Prot where
  iproc : Int
  nprocs : Int
  deriving DecidableEq, Repr

abbrev Host := Netpipe Prot

abbrev Prog (α : Type) := MpiProg Event α

/-! ## The functions -/

/-- `Init`, where `MPI_Comm_rank` and `MPI_Comm_size` give these. -/
def init (h : Host) (iproc nprocs : Int) : Prog Host :=
  let h := { h with args.prot := Prot.mk iproc nprocs, args.sourceNode := 0 }
  let h :=
    if iproc = 0 then { h with args.tr := true, args.rcv := false }
    else { h with args.tr := false, args.rcv := true }
  if iproc = 0 ∨ iproc = nprocs - 1 then
    if nprocs < 2 then
      .exit (-1) s!"Need at least two processes (given only {nprocs}) \n"
    else if MAXPROCS < nprocs then
      .exit (-2) s!"Requested {nprocs} exceededs compile-time max of {MAXPROCS}\n"
    else .ret h
  else .ret h

/-- `Sync`. -/
def sync (h : Host) : Prog Host :=
  .io (.coll .barrier) fun _ => .ret h

/-- `SendData`: the library reads a block for every rank at `s_ptr` and writes as much at
    `r_ptr`. -/
def sendData (h : Host) : Prog Host := do
  let sendbuf ← Proc.ofOption
    (h.heap.load h.args.sPtr (h.args.prot.nprocs * h.args.bufflen).toNat)
  .io (.coll (.alltoall h.args.bufflen sendbuf)) fun recvbuf => do
    let heap ← Proc.ofOption (h.heap.store h.args.rPtr recvbuf)
    .ret { h with heap }

/-- `RecvData` makes the same call. -/
def recvData (h : Host) : Prog Host := sendData h

/-- `SendRepeat`. -/
def sendRepeat (h : Host) (nrepeat : UInt32) : Prog Host :=
  .io (.coll (.bcast h.args.sourceNode 1 (some nrepeat))) fun _ => .ret h

/-- `RecvRepeat`. -/
def recvRepeat (h : Host) : Prog (UInt32 × Host) :=
  .io (.coll (.bcast h.args.sourceNode 1 none)) fun nrepeat => .ret (nrepeat, h)

/-- `memset(s, c, n)`. -/
def memset (c : UInt8) (n : Nat) (s : List UInt8) : Option (List UInt8 × Unit) :=
  (storeAt s 0 (List.replicate n c)).map fun s => (s, ())

/-- `buff[i] = c`. -/
def storeChar (heap : Heap) (buff : Ptr) (i : Int) (c : UInt8) : Option Heap :=
  if i < 0 then none else heap.store (buff.add i.toNat) [c]

/-- `nbytes1`, and `bufflen1`: the blocks of all ranks, as an `int`. -/
def nbytes1 (h : Host) (nbytes : Int) : Int := wrap32 (nbytes * h.args.prot.nprocs)

/-- `InitBufferData(p, nbytes, soffset, roffset)`; the offsets are overwritten with 0. -/
def initBufferData (h : Host) (nbytes _soffset _roffset : Int) : Prog Host := do
  let soffset : Int := 0
  let roffset : Int := 0
  let nprocs := h.args.prot.nprocs
  let (heap, _) ← Proc.ofOption (h.heap.modify h.args.rBuff
    (memset 97 (toSizeT (wrap32 (nbytes1 h nbytes + max soffset roffset)))))
  if h.args.cache then do
    let heap ←
      if h.args.tr then
        Proc.ofOption ((List.range nprocs.toNat).foldlM (fun heap i => storeChar heap h.args.rBuff
          (wrap32 (nbytes * (i + 1) + max soffset roffset - 1)) 98) heap)
      else .ret heap
    let heap ←
      if h.args.rcv then
        Proc.ofOption
          (storeChar heap h.args.rBuff (wrap32 (nbytes + max soffset roffset - 1)) 98)
      else .ret heap
    .ret { h with heap }
  else do
    let (heap, _) ← Proc.ofOption (heap.modify h.args.sBuff
      (memset 98 (toSizeT (wrap32 (nbytes + soffset)))))
    .ret { h with heap }

/-- `MyMalloc(p, bufflen, soffset, roffset)`; the offsets are overwritten with 0. -/
def myMalloc (h : Host) (bufflen _soffset _roffset : Int) : Prog Host :=
  let soffset : Int := 0
  let roffset : Int := 0
  let bufflen1 := nbytes1 h bufflen
  let msg := s!" Could not allocate memory for the recv buffer, Proc ID = {h.args.prot.iproc}\n"
  .malloc (toSizeT (wrap32 (bufflen1 + max soffset roffset))) fun
    | none => .exit (-2) msg
    | some bs =>
      let (rBuff, heap) := h.heap.alloc bs
      let h := { h with heap, args.rBuff := rBuff }
      if h.args.cache then .ret h
      else .malloc (toSizeT (wrap32 (bufflen1 + soffset))) fun
        | none => .exit (-2) msg
        | some bs =>
          let (sBuff, heap) := h.heap.alloc bs
          .ret { h with heap, args.sBuff := sBuff }

/-- `FreeBuff(buff1, buff2)`. -/
def freeBuff (h : Host) (buff1 buff2 : Ptr) : Prog Host := do
  let heap ← Proc.ofOption (if buff1 = .null then some h.heap else h.heap.free buff1)
  let heap ← Proc.ofOption (if buff2 = .null then some heap else heap.free buff2)
  .ret { h with heap }

/-- The module, with a given `CheckBufferData`. -/
def atoa (checkBufferData : Host → Int → Int → Int → Prog Host) :
    Module (RankOp Msg Coll) (RankOp.Res Coll.Res) Prot where
  sendRepeat
  recvRepeat
  myMalloc
  initBufferData
  afterAlignmentInit h := .ret h
  prepareToReceive h := .ret h
  sync
  sendData
  recvData
  checkBufferData
  freeBuff

/-- The `Netpipe` object of rank `iproc`, after `Init`. -/
def host (order : ByteOrder) (iproc nprocs : Int) : Host :=
  let h := netpipeObject order (Prot.mk iproc nprocs) none
  { h with args.tr := iproc = 0, args.rcv := iproc ≠ 0 }

/-- `Init` accepts two to `MAXPROCS` ranks, and leaves every other field alone. -/
theorem init_eq (order : ByteOrder) (prot : Prot) {iproc nprocs : Int}
    (h : 2 ≤ nprocs ∧ nprocs ≤ MAXPROCS) :
    init (netpipeObject order prot none) iproc nprocs = .ret (host order iproc nprocs) := by
  have hlow : ¬ nprocs < 2 := by omega
  have hhigh : ¬ MAXPROCS < nprocs := by omega
  unfold init host
  by_cases hi : iproc = 0
  · simp [hi, hlow, hhigh, netpipeObject]
  · simp [hi, hlow, hhigh, netpipeObject]

/-! ## How large the buffers are -/

section size

variable {check : Host → Int → Int → Int → Prog Host} {h : Host} {n : Nat}

/-- A product of lengths is exact where it is in range. -/
theorem nbytes1_exact_iff (hn : 0 ≤ h.args.prot.nprocs) :
    nbytes1 h n = n * h.args.prot.nprocs ↔ (n : Int) * h.args.prot.nprocs < 2 ^ 31 := by
  have hnonneg : 0 ≤ (n : Int) * h.args.prot.nprocs := Int.mul_nonneg (by omega) hn
  constructor
  · intro heq
    have hlt : nbytes1 h n < 2 ^ 31 := by
      have := Int.bmod_lt (x := (n : Int) * h.args.prot.nprocs) (m := 2 ^ 32) (by decide)
      exact lt_of_lt_of_le this (by decide)
    rwa [heq] at hlt
  · exact fun hlt => wrap32_eq hnonneg hlt

/-- Both buffers are in place, a block of `n` bytes for each rank, with contents `r` and `s`.  It is
    the counterpart of `Armed`, and what a wrapped product fails to give. -/
structure Placed (h : Host) (n : Nat) (r s : List UInt8) : Prop where
  bufflen : h.args.bufflen = n
  length_r : (r.length : Int) = h.args.prot.nprocs * n
  length_s : (s.length : Int) = h.args.prot.nprocs * n
  blocks : ∃ i j, i ≠ j ∧ h.heap.block i = some r ∧ h.heap.block j = some s ∧
    h.args.rBuff = .addr i 0 ∧ h.args.rPtr = .addr i 0 ∧ h.args.rBuffOrig = .addr i 0 ∧
    h.args.sBuff = .addr j 0 ∧ h.args.sPtr = .addr j 0 ∧ h.args.sBuffOrig = .addr j 0

/-- The length of a buffer, as `malloc` and `memset` are given it. -/
theorem toSizeT_nbytes1 (hn : 0 ≤ h.args.prot.nprocs)
    (hlt : (n : Int) * h.args.prot.nprocs < 2 ^ 31) :
    (toSizeT (wrap32 (nbytes1 h n + 0)) : Int) = h.args.prot.nprocs * n := by
  have hnonneg : 0 ≤ (n : Int) * h.args.prot.nprocs := Int.mul_nonneg (by omega) hn
  rw [(nbytes1_exact_iff hn).mpr hlt, add_zero, wrap32_eq hnonneg hlt, toSizeT_eq hnonneg hlt,
    Int.toNat_of_nonneg hnonneg, Int.mul_comm]

variable {S : Type} {H : Handler (RankOp Msg Coll) (RankOp.Res Coll.Res) Event S} {st : S}

/-- `allocRun`, where the product is in range. -/
theorem wp_allocRun (hH : Sane H) (hcache : h.args.cache = false)
    {size nrepeat : UInt32} {Q : Host → S → Prop} (hn : 0 ≤ h.args.prot.nprocs)
    (hlt : (nbytes size : Int) * h.args.prot.nprocs < 2 ^ 31)
    (hQ : H.emit (.mark (.params size (bytesOf size) nrepeat)) st fun st =>
      H.emit (.mark .myMalloc) st fun st => ∀ h' r s, h'.settings = h.settings →
        h'.args.prot = h.args.prot → h'.args.sourceNode = h.args.sourceNode →
        Placed h' (nbytes size) r s → Q h' st) :
    wp H (allocRun (atoa check) h size nrepeat) Q st := by
  have hlen := toSizeT_nbytes1 hn hlt
  unfold allocRun
  refine H.emit_mono (fun st hst => ?_) hQ
  simp only [Proc.bind_eq, Proc.bind, atoa, myMalloc, toInt32_bytesOf]
  intro m hm
  cases m with
  | none => exact hH.alloc_fail hm _ _ _
  | some r =>
    have hr : (r.length : Int) = h.args.prot.nprocs * nbytes size := by
      rw [hH.alloc_length hm]
      exact hlen
    simp only [Heap.alloc, hcache]
    intro m hm
    cases m with
    | none => exact hH.alloc_fail hm _ _ _
    | some s =>
      have hs : (s.length : Int) = h.args.prot.nprocs * nbytes size := by
        rw [hH.alloc_length hm]
        exact hlen
      refine H.emit_mono (fun st hst => ?_) hst
      refine hst _ r s ?_ rfl rfl ⟨rfl, hr, hs, h.heap.next, h.heap.next + 1, by omega, ?_⟩
      · simp [Netpipe.settings, hcache]
      · simp [Function.update_of_ne]

/-- The buffers hold what `MPI_Alltoall` reads and writes. -/
theorem Placed.load_ptrs {r s : List UInt8} (hh : Placed h n r s) :
    h.heap.load h.args.rPtr (h.args.prot.nprocs * n).toNat = some r ∧
      h.heap.load h.args.sPtr (h.args.prot.nprocs * n).toNat = some s := by
  obtain ⟨i, j, -, hi, hj, -, hr, -, -, hs, -⟩ := hh.blocks
  have hlr := hh.length_r
  have hls := hh.length_s
  constructor
  · rw [hr, ← hlr, Int.toNat_natCast, Heap.load_addr hi (by omega), List.drop_zero,
      List.take_length]
  · rw [hs, ← hls, Int.toNat_natCast, Heap.load_addr hj (by omega), List.drop_zero,
      List.take_length]

/-- Nothing is called, and `malloc` gives any block of the length asked for, or nothing. -/
def allocating (Op : Type) (Res : Op → Type) : Env Op Res Event Unit where
  emit _ _ := ()
  alloc n r := ∀ bs, r = some bs → bs.length = n
  answer _ _ _ _ := False

/-- The product `MyMalloc` and `InitBufferData` compute is exact, and whenever `MyMalloc` returns,
    what `MPI_Alltoall` reads and writes is inside the buffers. -/
structure LargeEnough (check : Host → Int → Int → Int → Prog Host) (h : Host)
    (size nrepeat : UInt32) : Prop where
  exact_product : nbytes1 h (nbytes size) = nbytes size * h.args.prot.nprocs
  holds : ∀ h' st,
    Exec (allocating _ _) (allocRun (atoa check) h size nrepeat) () (.returned h') st →
      (h'.heap.load h'.args.rPtr (h.args.prot.nprocs * nbytes size).toNat).isSome ∧
        (h'.heap.load h'.args.sPtr (h.args.prot.nprocs * nbytes size).toNat).isSome

theorem sane_allocating (Op : Type) (Res : Op → Type) :
    Sane ((allocating Op Res).handler True) where
  alloc_length h := h _ rfl
  alloc_fail _ := fun _ _ _ => trivial

/-- **The buffers are large enough** exactly where the blocks of all ranks together have fewer than
    `2 ^ 31` bytes. -/
theorem large_enough_iff (check : Host → Int → Int → Int → Prog Host) {h : Host}
    {size nrepeat : UInt32} (hcache : h.args.cache = false)
    (hprocs : 2 ≤ h.args.prot.nprocs ∧ h.args.prot.nprocs ≤ MAXPROCS) :
    LargeEnough check h size nrepeat ↔ (nbytes size : Int) * h.args.prot.nprocs < 2 ^ 31 := by
  have hn : 0 ≤ h.args.prot.nprocs := by omega
  constructor
  · exact fun hlarge => (nbytes1_exact_iff hn).mp hlarge.exact_product
  · intro hlt
    refine ⟨(nbytes1_exact_iff hn).mpr hlt, ?_⟩
    intro h' st hexec
    have hwp : wp ((allocating _ _).handler True) (allocRun (atoa check) h size nrepeat)
        (fun h' _ => h'.args.prot = h.args.prot ∧ ∃ r s, Placed h' (nbytes size) r s) () :=
      wp_allocRun (sane_allocating _ _) hcache hn hlt
        fun h' r s _ hprot _ hh => ⟨hprot, r, s, hh⟩
    obtain ⟨hprot, r, s, hh⟩ := hexec.returned hwp
    obtain ⟨hr, hs⟩ := hh.load_ptrs
    rw [← hprot, hr, hs]
    exact ⟨rfl, rfl⟩

end size

/-- A `CheckBufferData` that does nothing. -/
def noCheck (h : Host) (_nbytes _soffset _roffset : Int) : Prog Host := .ret h

/-- Eight bits on two ranks. -/
theorem large_enough_oneByte : LargeEnough noCheck (host .little 0 2) 8 1 :=
  (large_enough_iff noCheck rfl (by decide)).mpr (by decide)

/-- Sixteen ranks and the largest size: the product is `2 ^ 32`, `malloc` is asked for no bytes at
    all, and `MPI_Alltoall` reads the first one already past the end of the send buffer. -/
theorem short_buffers :
    ¬ LargeEnough noCheck (host .little 0 16) 2147483647 1 ∧
      ∃ h' st, Exec (allocating _ _) (allocRun (atoa noCheck) (host .little 0 16) 2147483647 1) ()
        (.returned h') st ∧ h'.heap.load h'.args.sPtr 1 = none := by
  constructor
  · intro h
    exact absurd ((nbytes1_exact_iff (by decide)).mp h.exact_product) (by decide)
  · have hempty : (allocating (RankOp Msg Coll) (RankOp.Res Coll.Res)).alloc
        (toSizeT (wrap32 (nbytes1 (host .little 0 16) (toInt32 (bytesOf 2147483647)) + 0)))
        (some []) := by
      rintro _ ⟨⟩
      decide
    exact ⟨_, _, .emit (.malloc hempty (.malloc hempty (.emit .ret))), rfl⟩

end NetPipe.Atoa
