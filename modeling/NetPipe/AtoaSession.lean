/-
  `mpi_atoa.c`: the collectives of a session match.

  Every rank calls `run_iters` the same number of times, rank 0 with sizes and repeat counts and the
  others with nothing.  The two sides take different ways through `run_iters`: rank 0 broadcasts
  and exchanges with `SendData` first, the others are broadcast to and exchange with `RecvData`
  first.  They meet in the same rounds: two broadcasts, a barrier, and two exchanges for every
  iteration (`runRounds`).

  1. **The buffer functions** on buffers that hold a block for every rank.

  2. **Each rank keeps to the rounds** of its runs (`keeps_session`), one call at a time.  What is
     said of a rank in between is `IsRank`; its buffers are `Placed`.  The two ways through the
     loop come to the same exchanges (`keeps_timedLoop`), as both functions make the same call.

  3. **All of them** (`collectives_match`): the ranks call the same collectives in the same order,
     with the same roots and counts, nobody waits for ever, and every rank is handed back the size
     and the repeat count of rank 0.  That is `Choreo.completes`, for any number of ranks.

  4. **Refused arguments** (`refused_ends`): rank 0 has an exception before it has broadcast
     anything, and everybody else waits for a size (`awaitsSize`).
-/
import NetPipe.Atoa

namespace NetPipe.Atoa

open Memory Process Ranks Mpi Choreo

/-! ## The buffers -/

section buffers

variable {h : Host} {n : Nat} {r s : List UInt8}

theorem memset_eq (c : UInt8) {k : Nat} {s : List UInt8} (hk : k ≤ s.length) :
    memset c k s = some (List.replicate k c ++ s.drop k, ()) := by
  rw [memset, storeAt, if_pos (by simpa using hk)]
  simp

/-- A buffer has a block for every rank. -/
theorem Placed.le_length (hh : Placed h n r s) (hprocs : 1 ≤ h.args.prot.nprocs) :
    n ≤ s.length := by
  have hlen := hh.length_s
  have hle : (n : Int) * 1 ≤ n * h.args.prot.nprocs :=
    Int.mul_le_mul_of_nonneg_left hprocs (Int.natCast_nonneg n)
  rw [Int.mul_comm h.args.prot.nprocs] at hlen
  omega

/-- **`InitBufferData`**: the receive buffer is filled, and one block of the send buffer. -/
theorem initBufferData_eq (hh : Placed h n r s) (hcache : h.args.cache = false) (hn : n < 2 ^ 31)
    (hprocs : 1 ≤ h.args.prot.nprocs) (hlt : (n : Int) * h.args.prot.nprocs < 2 ^ 31) :
    ∃ h', initBufferData h n 0 0 = .ret h' ∧ Same h h' ∧
      Placed h' n (List.replicate r.length 97) (List.replicate n 98 ++ s.drop n) := by
  obtain ⟨i, j, hij, hi, hj, hrb, hrp, hro, hsb, hsp, hso⟩ := hh.blocks
  have hle := hh.le_length hprocs
  have hlen_r : toSizeT (wrap32 (nbytes1 h n + max 0 0)) = r.length := by
    have hlen := toSizeT_nbytes1 (h := h) (n := n) (by omega) hlt
    rw [← hh.length_r] at hlen
    exact Int.ofNat_inj.mp hlen
  have hlen_s : toSizeT (wrap32 ((n : Int) + 0)) = n := by simpa using toSizeT_length hn
  have hset_r := memset_eq 97 (Nat.le_refl r.length)
  rw [List.drop_length, List.append_nil] at hset_r
  have hmod_r := Heap.modify_addr hi hset_r
  have hj' : (Heap.mk h.heap.next
      (Function.update h.heap.block i (some (List.replicate r.length 97)))).block j = some s :=
    (Function.update_of_ne hij.symm _ _).trans hj
  have hmod_s := Heap.modify_addr hj' (memset_eq 98 hle)
  unfold initBufferData
  simp only [hlen_r, hlen_s, hrb, hmod_r, Proc.ofOption, Proc.bind_eq, Proc.bind, hcache,
    Bool.false_eq_true, if_false, hsb, hmod_s]
  refine ⟨_, rfl, ⟨by simp [Netpipe.settings, hcache], rfl, rfl⟩, hh.bufflen, ?_, ?_, i, j, hij,
    ?_⟩
  · simpa using hh.length_r
  · have hlen := hh.length_s
    simp only [List.length_append, List.length_replicate, List.length_drop]
    omega
  · simp [Function.update_of_ne hij, hrb, hrp, hro, hsb, hsp, hso]

/-- A receive buffer of the same length. -/
theorem Placed.store_rPtr {bs : List UInt8} (hh : Placed h n r s) (hlen : bs.length = r.length) :
    ∃ heap, h.heap.store h.args.rPtr bs = some heap ∧ Placed { h with heap } n bs s := by
  obtain ⟨i, j, hij, hi, hj, hrb, hrp, hrest⟩ := hh.blocks
  have hi' : h.heap.block i = some ([] ++ (r ++ [])) := by rw [hi, List.nil_append, List.append_nil]
  have hstore := @Heap.store_addr h.heap i [] bs r [] 0 hi' rfl hlen
  rw [hrp]
  refine ⟨_, hstore, hh.bufflen, ?_, hh.length_s, i, j, hij, ?_, ?_, hrb, hrp, hrest⟩
  · rw [hlen]
    exact hh.length_r
  · rw [List.nil_append, List.append_nil]
    exact Function.update_self ..
  · exact (Function.update_of_ne hij.symm _ _).trans hj

/-- **`SendData`** exchanges the send buffers, and what comes in is the receive buffer. -/
theorem wp_sendData {S : Type} {H : Handler (RankOp Msg Coll) (RankOp.Res Coll.Res) Event S}
    {st : S} {Q : Host → S → Prop} (hh : Placed h n r s)
    (hQ : H.io (.coll (.alltoall n s)) st fun bs st => (bs.length : Int) = h.args.prot.nprocs * n ∧
      ∀ h', Same h h' → Placed h' n bs s → Q h' st) :
    wp H (sendData h) Q st := by
  unfold sendData
  rw [hh.bufflen, hh.load_ptrs.2]
  refine H.io_mono (fun (bs : List UInt8) st hst => ?_) hQ
  obtain ⟨hlen, hQ⟩ := hst
  have hlen' : bs.length = r.length := Int.ofNat_inj.mp (hlen.trans hh.length_r.symm)
  obtain ⟨heap, hstore, hh'⟩ := hh.store_rPtr hlen'
  show wp H ((Proc.ofOption (h.heap.store h.args.rPtr bs)).bind fun heap => .ret { h with heap })
    Q st
  rw [hstore]
  exact hQ _ ⟨rfl, rfl, rfl⟩ hh'

/-- `FreeBuff` on the two original buffers. -/
theorem freeBuff_eq (hh : Placed h n r s) :
    ∃ h', freeBuff h h.args.sBuffOrig h.args.rBuffOrig = .ret h' ∧ Same h h' := by
  obtain ⟨i, j, hij, hi, hj, -, -, hr, -, -, hs⟩ := hh.blocks
  have hi' : (Function.update h.heap.block j none) i = some r := by
    rw [Function.update_of_ne hij, hi]
  unfold freeBuff
  simp only [hr, hs, reduceCtorEq, if_false, Heap.free, hj, hi', Proc.ofOption, Proc.bind_eq,
    Proc.bind]
  exact ⟨_, rfl, rfl, rfl, rfl⟩

end buffers

/-! ## The rounds of a run -/

/-- `CheckBufferData` makes no collective call: it prints, and returns having changed `lfsr_data`
    at most. -/
inductive Quiet {α : Type} : Prog α → α → Prop where
  | ret (a) : Quiet (.ret a) a
  | emit {e k a} : Quiet k a → Quiet (.emit e k) a

/-- Every call of it does. -/
def Harmless (check : Host → Int → Int → Int → Prog Host) : Prop :=
  ∀ h nbytes soffset roffset, ∃ lfsrData,
    Quiet (check h nbytes soffset roffset) { h with lfsrData }

section rounds

variable {n : Nat} (cap : ℕ∞)

/-- `MPI_Alltoall` of blocks of `count` bytes. -/
def exchangeRound (n : Nat) (cap : ℕ∞) (count : Nat) : Round (communicator n cap) :=
  alltoallRound cap count (fun _ bs => bs.length = n * count) (fun _ bs => bs.length = n * count)
    fun _ hbufs _ => exchanged_length hbufs

/-- What the ranks do together in one run. -/
def runRounds (root : Fin n) (size nrepeat : UInt32) : List (Round (communicator n cap)) :=
  [bcastRound cap root size, bcastRound cap root nrepeat, barrierRound n cap] ++
    List.replicate (2 * nrepeat.toNat) (exchangeRound n cap (nbytes size))

/-- The calls of one run. -/
def runKinds (size nrepeat : UInt32) : List Kind :=
  [.bcast 0 1, .bcast 0 1, .barrier] ++
    List.replicate (2 * nrepeat.toNat) (.alltoall (nbytes size))

/-- Rank `i` of `n`, after `Init`.  No function of the module changes any of this, so it holds all
    along the session. -/
structure IsRank (h : Host) (n : Nat) (i : Fin n) : Prop where
  cache : h.args.cache = false
  tr : h.args.tr = decide ((i : Nat) = 0)
  rcv : h.args.rcv = decide ((i : Nat) ≠ 0)
  asyncReceive : h.asyncReceive = false
  nprocs : h.args.prot.nprocs = n
  sourceNode : h.args.sourceNode = 0

theorem IsRank.same {h h' : Host} {i : Fin n} (hh : IsRank h n i) (hsame : Same h h') :
    IsRank h' n i :=
  ⟨(congrArg Settings.cache hsame.settings).trans hh.cache,
    (congrArg Settings.tr hsame.settings).trans hh.tr,
    (congrArg Settings.rcv hsame.settings).trans hh.rcv,
    (congrArg Settings.asyncReceive hsame.settings).trans hh.asyncReceive,
    (congrArg Prot.nprocs hsame.prot).trans hh.nprocs, hsame.sourceNode.trans hh.sourceNode⟩

/-- Rank 0 transmits. -/
theorem IsRank.root {h : Host} {i : Fin n} (hh : IsRank h n i) (hi : (i : Nat) = 0) :
    h.args.tr = true ∧ h.args.rcv = false := by
  rw [hh.tr, hh.rcv]
  simp [hi]

/-- And all others receive. -/
theorem IsRank.other {h : Host} {i : Fin n} (hh : IsRank h n i) (hi : (i : Nat) ≠ 0) :
    h.args.tr = false ∧ h.args.rcv = true := by
  rw [hh.tr, hh.rcv]
  simp [hi]

theorem isRank_host (order : ByteOrder) (i : Fin n) : IsRank (host order i n) n i :=
  ⟨rfl, by simp [host], by simp [host], rfl, rfl, rfl⟩

end rounds

/-! ## Each rank keeps to them -/

section keeps

variable {n : Nat} {cap : ℕ∞} {idle : Idle n Msg Coll} {i : Fin n} {h : Host}
  {check : Host → Int → Int → Int → Prog Host} {m : Nat} {r s : List UInt8}
  {rest : List (Part Msg (communicator n cap))}

theorem wp_quiet {p : Prog Host} {a : Host} (hp : Quiet p a)
    {Q : Host → List (Part Msg (communicator n cap)) → Prop} (hQ : Q a rest) :
    wp (rankHandler cap idle i) p Q rest := by
  induction hp with
  | ret a => exact hQ
  | emit _ ih => exact ih hQ

variable {Q : Host → List (Part Msg (communicator n cap)) → Prop}

/-- One exchange. -/
theorem keeps_sendData (hrank : IsRank h n i) (hh : Placed h m r s)
    (hQ : ∀ h' r', Same h h' → Placed h' m r' s → Q h' rest) :
    wp (rankHandler cap idle i) (sendData h) Q (.round (exchangeRound n cap m) :: rest) := by
  have hlen : s.length = n * m := by
    have hlen := hh.length_s
    rw [hrank.nprocs] at hlen
    exact_mod_cast hlen
  refine wp_sendData hh (handler_coll ⟨s, rfl, hlen⟩ ?_)
  intro bs hbs
  refine ⟨?_, fun h' hsame hh' => hQ h' bs hsame hh'⟩
  rw [hrank.nprocs]
  exact_mod_cast hbs

theorem keeps_sendMarked (hrank : IsRank h n i) (hh : Placed h m r s)
    (hQ : ∀ h' r', Same h h' → Placed h' m r' s → Q h' rest) :
    wp (rankHandler cap idle i) (sendMarked (atoa check) h) Q
      (.round (exchangeRound n cap m) :: rest) :=
  keeps_sendData hrank hh hQ

theorem keeps_recvMarked (hrank : IsRank h n i) (hh : Placed h m r s)
    (hQ : ∀ h' r', Same h h' → Placed h' m r' s → Q h' rest) :
    wp (rankHandler cap idle i) (recvMarked (atoa check) h) Q
      (.round (exchangeRound n cap m) :: rest) :=
  wp_bind (keeps_sendData hrank hh hQ)

/-- **The timed loop**, by induction on the iterations to go. -/
theorem keeps_timedLoop (k : Nat) : ∀ (h : Host) (r : List UInt8), IsRank h n i →
    Placed h m r s → (∀ h' r', Same h h' → Placed h' m r' s → Q h' rest) →
    wp (rankHandler cap idle i) (timedLoop (atoa check) k h) Q
      (List.replicate (2 * k) (.round (exchangeRound n cap m)) ++ rest) := by
  induction k with
  | zero => exact fun h r _ hh hQ => hQ h r .rfl hh
  | succ k ih =>
    intro h r hrank hh hQ
    rw [Nat.mul_succ, List.replicate_succ, List.replicate_succ, List.cons_append,
      List.cons_append, timedLoop]
    simp only [Proc.bind_eq]
    split
    · refine wp_bind (keeps_sendMarked hrank hh ?_)
      intro h₁ r₁ hsame₁ hh₁
      have hrank₁ := hrank.same hsame₁
      refine wp_bind (keeps_recvMarked hrank₁ hh₁ ?_)
      intro h₂ r₂ hsame₂ hh₂
      refine ih h₂ r₂ (hrank₁.same hsame₂) hh₂ ?_
      intro h₃ r₃ hsame₃ hh₃
      exact hQ h₃ r₃ ((hsame₁.trans hsame₂).trans hsame₃) hh₃
    · refine wp_bind (keeps_recvMarked hrank hh ?_)
      intro h₁ r₁ hsame₁ hh₁
      have hrank₁ := hrank.same hsame₁
      refine wp_bind (keeps_sendMarked hrank₁ hh₁ ?_)
      intro h₂ r₂ hsame₂ hh₂
      refine ih h₂ r₂ (hrank₁.same hsame₂) hh₂ ?_
      intro h₃ r₃ hsame₃ hh₃
      exact hQ h₃ r₃ ((hsame₁.trans hsame₂).trans hsame₃) hh₃

variable {size nrepeat : UInt32} {Q : PyResult × Host → List (Part Msg (communicator n cap)) → Prop}

/-- The end of `run_iters`. -/
theorem keeps_closeRun (hcheck : Harmless check) (hrank : IsRank h n i) (hh : Placed h m r s)
    {t₀ : Nat}
    (hQ : ∀ h' t, Same h h' → Q (.tuple (toInt32 size) (toInt32 nrepeat) t, h') rest) :
    wp (rankHandler cap idle i) (closeRun (atoa check) h size nrepeat t₀) Q rest := by
  intro t
  obtain ⟨d, hquiet⟩ := hcheck h h.args.bufflen 0 0
  refine wp_bind (wp_quiet hquiet ?_)
  have hh' : Placed { h with lfsrData := d } m r s :=
    ⟨hh.bufflen, hh.length_r, hh.length_s, hh.blocks⟩
  obtain ⟨h', hfree, hsame⟩ := freeBuff_eq hh'
  simp only [hrank.cache, Bool.false_eq_true, if_false, Proc.bind_eq]
  show wp _ ((freeBuff _ _ _).bind _) Q rest
  rw [hfree]
  exact hQ h' _ ⟨hsame.settings, hsame.prot, hsame.sourceNode⟩

/-- **`run_iters`** from the allocation on: a barrier and the exchanges. -/
theorem keeps_runBody (hcheck : Harmless check) (hrank : IsRank h n i) (hn : 1 ≤ n)
    (hlt : nbytes size * n < 2 ^ 31)
    (hQ : ∀ h' t, Same h h' → Q (.tuple (toInt32 size) (toInt32 nrepeat) t, h') rest) :
    wp (rankHandler cap idle i) (runBody (atoa check) h size nrepeat) Q
      (.round (barrierRound n cap) :: (List.replicate (2 * nrepeat.toNat)
        (.round (exchangeRound n cap (nbytes size))) ++ rest)) := by
  have hnprocs := hrank.nprocs
  have hlt' : (nbytes size : Int) * h.args.prot.nprocs < 2 ^ 31 := by
    rw [hnprocs]
    exact_mod_cast hlt
  refine wp_bind (wp_allocRun sane_rankHandler hrank.cache (by omega) hlt' ?_)
  intro h₁ r s hset hprot hsource hh
  have hsame : Same h h₁ := ⟨hset, hprot, hsource⟩
  have hrank₁ := hrank.same hsame
  obtain ⟨i', j', -, -, -, -, -, hro, -, -, hso⟩ := hh.blocks
  rw [if_neg (by simp [hro, hso])]
  -- the buffers are filled
  have hlt₁ : (nbytes size : Int) * h₁.args.prot.nprocs < 2 ^ 31 := by rwa [hprot]
  obtain ⟨h₂, hinit, hsame₂, hh₂⟩ := initBufferData_eq hh hrank₁.cache (nbytes_lt size)
    (by have := hrank₁.nprocs; omega) hlt₁
  have hrank₂ := hrank₁.same hsame₂
  apply wp_bind
  show wp _ ((initBufferData h₁ h₁.args.bufflen 0 0).bind _) _ _
  rw [hh.bufflen, hinit]
  -- nothing is prepared, and all ranks meet
  show wp _ ((syncRun (atoa check) h₂).bind _) _ _
  rw [syncRun, hrank₂.asyncReceive]
  refine handler_coll rfl ?_
  intro _ _ t₀
  show wp _ ((timedLoop (atoa check) nrepeat.toNat h₂).bind _) Q _
  refine wp_bind (keeps_timedLoop _ h₂ _ hrank₂ hh₂ ?_)
  intro h₃ r₃ hsame₃ hh₃
  refine keeps_closeRun hcheck (hrank₂.same hsame₃) hh₃ ?_
  intro h₄ t hsame₄
  exact hQ h₄ t (((hsame.trans hsame₂).trans hsame₃).trans hsame₄)

/-- The arguments rank `i` calls `run_iters` with. -/
def pyargs (i : Fin n) (run : Int × Int) : List Int :=
  if (i : Nat) = 0 then [run.1, run.2] else []

/-- A run that rank 0 may ask for: both numbers fit into an `int`, and so do the blocks of all
    ranks together. -/
structure Accepted (n : Nat) (run : Int × Int) : Prop where
  size : 1 ≤ run.1 ∧ run.1 < 2 ^ 31
  nrepeat : 0 ≤ run.2 ∧ run.2 < 2 ^ 31
  blocks : (run.1 + 7) / 8 * n < 2 ^ 31

theorem Accepted.parse {run : Int × Int} (h : Accepted n run) :
    pyArgParseTuple [run.1, run.2] = some (toUint32 run.1, toUint32 run.2) := by
  have hsize := h.size
  have hnrepeat := h.nrepeat
  simp only [pyArgParseTuple, intArg]
  rw [if_pos (by omega), if_pos (by omega)]
  rfl

theorem Accepted.size_ne {run : Int × Int} (h : Accepted n run) : toUint32 run.1 ≠ 0 := by
  intro heq
  have hsize := h.size
  have hnat := toNat_toUint32 (i := run.1) (by omega) (by omega)
  rw [heq] at hnat
  have hzero : (0 : UInt32).toNat = 0 := rfl
  omega

theorem Accepted.nbytes_lt {run : Int × Int} (h : Accepted n run) :
    nbytes (toUint32 run.1) * n < 2 ^ 31 := by
  have hsize := h.size
  have hblocks := h.blocks
  have hnat := toNat_toUint32 (i := run.1) (by omega) (by omega)
  have hbytes : ((nbytes (toUint32 run.1) : Nat) : Int) = (run.1 + 7) / 8 := by
    rw [nbytes_eq, hnat]
    omega
  rw [← hbytes] at hblocks
  exact_mod_cast hblocks

/-- The broadcast of a word by rank 0. -/
theorem keeps_sendRepeat {root : Fin n} (hroot : (root : Nat) = 0) (hrank : IsRank h n i)
    (hi : (i : Nat) = 0) {w : UInt32} {Q : Host → List (Part Msg (communicator n cap)) → Prop}
    (hQ : Q h rest) :
    wp (rankHandler cap idle i) (sendRepeat h w) Q (.round (bcastRound cap root w) :: rest) := by
  refine handler_coll ?_ fun _ _ => hQ
  have hself : i = root := Fin.ext (hi.trans hroot.symm)
  show Coll.bcast h.args.sourceNode 1 (some w) = .bcast root 1 (if i = root then some w else none)
  rw [hrank.sourceNode, hroot, if_pos hself]
  rfl

/-- And by another rank, which is given it. -/
theorem keeps_recvRepeat {root : Fin n} (hroot : (root : Nat) = 0) (hrank : IsRank h n i)
    (hi : (i : Nat) ≠ 0) {w : UInt32}
    {Q : UInt32 × Host → List (Part Msg (communicator n cap)) → Prop} (hQ : Q (w, h) rest) :
    wp (rankHandler cap idle i) (recvRepeat h) Q (.round (bcastRound cap root w) :: rest) := by
  refine handler_coll ?_ ?_
  · have hother : i ≠ root := fun heq => hi (heq ▸ hroot)
    show Coll.bcast h.args.sourceNode 1 none = .bcast root 1 (if i = root then some w else none)
    rw [hrank.sourceNode, hroot, if_neg hother]
    rfl
  · intro v hv
    obtain rfl : v = w := hv
    exact hQ

/-- A run's rounds: two broadcasts, a barrier and the exchanges. -/
theorem runRounds_eq {root : Fin n} {size nrepeat : UInt32} :
    (runRounds cap root size nrepeat).map .round ++ rest =
      .round (bcastRound cap root size) :: .round (bcastRound cap root nrepeat) ::
        .round (barrierRound n cap) :: (List.replicate (2 * nrepeat.toNat)
          (.round (exchangeRound n cap (nbytes size))) ++ rest) := by
  simp [runRounds]

/-- `runBody` hands back the numbers of the run: both are the `int`s that were passed. -/
theorem keeps_body (hcheck : Harmless check) (hrank : IsRank h n i) {run : Int × Int}
    (hrun : Accepted n run) (hQ : ∀ h' t, Same h h' → Q (.tuple run.1 run.2 t, h') rest) :
    wp (rankHandler cap idle i) (runBody (atoa check) h (toUint32 run.1) (toUint32 run.2)) Q
      (.round (barrierRound n cap) :: (List.replicate (2 * (toUint32 run.2).toNat)
        (.round (exchangeRound n cap (nbytes (toUint32 run.1)))) ++ rest)) := by
  have hsize := hrun.size
  have hnrepeat := hrun.nrepeat
  refine keeps_runBody hcheck hrank (Nat.one_le_of_lt i.isLt) hrun.nbytes_lt ?_
  intro h' t hsame
  rw [toInt32_toUint32 (by omega) hsize.2, toInt32_toUint32 (by omega) hnrepeat.2]
  exact hQ h' t hsame

/-- **One run**, on any rank.  Rank 0 has the numbers from its caller and the others from the
    two broadcasts; from there on they do the same. -/
theorem keeps_run {root : Fin n} (hroot : (root : Nat) = 0) (hcheck : Harmless check)
    (hrank : IsRank h n i) {run : Int × Int} (hrun : Accepted n run)
    (hQ : ∀ h' t, Same h h' → Q (.tuple run.1 run.2 t, h') rest) :
    wp (rankHandler cap idle i) (netpipeRunIters (atoa check) h (pyargs i run)) Q
      ((runRounds cap root (toUint32 run.1) (toUint32 run.2)).map .round ++ rest) := by
  rw [runRounds_eq]
  by_cases hi : (i : Nat) = 0
  · -- the numbers come from Python and are broadcast
    rw [pyargs, if_pos hi, netpipeRunIters, hrun.parse]
    simp only [runWith, (hrank.root hi).1, if_true, Proc.bind_eq]
    refine wp_bind (keeps_sendRepeat hroot hrank hi ?_)
    refine wp_bind (keeps_sendRepeat hroot hrank hi ?_)
    exact keeps_body hcheck hrank hrun hQ
  · -- they come from rank 0, and a size of 0 would have ended the run
    obtain ⟨htr, hrcv⟩ := hrank.other hi
    rw [pyargs, if_neg hi, netpipeRunIters]
    simp only [pyArgParseTuple, hrcv, if_true, Proc.bind_eq]
    refine wp_bind (keeps_recvRepeat hroot hrank hi ?_)
    refine wp_bind (keeps_recvRepeat hroot hrank hi ?_)
    simp only [if_neg hrun.size_ne, runWith, htr, Bool.false_eq_true, if_false]
    exact keeps_body hcheck hrank hrun hQ

variable {Q : List PyResult → List (Part Msg (communicator n cap)) → Prop}

/-- The rounds of all runs. -/
def sessionRounds (cap : ℕ∞) (root : Fin n) (runs : List (Int × Int)) :
    List (Round (communicator n cap)) :=
  runs.flatMap fun run => runRounds cap root (toUint32 run.1) (toUint32 run.2)

/-- What a rank is handed back of these runs. -/
def Results (runs : List (Int × Int)) (rs : List PyResult) : Prop :=
  List.Forall₂ (fun run r => ∃ t, r = .tuple run.1 run.2 t) runs rs

/-- **A session**, by induction on the runs. -/
theorem keeps_session {root : Fin n} (hroot : (root : Nat) = 0) (hcheck : Harmless check)
    (runs : List (Int × Int)) : ∀ (h : Host), IsRank h n i → (∀ run ∈ runs, Accepted n run) →
    (∀ rs, Results runs rs → Q rs rest) →
    wp (rankHandler cap idle i) (session (atoa check) h (runs.map (pyargs i))) Q
      ((sessionRounds cap root runs).map .round ++ rest) := by
  induction runs generalizing Q with
  | nil => exact fun h _ _ hQ => hQ [] .nil
  | cons run runs ih =>
    intro h hrank hruns hQ
    rw [List.forall_mem_cons] at hruns
    rw [sessionRounds, List.flatMap_cons, List.map_append, List.append_assoc]
    refine wp_bind (keeps_run hroot hcheck hrank hruns.1 ?_)
    intro h' t hsame
    refine wp_bind (ih h' (hrank.same hsame) hruns.2 ?_)
    intro rs hrs
    exact hQ _ (.cons ⟨t, rfl⟩ hrs)

end keeps

/-! ## The collectives match -/

section main

variable {n : Nat} {cap : ℕ∞} {check : Host → Int → Int → Int → Prog Host}

/-- The program of rank `i`: `Init`, and a call of `run_iters` for every run. -/
def rank (check : Host → Int → Int → Int → Prog Host) (order : ByteOrder) (i : Fin n)
    (runs : List (Int × Int)) : Prog (List PyResult) := do
  let h ← init (netpipeObject order (Prot.mk 0 0) none) i n
  session (atoa check) h (runs.map (pyargs i))

/-- The calls of all runs. -/
def sessionKinds (runs : List (Int × Int)) : List Kind :=
  runs.flatMap fun run => runKinds (toUint32 run.1) (toUint32 run.2)

/-- These rounds allow these calls only. -/
abbrev Allow (rs : List (Round (communicator n cap))) (kinds : List Kind) : Prop :=
  List.Forall₂ (fun R kind => ∀ i c, R.allowed i c → c.kind = kind) rs kinds

theorem allow_exchanges (count k : Nat) : Allow (List.replicate k (exchangeRound n cap count))
    (List.replicate k (.alltoall count)) := by
  induction k with
  | zero => exact .nil
  | succ k ih =>
    refine .cons ?_ ih
    rintro i c ⟨bs, rfl, -⟩
    rfl

theorem allow_runRounds {root : Fin n} (hroot : (root : Nat) = 0) (size nrepeat : UInt32) :
    Allow (runRounds cap root size nrepeat) (runKinds size nrepeat) := by
  have hbcast : ∀ w i c, (bcastRound cap root w).allowed i c → c.kind = .bcast 0 1 := by
    rintro w i c rfl
    show Kind.bcast root 1 = _
    rw [hroot]
    rfl
  refine .cons (hbcast size) (.cons (hbcast nrepeat) (.cons ?_ (allow_exchanges _ _)))
  rintro i c rfl
  rfl

theorem allow_sessionRounds {root : Fin n} (hroot : (root : Nat) = 0) (runs : List (Int × Int)) :
    Allow (sessionRounds cap root runs) (sessionKinds runs) := by
  induction runs with
  | nil => exact .nil
  | cons run runs ih => exact List.rel_append (allow_runRounds hroot _ _) ih

/-- Every rank keeps to the rounds of the session. -/
theorem keeps_rank (hprocs : 2 ≤ n ∧ (n : Int) ≤ MAXPROCS) {idle : Idle n Msg Coll}
    (hcheck : Harmless check) (order : ByteOrder) {root : Fin n} (hroot : (root : Nat) = 0)
    {runs : List (Int × Int)} (hruns : ∀ run ∈ runs, Accepted n run) (i : Fin n) :
    Keeps idle (Results runs) i (rank check order i runs)
      (script ((sessionRounds cap root runs).map .round) i) := by
  rw [script_rounds, ← List.append_nil (List.map _ _), rank, init_eq order _ (by omega)]
  exact keeps_session hroot hcheck runs _ (isRank_host order i) hruns fun rs hrs => ⟨rfl, hrs⟩

/-- What has been called in these rounds. -/
theorem Allow.kinds {rs : List (Round (communicator n cap))} {kinds : List Kind}
    (h : Allow rs kinds) {i : Fin n} : ∀ {done : List Coll},
      List.Forall₂ (fun R op => R.allowed i op) rs done → done.map Coll.kind = kinds := by
  induction h with
  | nil =>
    rintro _ ⟨⟩
    rfl
  | cons hkind _ ih =>
    rintro _ (_ | ⟨hop, hdone⟩)
    rw [List.map_cons, hkind _ _ hop, ih hdone]

/-- One call. -/
theorem Allow.kind {rs : List (Round (communicator n cap))} {kinds : List Kind} (h : Allow rs kinds)
    {m : Nat} {R : Round (communicator n cap)} (hR : rs[m]? = some R) {i : Fin n} {op : Coll}
    (hop : R.allowed i op) : kinds[m]? = some op.kind := by
  obtain ⟨hm, rfl⟩ := List.getElem?_eq_some_iff.mp hR
  have hm' : m < kinds.length := h.length_eq ▸ hm
  rw [List.getElem?_eq_getElem hm', Option.some.injEq]
  exact (h.get hm hm' i op hop).symm

/-- All ranks at the beginning. -/
def sessionStart (check : Host → Int → Int → Int → Prog Host) (order : Fin n → ByteOrder)
    (runs : List (Int × Int)) : Config n Msg Coll.Res Event (List PyResult) :=
  .start fun i => rank check (order i) i runs

/-- **The collectives match.**  All ranks call the same collectives in the same order, every run
    leaves every rank with the size and repeat count of rank 0, and nobody waits for ever. -/
theorem collectives_match (hprocs : 2 ≤ n ∧ (n : Int) ≤ MAXPROCS) (cap : ℕ∞)
    (hcheck : Harmless check) (order : Fin n → ByteOrder) {runs : List (Int × Int)}
    (hruns : ∀ run ∈ runs, Accepted n run) :
    (∀ c, Steps (communicator n cap) (sessionStart check order runs) c → ∀ i,
      (c.party i).calls.map Coll.kind <+: sessionKinds runs ∧
        (Stuck (communicator n cap) c → (c.party i).done.map Coll.kind = sessionKinds runs)) ∧
    Completes (communicator n cap) (sessionStart check order runs) fun _ => Results runs := by
  obtain ⟨root, hroot⟩ : ∃ root : Fin n, (root : Nat) = 0 := ⟨⟨0, by omega⟩, rfl⟩
  have hkeeps : ∀ i, Keeps nowhere (Results runs) i (rank check (order i) i runs)
      (script ((sessionRounds cap root runs).map .round) i) :=
    fun i => keeps_rank hprocs hcheck (order i) hroot hruns i
  have hallow : Allow (sessionRounds cap root runs) (sessionKinds runs) :=
    allow_sessionRounds hroot runs
  refine ⟨fun c hc i => ⟨?_, ?_⟩, completes hkeeps⟩
  · rw [List.prefix_iff_getElem?]
    intro m hm
    rw [List.length_map] at hm
    rw [List.getElem_map]
    rcases called blocked_nowhere hkeeps hc (List.getElem?_eq_getElem hm) with
      ⟨R, hR, hop⟩ | ⟨-, hidle⟩
    · rw [allRounds_rounds] at hR
      exact hallow.kind hR hop
    · exact hidle.elim
  · intro hs
    have hdone := done_rounds blocked_nowhere hkeeps hc hs i
    rw [allRounds_rounds] at hdone
    exact hallow.kinds hdone

/-- Two runs on two ranks, the second one without iterations. -/
theorem collectives_match_two :
    (∀ c, Steps (communicator 2 0) (sessionStart noCheck (fun _ => .little) [(8, 1), (24, 0)]) c →
      ∀ i, (c.party i).calls.map Coll.kind <+: sessionKinds [(8, 1), (24, 0)] ∧
        (Stuck (communicator 2 0) c →
          (c.party i).done.map Coll.kind = sessionKinds [(8, 1), (24, 0)])) ∧
    Completes (communicator 2 0) (sessionStart noCheck (fun _ => .little) [(8, 1), (24, 0)])
      fun _ => Results [(8, 1), (24, 0)] := by
  refine collectives_match (by decide) 0 (fun h _ _ _ => ⟨h.lfsrData, .ret h⟩) _ ?_
  rw [List.forall_mem_cons, List.forall_mem_singleton]
  exact ⟨⟨by decide, by decide, by decide⟩, ⟨by decide, by decide, by decide⟩⟩

end main

/-! ## Refused arguments -/

section refused

variable {n : Nat} {cap : ℕ∞} {check : Host → Int → Int → Int → Prog Host}

/-- The receivers stand in the broadcast of a size. -/
def awaitsSize : Idle n Msg Coll := fun i o => (i : Nat) ≠ 0 ∧ o = .coll (.bcast 0 1 none)

theorem blocked_awaitsSize : (awaitsSize : Idle n Msg Coll).Blocked where
  send _ _ _ _ h := nomatch h.2
  recv _ _ _ h := nomatch h.2
  coll i _ _ := ⟨⟨0, Nat.zero_lt_of_lt i.isLt⟩, fun _ h => h.1 rfl⟩

/-- A receiver that calls `run_iters` when nothing more is to come. -/
theorem keeps_awaitsSize {α : Type} {h : Host} {i : Fin n} (hrank : IsRank h n i)
    (hi : (i : Nat) ≠ 0) {f : PyResult × Host → Prog α}
    {Q : α → List (Part Msg (communicator n cap)) → Prop} :
    wp (rankHandler cap awaitsSize i) ((netpipeRunIters (atoa check) h []).bind f) Q [] := by
  rw [netpipeRunIters]
  simp only [pyArgParseTuple, (hrank.other hi).2, if_true, Proc.bind_eq, atoa, recvRepeat]
  exact Or.inl ⟨rfl, hi, by rw [hrank.sourceNode]⟩

/-- **Refused arguments.**  Rank 0 has an exception, and everybody else waits for a size, in a
    broadcast whose root does not call it. -/
theorem refused_ends (hprocs : 2 ≤ n ∧ (n : Int) ≤ MAXPROCS) (order : Fin n → ByteOrder)
    {run : Int × Int} (hparse : pyArgParseTuple [run.1, run.2] = none)
    {c : Config n Msg Coll.Res Event (List PyResult)}
    (hc : Steps (communicator n cap) (sessionStart check order [run]) c)
    (hs : Stuck (communicator n cap) c) (i : Fin n) :
    ((i : Nat) = 0 ∧ (c.party i).Returned [.null]) ∨
      ((i : Nat) ≠ 0 ∧ ∃ k, (c.party i).prog = .io (.coll (.bcast 0 1 none)) k) := by
  have hkeeps : ∀ i : Fin n, Keeps (N := communicator n cap) awaitsSize
      (fun rs => (i : Nat) = 0 ∧ rs = [.null]) i (rank check (order i) i [run]) (script [] i) := by
    intro i
    have hrank := isRank_host (order i) i
    rw [rank, init_eq (order i) _ (by omega)]
    by_cases hi : (i : Nat) = 0
    · show wp _ ((netpipeRunIters _ _ (pyargs i run)).bind _) _ _
      rw [pyargs, if_pos hi, netpipeRunIters, hparse]
      simp only [(hrank.root hi).2, Bool.false_eq_true, if_false, Proc.bind_eq]
      exact ⟨rfl, hi, rfl⟩
    · show wp _ ((netpipeRunIters _ _ (pyargs i run)).bind _) _ _
      rw [pyargs, if_neg hi]
      exact keeps_awaitsSize hrank hi
  rcases ends blocked_awaitsSize hkeeps hc hs i with ⟨rs, hret, hi, rfl⟩ | ⟨o, k, hp, hi, rfl⟩
  · exact Or.inl ⟨hi, hret⟩
  · exact Or.inr ⟨hi, k, hp⟩

/-- A size of `2 ^ 31` bits is no `int`: the other rank waits for ever. -/
theorem collectives_mismatch :
    ¬ ∀ (n : Nat) (runs : List (Int × Int)), 2 ≤ n ∧ (n : Int) ≤ MAXPROCS →
      (∀ run ∈ runs, 1 ≤ run.1 ∧ 0 ≤ run.2) →
      Completes (communicator n ⊤) (sessionStart noCheck (fun _ => .little) runs)
        fun _ => Results runs := by
  intro hall
  have hcompletes := hall 2 [(2147483648, 1)] (by decide) (by decide)
  obtain ⟨c, hc, hs⟩ := exists_stuck (N := communicator 2 ⊤)
    (sessionStart noCheck (fun _ => .little) [(2147483648, 1)])
  obtain ⟨rs, hret, -⟩ := hcompletes.returned c hc hs 1
  rcases refused_ends (by decide) _ (by decide) hc hs 1 with ⟨hi, -⟩ | ⟨-, k, hp⟩
  · exact absurd hi (by decide)
  · cases hret.symm.trans hp

end refused

end NetPipe.Atoa
