/-
  `mpi.c`: the point-to-point module.

  `Setup` makes rank 0 the transmitter and the last rank the receiver; whoever is in between is
  neither.  `Sync` is a barrier of all ranks all the same, and `run_iters` returns at once to a
  rank that is neither, so with a third rank the other two never leave the barrier.

  1. **The functions** of the module.  A receive posted ahead is asked for in `PrepareToReceive` and
     completed by the wait for it, and the static `recvPosted` goes along.

  2. **What each of them asks for**, for a rank between two runs (`Seat`), whether it has posted a
     receive or not.  A second `PrepareToReceive` leaves the process, so these lemmas are about the
     handler `seatHandler`, where that is as good as a receive nobody answers; a rank that posts
     nothing does not get there (`keeps_rank`).

  3. **Two ranks**, and arguments that `run_iters` accepts: everybody returns (`two_ranks`).

  4. **Else somebody is left behind**.  The load-bearing step is to name who may stand where for
     ever (`atBarrier`, `atRecv`), each of them at a request that another rank never answers
     (`Idle.Blocked`); `Choreo.ends` says then that all others come to their end.  Both together
     are `unblocked_iff`.
-/
import NetPipe.Collectives

namespace NetPipe.PointToPoint

open Memory Process Ranks Mpi Choreo

/-- The protocol structure, and the static `recvPosted`. -/
structure Prot where
  nbor : Int
  iproc : Int
  recvPosted : Bool
  deriving DecidableEq, Repr

abbrev Host := Netpipe Prot

abbrev Prog (α : Type) := MpiProg Event α

/-! ## The functions -/

/-- `Init`. -/
def init (h : Host) : Host := { h with args.sourceNode := 0 }

/-- `Setup`, where `MPI_Comm_rank` and `MPI_Comm_size` give these. -/
def setup (h : Host) (iproc nprocs : Int) : Prog Host :=
  let h := { h with args.prot.iproc := iproc }
  if nprocs < 2 then .exit (-2) s!"Need at least two processes (only given {nprocs})\n"
  else
    let h := { h with args.tr := false, args.rcv := false }
    let h :=
      if iproc = 0 then { h with args.tr := true, args.prot.nbor := nprocs - 1 }
      else if iproc = nprocs - 1 then { h with args.rcv := true, args.prot.nbor := 0 }
      else h
    .ret (if h.args.sourceNode = 0 then { h with args.sourceNode := h.args.prot.nbor } else h)

/-- `Sync`. -/
def sync (h : Host) : Prog Host :=
  .io (.coll .barrier) fun _ => .ret h

/-- `PrepareToReceive`: the receive is asked for here, and completed by the wait for it. -/
def prepareToReceive (h : Host) : Prog Host :=
  if h.args.prot.recvPosted then .exit (-1) "Can't prepare to receive: outstanding receive!\n"
  else .ret { h with args.prot.recvPosted := true }

/-- `SendData`.  `MPI_Ssend`, for `syncflag`, is a send that returns once it has been received,
    which is up to the network here. -/
def sendData (h : Host) : Prog Host := do
  let buf ← Proc.ofOption (h.heap.load h.args.sPtr h.args.bufflen.toNat)
  .io (.send h.args.prot.nbor 1 (.bytes buf)) fun _ => .ret h

/-- `bufflen` bytes at most, received at `r_ptr`. -/
def recvBytes (h : Host) : Prog Host :=
  .io (.recv h.args.sourceNode 1) fun
    | .bytes buf =>
      if h.args.bufflen < buf.length then .exit 1 "MPI_ERR_TRUNCATE"
      else do
        let heap ← Proc.ofOption (h.heap.store h.args.rPtr buf)
        .ret { h with heap }
    | .int _ => .fault

/-- `RecvData`. -/
def recvData (h : Host) : Prog Host :=
  if h.args.prot.recvPosted then do
    let h ← recvBytes h
    .ret { h with args.prot.recvPosted := false }
  else recvBytes h

/-- `SendRepeat`. -/
def sendRepeat (h : Host) (rpt : UInt32) : Prog Host :=
  .io (.send h.args.prot.nbor 2 (.int rpt)) fun _ => .ret h

/-- `RecvRepeat`. -/
def recvRepeat (h : Host) : Prog (UInt32 × Host) :=
  .io (.recv h.args.sourceNode 2) fun
    | .int rpt => .ret (rpt, h)
    | .bytes _ => .fault

/-- The module. -/
def mpi : Module (RankOp Msg Coll) (RankOp.Res Coll.Res) Prot where
  sendRepeat
  recvRepeat
  myMalloc
  initBufferData
  afterAlignmentInit h := .ret h
  prepareToReceive
  sync
  sendData
  recvData
  checkBufferData
  freeBuff

theorem mpi_generic : mpi.Generic := ⟨rfl, rfl, rfl, rfl, rfl⟩

/-- The program of rank `i`: `netpipe_object`, and one call of `run_iters`. -/
def rank {n : Nat} (order : ByteOrder) (i : Fin n) (size nrepeat : Int) : Prog PyResult := do
  let h ← setup (init (netpipeObject order (Prot.mk 0 0 false) none)) i n
  let (r, _) ← netpipeRunIters mpi h (if (i : Nat) = 0 then [size, nrepeat] else [])
  .ret r

/-! ## Roles -/

/-- What `Setup` makes of a rank, and each run leaves it as: `peer` is the one it talks to, and
    `posted` says whether a receive posted ahead is still outstanding.  `tr` and `rcv` are what the
    rank's number makes of it, so the first rank, the last and those in between differ in nothing
    but the arguments here. -/
structure Seat (h : Host) (order : ByteOrder) (async tr rcv : Bool) (peer : Int) (posted : Bool) :
    Prop where
  order : h.order = order
  cache : h.args.cache = false
  asyncReceive : h.asyncReceive = async
  tr : h.args.tr = tr
  rcv : h.args.rcv = rcv
  nbor : h.args.prot.nbor = peer
  sourceNode : h.args.sourceNode = peer
  recvPosted : h.args.prot.recvPosted = posted

theorem Seat.same {h h' : Host} {order : ByteOrder} {async tr rcv posted : Bool} {peer : Int}
    (hs : Seat h order async tr rcv peer posted) (hsame : Same h h') :
    Seat h' order async tr rcv peer posted :=
  ⟨(congrArg Settings.order hsame.settings).trans hs.order,
    (congrArg Settings.cache hsame.settings).trans hs.cache,
    (congrArg Settings.asyncReceive hsame.settings).trans hs.asyncReceive,
    (congrArg Settings.tr hsame.settings).trans hs.tr,
    (congrArg Settings.rcv hsame.settings).trans hs.rcv,
    (congrArg Prot.nbor hsame.prot).trans hs.nbor, hsame.sourceNode.trans hs.sourceNode,
    (congrArg Prot.recvPosted hsame.prot).trans hs.recvPosted⟩

/-- Rank `i` of `n` has been given this role; it posts no receives ahead. -/
def Given (order : ByteOrder) (i n : Int) (tr rcv : Bool) (peer : Int) : Prop :=
  ∃ h, setup (init (netpipeObject order (Prot.mk 0 0 false) none)) i n = .ret h ∧
    Seat h order false tr rcv peer false

section setup

variable (order : ByteOrder) {n : Nat} (hn : 2 ≤ n) {i first last : Fin n}

include hn

/-- **`Setup`** accepts any two ranks or more.  The first one is the transmitter. -/
theorem given_first (hlast : (last : Nat) = n - 1) (hi : (i : Nat) = 0) :
    Given order i n true false last := by
  have hlow : ¬ (n : Int) < 2 := by omega
  have hpeer : ((last : Nat) : Int) = (n : Int) - 1 := by omega
  refine ⟨_, by rw [setup, if_neg hlow], ?_⟩
  rw [hpeer, hi]
  exact ⟨rfl, rfl, rfl, rfl, rfl, rfl, rfl, rfl⟩

/-- The last one is the receiver. -/
theorem given_last (hfirst : (first : Nat) = 0) (hi : (i : Nat) = n - 1) :
    Given order i n false true first := by
  have hlow : ¬ (n : Int) < 2 := by omega
  have h0 : ¬ ((i : Nat) : Int) = 0 := by omega
  have hlast : ((i : Nat) : Int) = (n : Int) - 1 := by omega
  refine ⟨_, by rw [setup, if_neg hlow], ?_⟩
  simp only [if_neg h0, if_pos hlast, hfirst, init, netpipeObject]
  exact ⟨rfl, rfl, rfl, rfl, rfl, rfl, rfl, rfl⟩

/-- And whoever is in between is neither. -/
theorem given_between (hi : (i : Nat) ≠ 0) (hi' : (i : Nat) ≠ n - 1) :
    Given order i n false false 0 := by
  have hlow : ¬ (n : Int) < 2 := by omega
  have h0 : ¬ ((i : Nat) : Int) = 0 := by omega
  have hlast : ¬ ((i : Nat) : Int) = (n : Int) - 1 := by omega
  refine ⟨_, by rw [setup, if_neg hlow], ?_⟩
  simp only [if_neg h0, if_neg hlast, init, netpipeObject]
  exact ⟨rfl, rfl, rfl, rfl, rfl, rfl, rfl, rfl⟩

end setup

/-! ## What each function asks for -/

section functions

variable {n : Nat} {cap : ℕ∞} {idle : Idle n Msg Coll} {i peer : Fin n} {source tag : Int}

/-- What is sent and received in one iteration. -/
def iteration (cap : ℕ∞) (tr : Bool) (peer : Fin n) (own theirs : List UInt8) :
    List (Part Msg (communicator n cap)) :=
  if tr then [.send peer 1 (.bytes own), .recv peer 1 (.bytes theirs)]
  else [.recv peer 1 (.bytes theirs), .send peer 1 (.bytes own)]

/-- The handler of rank `i`, which may leave the process where it may stand in a receive. -/
abbrev seatHandler (source tag : Int) (cap : ℕ∞) (idle : Idle n Msg Coll) (i : Fin n) :
    Handler (RankOp Msg Coll) (RankOp.Res Coll.Res) Event
      (List (Part Msg (communicator n cap))) :=
  leaving source tag (communicator n cap) idle Event i

theorem sane_seatHandler : Sane (seatHandler source tag cap idle i) where
  alloc_length := by
    rintro m bs ⟨bs', heq, hlen⟩
    rw [Option.some.inj heq, hlen]
  alloc_fail := by
    rintro m ⟨bs', heq, -⟩
    cases heq

variable {h : Host} {order : ByteOrder} {async tr rcv posted : Bool} {m : Nat}
  {r own theirs : List UInt8} {rest : List (Part Msg (communicator n cap))}
  {Q : Host → List (Part Msg (communicator n cap)) → Prop}

/-- `PrepareToReceive`, with nothing posted. -/
theorem seat_prepare (hs : Seat h order async tr rcv peer false) (hh : Armed h m r own)
    (hQ : ∀ h', Seat h' order async tr rcv peer true → Armed h' m r own → Q h' rest) :
    wp (seatHandler source tag cap idle i) (prepareToReceive h) Q rest := by
  rw [prepareToReceive, hs.recvPosted]
  refine hQ _ ?_ ⟨hh.bufflen, hh.length_r, hh.length_s, hh.blocks⟩
  exact ⟨hs.order, hs.cache, hs.asyncReceive, hs.tr, hs.rcv, hs.nbor, hs.sourceNode, rfl⟩

/-- `SendData`. -/
theorem seat_sendData (hs : Seat h order async tr rcv peer posted) (hh : Armed h m r own)
    (hQ : Q h rest) :
    wp (seatHandler source tag cap idle i) (sendMarked mpi h) Q
      (.send peer 1 (.bytes own) :: rest) := by
  show wp _ (sendData h) Q _
  rw [sendData, hh.load_sPtr]
  exact Or.inr ⟨peer, rest, hs.nbor, rfl, hQ⟩

/-- The bytes received, at `r_ptr`. -/
theorem seat_recvBytes (hs : Seat h order async tr rcv peer posted) (hh : Armed h m r own)
    (hlen : theirs.length = m)
    (hQ : ∀ h', Seat h' order async tr rcv peer posted → Armed h' m theirs own → Q h' rest) :
    wp (seatHandler source tag cap idle i) (recvBytes h) Q
      (.recv peer 1 (.bytes theirs) :: rest) := by
  refine Or.inr ⟨peer, .bytes theirs, rest, hs.sourceNode, rfl, ?_⟩
  have hfits : ¬ h.args.bufflen < theirs.length := by
    rw [hh.bufflen, hlen]
    omega
  have hr : Armed h m ([] ++ (r ++ [])) own := by rwa [List.append_nil, List.nil_append]
  obtain ⟨heap, hstore, hh'⟩ := hr.store_rPtr (hlen.trans hh.length_r.symm)
  rw [List.length_nil, Ptr.add_zero] at hstore
  rw [List.append_nil, List.nil_append] at hh'
  simp only [if_neg hfits, hstore, Proc.ofOption, Proc.bind_eq, Proc.bind]
  exact hQ _ (hs.same ⟨rfl, rfl, rfl⟩) hh'

/-- `RecvData`: whatever was posted, nothing is afterwards. -/
theorem seat_recvData (hs : Seat h order async tr rcv peer posted) (hh : Armed h m r own)
    (hlen : theirs.length = m)
    (hQ : ∀ h', Seat h' order async tr rcv peer false → Armed h' m theirs own → Q h' rest) :
    wp (seatHandler source tag cap idle i) (recvMarked mpi h) Q
      (.recv peer 1 (.bytes theirs) :: rest) := by
  apply wp_bind
  show wp _ (recvData h) _ _
  rw [recvData, hs.recvPosted]
  cases posted with
  | true =>
    refine wp_bind (seat_recvBytes hs hh hlen ?_)
    intro h' hs' hh'
    refine hQ _ ?_ ⟨hh'.bufflen, hh'.length_r, hh'.length_s, hh'.blocks⟩
    exact ⟨hs'.order, hs'.cache, hs'.asyncReceive, hs'.tr, hs'.rcv, hs'.nbor, hs'.sourceNode, rfl⟩
  | false => exact seat_recvBytes hs hh hlen hQ

/-- **The timed loop**, by induction on the iterations to go: a posted receive is left over where
    there are none. -/
theorem seat_timedLoop (hlen : theirs.length = m) (k : Nat) : ∀ {h : Host} {r : List UInt8}
    {posted : Bool}, Seat h order async tr rcv peer posted → Armed h m r own →
    (∀ h' r', Seat h' order async tr rcv peer (posted && k = 0) → Armed h' m r' own → Q h' rest) →
    wp (seatHandler source tag cap idle i) (timedLoop mpi k h) Q
      ((List.replicate k (iteration cap tr peer own theirs)).flatten ++ rest) := by
  induction k with
  | zero =>
    intro h r posted hs hh hQ
    exact hQ h r (by simpa using hs) hh
  | succ k ih =>
    intro h r posted hs hh hQ
    rw [List.replicate_succ, List.flatten_cons, List.append_assoc, timedLoop, hs.tr, iteration]
    have hnext : ∀ h₁, Seat h₁ order async tr rcv peer false → Armed h₁ m theirs own →
        wp (seatHandler source tag cap idle i) (timedLoop mpi k h₁) Q
          ((List.replicate k (iteration cap tr peer own theirs)).flatten ++ rest) := by
      intro h₁ hs₁ hh₁
      apply ih hs₁ hh₁
      intro h₂ r₂ hs₂ hh₂
      exact hQ h₂ r₂ (by simpa using hs₂) hh₂
    cases tr with
    | true => exact wp_bind (seat_sendData hs hh (wp_bind (seat_recvData hs hh hlen hnext)))
    | false =>
      refine wp_bind (seat_recvData hs hh hlen ?_)
      intro h₁ hs₁ hh₁
      exact wp_bind (seat_sendData hs₁ hh₁ (hnext h₁ hs₁ hh₁))

/-- `run_iters` from the buffers to the barrier, with nothing posted before it. -/
theorem seat_syncRun {s : List (Part Msg (communicator n cap))}
    (hs : Seat h order async tr rcv peer false) (hh : Armed h m r own)
    (hsync : ∀ h', Seat h' order async tr rcv peer async → Armed h' m r own →
      wp (seatHandler source tag cap idle i) (sync h') Q s) :
    wp (seatHandler source tag cap idle i) (syncRun mpi h) Q s := by
  rw [syncRun, hs.asyncReceive]
  cases async with
  | true =>
    exact wp_bind (seat_prepare hs hh hsync)
  | false => exact hsync h hs hh

variable {size nrepeat : UInt32} {Q : PyResult × Host → List (Part Msg (communicator n cap)) → Prop}

/-- `run_iters` up to there. -/
theorem seat_toSync (hs : Seat h order async tr rcv peer posted)
    (hsync : ∀ h', Seat h' order async tr rcv peer posted →
        Armed h' (nbytes size) (pattern order 97 (nbytes size)) (pattern order 98 (nbytes size)) →
      wp (seatHandler source tag cap idle i) (syncRun mpi h')
        (fun h' => wp (seatHandler source tag cap idle i) (measureRun mpi h' size nrepeat) Q)
        rest) :
    wp (seatHandler source tag cap idle i) (runBody mpi h size nrepeat) Q rest := by
  apply wp_runBody mpi_generic sane_seatHandler hs.cache
  intro h' hsame hh
  rw [hs.order] at hh
  exact hsync h' (hs.same hsame) hh

/-- **A run** that finds nothing posted: the barrier, and the iterations.  A receive that
    `PrepareToReceive` posts is the one the first `RecvData` waits for; the later ones receive
    by themselves.  Without iterations it stays posted. -/
theorem seat_runBody (hs : Seat h order async tr rcv peer false)
    (hlen : theirs.length = nbytes size)
    (hQ : ∀ h' t, Seat h' order async tr rcv peer (async && nrepeat.toNat = 0) →
      Q (.tuple (toInt32 size) (toInt32 nrepeat) t, h') rest) :
    wp (seatHandler source tag cap idle i) (runBody mpi h size nrepeat) Q
      (.round (barrierRound n cap) :: ((List.replicate nrepeat.toNat
        (iteration cap tr peer (pattern order 98 (nbytes size)) theirs)).flatten ++ rest)) := by
  refine seat_toSync hs fun h₁ hs₁ hh₁ => seat_syncRun hs₁ hh₁ fun h₂ hs₂ hh₂ => ?_
  show (rankHandler cap idle i).io (.coll .barrier) (.round _ :: _) _
  apply handler_coll rfl
  intro _ _ t₀
  show wp _ ((timedLoop mpi nrepeat.toNat h₂).bind fun h => closeRun mpi h size nrepeat t₀) Q _
  refine wp_bind (seat_timedLoop hlen _ hs₂ hh₂ ?_)
  intro h₃ r₃ hs₃ hh₃
  obtain ⟨⟨ms, d⟩, hms⟩ := lfsrcheck_total h₃.order 98 (Nat.le_of_eq hh₃.length_r.symm)
  apply wp_closeRun mpi_generic hs₃.cache hh₃ (nbytes_lt size) hms
  exact wp_report_const (fun _ _ => id) ms fun h' t hsame => hQ h' t (hs₃.same hsame)

/-- A run that finds a receive posted: the process is left. -/
theorem seat_outstanding (hs : Seat h order true tr rcv peer true)
    (hleave : rest = [] ∧ idle i (.recv source tag)) :
    wp (seatHandler source tag cap idle i) (runBody mpi h size nrepeat) Q rest := by
  refine seat_toSync hs fun h₁ hs₁ _ => ?_
  rw [syncRun, hs₁.asyncReceive]
  show wp _ ((prepareToReceive h₁).bind _) _ _
  rw [prepareToReceive, hs₁.recvPosted]
  exact hleave

/-- A run whose barrier the other rank does not come to. -/
theorem seat_atBarrier (hs : Seat h order async tr rcv peer false)
    (hidle : rest = [] ∧ idle i (.coll .barrier)) :
    wp (seatHandler source tag cap idle i) (runBody mpi h size nrepeat) Q rest :=
  seat_toSync hs fun _ hs₁ hh₁ => seat_syncRun hs₁ hh₁ fun _ _ _ => Or.inl hidle

/-- The size and the repeat count, sent. -/
theorem seat_transmitter (hs : Seat h order async true rcv peer posted) {pyargs : List Int}
    (hparse : pyArgParseTuple pyargs = some (size, nrepeat))
    (hbody : wp (seatHandler source tag cap idle i) (runBody mpi h size nrepeat) Q rest) :
    wp (seatHandler source tag cap idle i) (netpipeRunIters mpi h pyargs) Q
      (.send peer 2 (.int size) :: .send peer 2 (.int nrepeat) :: rest) := by
  rw [netpipeRunIters, hparse]
  simp only [runWith, hs.tr, if_true, Proc.bind_eq]
  apply wp_bind
  refine Or.inr ⟨peer, .send peer 2 (.int nrepeat) :: rest, hs.nbor, rfl, ?_⟩
  exact Or.inr ⟨peer, rest, hs.nbor, rfl, hbody⟩

/-- And received; a size of 0 is the signal to exit. -/
theorem seat_receiver (hs : Seat h order async false true peer posted)
    (hbody : if size = 0 then Q (.null, h) rest
      else wp (seatHandler source tag cap idle i) (runBody mpi h size nrepeat) Q rest) :
    wp (seatHandler source tag cap idle i) (netpipeRunIters mpi h []) Q
      (.recv peer 2 (.int size) :: .recv peer 2 (.int nrepeat) :: rest) := by
  rw [netpipeRunIters]
  simp only [pyArgParseTuple, hs.rcv, if_true, Proc.bind_eq]
  apply wp_bind
  refine Or.inr ⟨peer, .int size, .recv peer 2 (.int nrepeat) :: rest, hs.sourceNode, rfl, ?_⟩
  apply wp_bind
  refine Or.inr ⟨peer, .int nrepeat, rest, hs.sourceNode, rfl, ?_⟩
  by_cases hsize : size = 0
  · simp only [if_pos hsize] at hbody ⊢
    exact hbody
  · simp only [if_neg hsize] at hbody ⊢
    show wp _ (if h.args.tr = true then _ else runBody mpi h size nrepeat) Q rest
    rw [hs.tr]
    exact hbody

/-- **`run_iters` on a rank without a part**, or with refused arguments on rank 0: an exception. -/
theorem seat_bailOut {peer : Int} (hs : Seat h order async tr false peer posted)
    {pyargs : List Int} (hparse : pyArgParseTuple pyargs = none) (hQ : Q (.null, h) rest) :
    wp (seatHandler source tag cap idle i) (netpipeRunIters mpi h pyargs) Q rest := by
  rw [netpipeRunIters, hparse]
  simp only [hs.rcv, Bool.false_eq_true, if_false]
  exact hQ

end functions

/-! ## Whole runs -/

section main

variable {n : Nat} {cap : ℕ∞} {idle : Idle n Msg Coll} {order : Fin n → ByteOrder}
  {size nrepeat : Int}

/-- All ranks at the beginning. -/
def runStart (order : Fin n → ByteOrder) (size nrepeat : Int) :
    Config n Msg Coll.Res Event PyResult :=
  .start fun i => rank (order i) i size nrepeat

/-- Nobody is left behind: all ranks return, having been through the same collectives. -/
structure Unblocked (N : Network n Coll Coll.Res) (c₀ : Config n Msg Coll.Res Event PyResult) :
    Prop where
  completes : Completes N c₀ fun _ _ => True
  barriers : ∀ c, Steps N c₀ c → Stuck N c → ∀ i j, (c.party i).done = (c.party j).done

/-- The message of rank 0 to the last rank. -/
abbrev Control (n : Nat) (cap : ℕ∞) (zero last : Fin n) (ne : zero ≠ last) (size nrepeat : UInt32) :
    List (Act Msg (communicator n cap)) :=
  [.msg zero last ne 2 (.int size), .msg zero last ne 2 (.int nrepeat)]

/-- A rank whose `Setup` is over.  No message has the tag 3, so it may leave the process nowhere. -/
theorem keeps_rank {i : Fin n} {tr rcv : Bool} {peer : Int} {pyargs : List Int}
    {Post : PyResult → Prop} {s : List (Part Msg (communicator n cap))}
    (hgiven : Given (order i) i n tr rcv peer) (hidle : ¬ idle i (.recv 0 3))
    (hargs : (if (i : Nat) = 0 then [size, nrepeat] else []) = pyargs)
    (hrun : ∀ h, Seat h (order i) false tr rcv peer false →
      wp (seatHandler 0 3 cap idle i) (netpipeRunIters mpi h pyargs)
        (fun r s => s = [] ∧ Post r.1) s) :
    Keeps idle Post i (rank (order i) i size nrepeat) s := by
  obtain ⟨h, hsetup, hs⟩ := hgiven
  rw [rank, hsetup, hargs]
  apply keeps_of_leaving 0 3 hidle
  show wp _ ((netpipeRunIters mpi h pyargs).bind _) _ _
  exact wp_bind (hrun h hs)

/-- Accepted arguments. -/
theorem parse_accepted (hsize : 1 ≤ size ∧ size < 2 ^ 31)
    (hnrepeat : 1 ≤ nrepeat ∧ nrepeat < 2 ^ 31) :
    pyArgParseTuple [size, nrepeat] = some (toUint32 size, toUint32 nrepeat) ∧
      toUint32 size ≠ 0 := by
  constructor
  · simp only [pyArgParseTuple, intArg]
    rw [if_pos (by omega), if_pos (by omega)]
    rfl
  · intro heq
    have hnat := toNat_toUint32 (i := size) (by omega) (by omega)
    rw [heq] at hnat
    have hzero : (0 : UInt32).toNat = 0 := rfl
    omega

/-- Refused ones. -/
theorem parse_refused (hrefused : ¬ (size < 2 ^ 31 ∧ nrepeat < 2 ^ 31)) :
    pyArgParseTuple [size, nrepeat] = none := by
  have hint : ∀ {i : Int}, ¬ i < 2 ^ 31 → intArg i = none := fun h => if_neg fun h' => h h'.2
  rw [pyArgParseTuple]
  by_cases hsize : size < 2 ^ 31
  · rw [hint fun hnrepeat => hrefused ⟨hsize, hnrepeat⟩]
    cases intArg size <;> rfl
  · rw [hint hsize]
    rfl

/-! ### Two ranks -/

/-- What two ranks do together. -/
def together (cap : ℕ∞) (order : Fin 2 → ByteOrder) (size nrepeat : UInt32) :
    List (Act Msg (communicator 2 cap)) :=
  Control 2 cap 0 1 (by decide) size nrepeat ++ .round (barrierRound 2 cap) ::
    (List.replicate nrepeat.toNat
      [.msg 0 1 (by decide) 1 (.bytes (pattern (order 0) 98 (nbytes size))),
        .msg 1 0 (by decide) 1 (.bytes (pattern (order 1) 98 (nbytes size)))]).flatten

theorem script_together_zero {order : Fin 2 → ByteOrder} {size nrepeat : UInt32} :
    script (together cap order size nrepeat) 0 = .send 1 2 (.int size) ::
      .send 1 2 (.int nrepeat) :: .round (barrierRound 2 cap) :: (List.replicate nrepeat.toNat
        (iteration cap true 1 (pattern (order 0) 98 (nbytes size))
          (pattern (order 1) 98 (nbytes size)))).flatten := by
  rw [together, List.append_cons, script_append, script_replicate]
  rfl

theorem script_together_one {order : Fin 2 → ByteOrder} {size nrepeat : UInt32} :
    script (together cap order size nrepeat) 1 = .recv 0 2 (.int size) ::
      .recv 0 2 (.int nrepeat) :: .round (barrierRound 2 cap) :: (List.replicate nrepeat.toNat
        (iteration cap false 0 (pattern (order 1) 98 (nbytes size))
          (pattern (order 0) 98 (nbytes size)))).flatten := by
  rw [together, List.append_cons, script_append, script_replicate]
  rfl

/-- **Two ranks** complete the run. -/
theorem two_ranks {order : Fin 2 → ByteOrder} (hsize : 1 ≤ size ∧ size < 2 ^ 31)
    (hnrepeat : 1 ≤ nrepeat ∧ nrepeat < 2 ^ 31) : ∀ i : Fin 2,
    Keeps (N := communicator 2 cap) nowhere (fun r => ∃ t, r = .tuple size nrepeat t) i
      (rank (order i) i size nrepeat)
      (script (together cap order (toUint32 size) (toUint32 nrepeat)) i) := by
  obtain ⟨hparse, hne⟩ := parse_accepted hsize hnrepeat
  have hresult : ∀ t, PyResult.tuple (toInt32 (toUint32 size)) (toInt32 (toUint32 nrepeat)) t =
      .tuple size nrepeat t := by
    intro t
    rw [toInt32_toUint32 (by omega) hsize.2, toInt32_toUint32 (by omega) hnrepeat.2]
  rw [Fin.forall_fin_two]
  constructor
  · rw [script_together_zero, ← List.append_nil (List.flatten _)]
    apply keeps_rank (@given_first (order 0) 2 (Nat.le_refl 2) 0 1 rfl rfl) id rfl
    intro h hs
    -- what it sends is its own pattern, in its own byte order
    refine seat_transmitter hs hparse (seat_runBody hs (pattern_length _ _ _) ?_)
    intro h' t _
    exact ⟨rfl, t, hresult t⟩
  · rw [script_together_one, ← List.append_nil (List.flatten _)]
    apply keeps_rank (@given_last (order 1) 2 (Nat.le_refl 2) 1 0 rfl rfl) id rfl
    intro h hs
    apply seat_receiver hs
    rw [if_neg hne]
    apply seat_runBody hs (pattern_length _ _ _)
    intro h' t _
    exact ⟨rfl, t, hresult t⟩

/-! ### Three ranks or more -/

/-- The first and the last rank stand at the barrier. -/
def atBarrier : Idle n Msg Coll := fun i o =>
  ((i : Nat) = 0 ∨ (i : Nat) = n - 1) ∧ o = .coll .barrier

theorem blocked_atBarrier (hn : 3 ≤ n) : (atBarrier : Idle n Msg Coll).Blocked where
  send _ _ _ _ h := nomatch h.2
  recv _ _ _ h := nomatch h.2
  -- rank 1 does not call it
  coll _ _ _ := ⟨⟨1, by omega⟩, fun _ h => h.1.elim (fun h0 => absurd h0 Nat.one_ne_zero)
    fun hlast => absurd (show 1 = n - 1 from hlast) (by omega)⟩

/-- What each rank does then. -/
theorem keeps_rank_barrier (hn : 3 ≤ n) (hsize : 1 ≤ size ∧ size < 2 ^ 31)
    (hnrepeat : 1 ≤ nrepeat ∧ nrepeat < 2 ^ 31) {first last : Fin n} (hfirst : (first : Nat) = 0)
    (hlast : (last : Nat) = n - 1) (hne : first ≠ last) (i : Fin n) :
    Keeps (N := communicator n cap) atBarrier
      (fun r => (i : Nat) ≠ 0 ∧ (i : Nat) ≠ n - 1 ∧ r = .null) i (rank (order i) i size nrepeat)
      (script (Control n cap first last hne (toUint32 size) (toUint32 nrepeat)) i) := by
  obtain ⟨hparse, hsize'⟩ := parse_accepted hsize hnrepeat
  have hidle : ¬ (atBarrier : Idle n Msg Coll) i (.recv 0 3) := by
    rintro ⟨-, h⟩
    cases h
  have hstands : ∀ {i : Fin n} {h o tr rcv} {peer : Fin n} {Q},
      ((i : Nat) = 0 ∨ (i : Nat) = n - 1) → Seat h o false tr rcv peer false →
      wp (seatHandler 0 3 cap atBarrier i) (runBody mpi h (toUint32 size) (toUint32 nrepeat)) Q
        [] :=
    fun hi hs => seat_atBarrier hs ⟨rfl, hi, rfl⟩
  by_cases h0 : (i : Nat) = 0
  · -- the first one sends the numbers and stands there
    obtain rfl : first = i := Fin.ext (hfirst.trans h0.symm)
    simp only [script, Act.part, List.filterMap_cons, List.filterMap_nil, if_true]
    apply keeps_rank (given_first _ (by omega) hlast h0) hidle (if_pos h0)
    intro h hs
    exact seat_transmitter hs hparse (hstands (Or.inl h0) hs)
  · have hi : first ≠ i := fun heq => h0 (heq ▸ hfirst)
    by_cases hend : (i : Nat) = n - 1
    · -- the last one receives them and stands there
      obtain rfl : last = i := Fin.ext (hlast.trans hend.symm)
      simp only [script, Act.part, List.filterMap_cons, List.filterMap_nil, if_neg hi, if_true]
      apply keeps_rank (given_last _ (by omega) hfirst hend) hidle (if_neg h0)
      intro h hs
      apply seat_receiver hs
      rw [if_neg hsize']
      exact hstands (Or.inr hend) hs
    · -- all others are neither transmitter nor receiver: no message is for them
      have hi' : last ≠ i := fun heq => hend (heq ▸ hlast)
      simp only [script, Act.part, List.filterMap_cons, List.filterMap_nil, if_neg hi, if_neg hi']
      apply keeps_rank (given_between _ (by omega) h0 hend) hidle (if_neg h0)
      intro h hs
      exact seat_bailOut hs rfl ⟨rfl, h0, hend, rfl⟩

/-- **Three ranks or more**: the first and the last one never leave the barrier, as those in
    between have returned with an exception and do not call it. -/
theorem barrier_ends (hn : 3 ≤ n) (hsize : 1 ≤ size ∧ size < 2 ^ 31)
    (hnrepeat : 1 ≤ nrepeat ∧ nrepeat < 2 ^ 31) {c : Config n Msg Coll.Res Event PyResult}
    (hc : Steps (communicator n cap) (runStart order size nrepeat) c)
    (hs : Stuck (communicator n cap) c) (i : Fin n) :
    ((i : Nat) ≠ 0 ∧ (i : Nat) ≠ n - 1 ∧ (c.party i).Returned .null) ∨
      ((i : Nat) = 0 ∨ (i : Nat) = n - 1) ∧ ∃ k, (c.party i).prog = .io (.coll .barrier) k := by
  obtain ⟨first, hfirst⟩ : ∃ i : Fin n, (i : Nat) = 0 := ⟨⟨0, by omega⟩, rfl⟩
  obtain ⟨last, hlast⟩ : ∃ i : Fin n, (i : Nat) = n - 1 := ⟨⟨n - 1, by omega⟩, rfl⟩
  have hne : first ≠ last := by
    rintro rfl
    omega
  rcases ends (blocked_atBarrier hn) (keeps_rank_barrier hn hsize hnrepeat hfirst hlast hne) hc hs i
    with ⟨r, hret, h0, hend, rfl⟩ | ⟨o, k, hp, hi, rfl⟩
  · exact Or.inl ⟨h0, hend, hret⟩
  · exact Or.inr ⟨hi, k, hp⟩

/-! ### Refused arguments -/

/-- The last rank stands in the receive of a size. -/
def atRecv : Idle n Msg Coll := fun i o => (i : Nat) = n - 1 ∧ o = .recv 0 2

theorem blocked_atRecv : (atRecv : Idle n Msg Coll).Blocked where
  send _ _ _ _ h := nomatch h.2
  recv i source tag h := by
    obtain ⟨-, heq⟩ := h
    injection heq with hsource _
    exact ⟨⟨0, Nat.zero_lt_of_lt i.isLt⟩, hsource⟩
  coll _ _ h := nomatch h.2

/-- What each rank does then: only the last one has something to wait for. -/
theorem keeps_rank_refused (hn : 2 ≤ n) (hrefused : ¬ (size < 2 ^ 31 ∧ nrepeat < 2 ^ 31))
    (i : Fin n) :
    Keeps (N := communicator n cap) atRecv (fun r => (i : Nat) ≠ n - 1 ∧ r = .null) i
      (rank (order i) i size nrepeat) (script [] i) := by
  obtain ⟨first, hfirst⟩ : ∃ i : Fin n, (i : Nat) = 0 := ⟨⟨0, by omega⟩, rfl⟩
  obtain ⟨last, hlast⟩ : ∃ i : Fin n, (i : Nat) = n - 1 := ⟨⟨n - 1, by omega⟩, rfl⟩
  have hidle : ¬ (atRecv : Idle n Msg Coll) i (.recv 0 3) := by
    rintro ⟨-, h⟩
    injection h with _ htag
    exact absurd htag (by decide)
  by_cases hend : (i : Nat) = n - 1
  · have h0 : (i : Nat) ≠ 0 := by omega
    apply keeps_rank (given_last _ hn hfirst hend) hidle (if_neg h0)
    intro h hs
    rw [netpipeRunIters]
    simp only [pyArgParseTuple, hs.rcv, if_true, Proc.bind_eq]
    exact Or.inl ⟨rfl, hend, by rw [hs.sourceNode, hfirst]; rfl⟩
  · by_cases h0 : (i : Nat) = 0
    · apply keeps_rank (given_first _ hn hlast h0) hidle (if_pos h0)
      intro h hs
      exact seat_bailOut hs (parse_refused hrefused) ⟨rfl, hend, rfl⟩
    · apply keeps_rank (given_between _ hn h0 hend) hidle (if_neg h0)
      intro h hs
      exact seat_bailOut hs rfl ⟨rfl, hend, rfl⟩

/-- **Refused arguments**: the last rank waits for a size. -/
theorem recv_ends (hn : 2 ≤ n) (hrefused : ¬ (size < 2 ^ 31 ∧ nrepeat < 2 ^ 31))
    {c : Config n Msg Coll.Res Event PyResult}
    (hc : Steps (communicator n cap) (runStart order size nrepeat) c)
    (hs : Stuck (communicator n cap) c) (i : Fin n) :
    ((i : Nat) ≠ n - 1 ∧ (c.party i).Returned .null) ∨
      ∃ k, (c.party i).prog = .io (.recv 0 2) k := by
  rcases ends blocked_atRecv (keeps_rank_refused hn hrefused) hc hs i with
    ⟨r, hret, hend, rfl⟩ | ⟨o, k, hp, -, rfl⟩
  · exact Or.inl ⟨hend, hret⟩
  · exact Or.inr ⟨k, hp⟩

/-! ### Both together -/

/-- All rounds of two ranks: one barrier. -/
theorem allRounds_together {order : Fin 2 → ByteOrder} {size nrepeat : UInt32} :
    allRounds (together cap order size nrepeat) = [barrierRound 2 cap] := by
  have hbounces : ∀ k, allRounds (List.replicate k
      [(.msg 0 1 (by decide) 1 (.bytes (pattern (order 0) 98 (nbytes size))) :
          Act Msg (communicator 2 cap)),
        .msg 1 0 (by decide) 1 (.bytes (pattern (order 1) 98 (nbytes size)))]).flatten = [] := by
    intro k
    induction k with
    | zero => rfl
    | succ k ih => exact ih
  exact congrArg (barrierRound 2 cap :: ·) (hbounces nrepeat.toNat)

theorem unblocked_two {order : Fin 2 → ByteOrder} (hsize : 1 ≤ size ∧ size < 2 ^ 31)
    (hnrepeat : 1 ≤ nrepeat ∧ nrepeat < 2 ^ 31) :
    Unblocked (communicator 2 cap) (runStart order size nrepeat) := by
  have hkeeps : ∀ i : Fin 2, Keeps (N := communicator 2 cap) nowhere _ i
      (rank (order i) i size nrepeat) _ := two_ranks hsize hnrepeat
  constructor
  · refine .of_stuck ?_
    intro c hc hs i
    obtain ⟨r, hret, -⟩ := (completes hkeeps).returned c hc hs i
    exact ⟨r, hret, trivial⟩
  · have hdone : ∀ c, Steps (communicator 2 cap) (runStart order size nrepeat) c →
        Stuck (communicator 2 cap) c → ∀ i, (c.party i).done = [.barrier] := by
      intro c hc hs i
      have hrounds := done_rounds blocked_nowhere hkeeps hc hs i
      rw [allRounds_together] at hrounds
      obtain ⟨op, _, hop, hnil, heq⟩ := List.forall₂_cons_left_iff.mp hrounds
      obtain rfl : op = .barrier := hop
      rw [heq, List.forall₂_nil_left_iff.mp hnil]
    intro c hc hs i j
    rw [hdone c hc hs i, hdone c hc hs j]

/-- Somebody is left behind. -/
theorem not_unblocked (hn : 2 ≤ n) (hsize : 1 ≤ size) (hnrepeat : 1 ≤ nrepeat)
    (hnot : ¬ (n = 2 ∧ size < 2 ^ 31 ∧ nrepeat < 2 ^ 31)) :
    ¬ Unblocked (communicator n cap) (runStart order size nrepeat) := by
  intro hall
  obtain ⟨c, hc, hs⟩ := exists_stuck (N := communicator n cap) (runStart order size nrepeat)
  obtain ⟨r, hret, -⟩ := hall.completes.returned c hc hs ⟨n - 1, by omega⟩
  by_cases hargs : size < 2 ^ 31 ∧ nrepeat < 2 ^ 31
  · have hn' : 3 ≤ n := by omega
    rcases barrier_ends hn' ⟨hsize, hargs.1⟩ ⟨hnrepeat, hargs.2⟩ hc hs ⟨n - 1, by omega⟩ with
      ⟨-, hend, -⟩ | ⟨-, k, hp⟩
    · exact hend rfl
    · cases hret.symm.trans hp
  · rcases recv_ends hn hargs hc hs ⟨n - 1, by omega⟩ with ⟨hend, -⟩ | ⟨k, hp⟩
    · exact hend rfl
    · cases hret.symm.trans hp

/-- **When nobody is left behind**: with exactly two ranks, and a size and a repeat count that
    `run_iters` accepts. -/
theorem unblocked_iff (hn : 2 ≤ n) (cap : ℕ∞) (order : Fin n → ByteOrder) (hsize : 1 ≤ size)
    (hnrepeat : 1 ≤ nrepeat) :
    Unblocked (communicator n cap) (runStart order size nrepeat) ↔
      n = 2 ∧ size < 2 ^ 31 ∧ nrepeat < 2 ^ 31 := by
  constructor
  · intro hall
    by_contra hnot
    exact not_unblocked hn hsize hnrepeat hnot hall
  · rintro ⟨rfl, hsize', hnrepeat'⟩
    exact unblocked_two ⟨hsize, hsize'⟩ ⟨hnrepeat, hnrepeat'⟩

/-- Two ranks and a byte. -/
theorem unblocked_byte : Unblocked (communicator 2 0) (runStart (fun _ => .little) 8 1) :=
  (unblocked_iff (Nat.le_refl 2) 0 _ (by decide) (by decide)).mpr ⟨rfl, by decide, by decide⟩

/-- Three ranks and a byte: the first and the last one stand at the barrier for ever. -/
theorem blocked_three :
    ¬ Unblocked (communicator 3 ⊤) (runStart (fun _ => .little) 8 1) ∧
      ∀ c, Steps (communicator 3 ⊤) (runStart (fun _ => .little) 8 1) c →
        Stuck (communicator 3 ⊤) c → (c.party 1).Returned .null ∧
          ∀ i : Fin 3, i ≠ 1 → ∃ k, (c.party i).prog = .io (.coll .barrier) k := by
  refine ⟨not_unblocked (by decide) (by decide) (by decide) (by decide), ?_⟩
  intro c hc hs
  have hends := barrier_ends (Nat.le_refl 3) ⟨by decide, by decide⟩ ⟨by decide, by decide⟩ hc hs
  constructor
  · rcases hends 1 with ⟨-, -, hret⟩ | ⟨hi, -⟩
    · exact hret
    · exact absurd hi (by decide)
  · intro i hi
    rcases hends i with ⟨h0, hend, -⟩ | ⟨-, hwait⟩
    · exact absurd (Fin.ext (by omega)) hi
    · exact hwait

end main

end NetPipe.PointToPoint
