/-
  `mpi2.c` with fences: one-sided transfers between two ranks, each with the receive buffer of the
  run as its window.

  Every transfer is one fence of both ranks: `SendData` is a put or a get and the fence behind it,
  `RecvData` is the fence alone.  A put comes into the receive buffer of the other rank; a get
  (`use_get`) brings the other rank's receive buffer into the own send buffer, so that nothing ever
  comes into a receive buffer.

  1. **Windows**, and what a fence does with them (`windows`).  A fence is a collective of
     `Lib.Ranks`.  What a rank has asked for since the fence before goes with its call, and so does
     its window as it is then: puts take effect at the fence, in the window of the rank they go to,
     and a store the program made to its window before the fence is not lost.

  2. **The functions** of the module.

  3. **A fence of two ranks as a round** (`fenceRound`) of `Lib.Choreo`.  What a rank asks for is
     a put into all of the other one's window, a get of all of it, or nothing (`Whole`), so the
     windows behind a fence are known (`landed_eq`).  The load-bearing lemma is `wp_winFence`: one
     fence, seen from one rank, is what the other one has put and what it has itself got, and
     nothing else has changed.
-/
import NetPipe.Buffers
import NetPipe.Lib.Choreo

namespace NetPipe.Fence

open Memory Process Ranks Choreo

/-- There are two ranks: what the literals `0` and `1` for them rest on. -/
scoped instance neZero_two : NeZero 2 := ⟨two_ne_zero⟩

/-! ## Windows -/

/-- What is asked of the window of another rank. -/
inductive Rma where
  | put (target disp : Int) (buf : List UInt8)
  | get (target disp count : Int)
  deriving DecidableEq, Repr

/-- A collective, as one rank calls it.  With a fence go the bytes of its window at that time, and
    what it has asked for since the fence before. -/
inductive Coll where
  | winCreate (size : Int)
  | fence (window : List UInt8) (rma : Option Rma)
  deriving DecidableEq, Repr

/-- What it leaves: behind a fence, in the window, and in the buffer of a get. -/
def Coll.Res : Coll → Type
  | .winCreate _ => Unit
  | .fence .. => List UInt8 × List UInt8

def Coll.isFence : Coll → Bool
  | .winCreate _ => false
  | .fence .. => true

def Coll.window : Coll → List UInt8
  | .winCreate _ => []
  | .fence window _ => window

def Coll.rma : Coll → Option Rma
  | .winCreate _ => none
  | .fence _ rma => rma

/-- The window of rank `i` with what one rank puts into it. -/
def land (i : Int) (rma : Option Rma) (window : List UInt8) : Option (List UInt8) :=
  match rma with
  | some (.put target disp buf) =>
    if target = i then (if 0 ≤ disp then storeAt window disp.toNat buf else none) else some window
  | _ => some window

/-- What all ranks put into it. -/
def landed {n : Nat} (ops : Fin n → Coll) (i : Fin n) (window : List UInt8) :
    Option (List UInt8) :=
  (List.finRange n).foldlM (fun w j => land i (ops j).rma w) window

/-- What a rank gets. -/
def Fetched {n : Nat} (ops : Fin n → Coll) : Option Rma → List UInt8 → Prop
  | some (.get target disp count), bs => ∃ j : Fin n, (j : Int) = target ∧ 0 ≤ disp ∧
      loadAt (ops j).window disp.toNat count.toNat = some bs
  | _, bs => bs = []

/-- A collective that rank `i` called as `c` and the others as `ops` completes with `r`. -/
def complete {n : Nat} (ops : Fin n → Coll) (i : Fin n) (c : Coll) (r : c.Res) : Prop :=
  (∀ j, (ops j).isFence = c.isFence) ∧
    match c, r with
    | .winCreate _, _ => True
    | .fence window rma, (window', bs) => landed ops i window = some window' ∧ Fetched ops rma bs

/-- A communicator of `n` ranks with one window. -/
def windows (n : Nat) (cap : ℕ∞) : Network n Coll Coll.Res := ⟨cap, complete⟩

abbrev Prog (α : Type) := RankProg UInt32 Coll.Res Event α

/-! ## The functions -/

/-- The protocol structure, and the window `win`: its base and its size. -/
structure Prot where
  useGet : Bool
  iproc : Int
  nbor : Int
  win : Ptr
  winSize : Int
  deriving DecidableEq, Repr

abbrev Host := Netpipe Prot

/-- `Init`: default to put, and to fence. -/
def init (h : Host) : Host := { h with args.prot.useGet := false }

/-- `Setup`, where `MPI_Comm_rank` and `MPI_Comm_size` give these. -/
def setup (h : Host) (iproc nprocs : Int) : Prog Host :=
  let h := { h with args.prot.iproc := iproc }
  if nprocs < 2 then .exit (-2) s!"Need at least 2 processes, we have {nprocs}\n"
  else
    let h := { h with args.tr := false, args.rcv := false }
    .ret <|
      if iproc = 0 then { h with args.tr := true, args.prot.nbor := nprocs - 1 }
      else if iproc = nprocs - 1 then { h with args.rcv := true, args.prot.nbor := 0 }
      else h

/-- `MPI_Win_fence(0, win)`, with the put or the get before it. -/
def winFence (h : Host) (rma : Option Rma) : Prog Host := do
  let window ← Proc.ofOption (h.heap.load h.args.prot.win h.args.prot.winSize.toNat)
  .io (.coll (.fence window rma)) fun r => do
    let heap ← Proc.ofOption (h.heap.store h.args.prot.win r.1)
    match rma with
    | some (.get ..) => do
      let heap ← Proc.ofOption (heap.store h.args.sPtr r.2)
      .ret { h with heap }
    | _ => .ret { h with heap }

/-- `Sync`. -/
def sync (h : Host) : Prog Host := winFence h none

/-- `SendData`. -/
def sendData (h : Host) : Prog Host :=
  let bufOffset := if !h.args.cache then ptrdiff h.args.sPtr h.args.sBuff else 0
  if h.args.prot.useGet then winFence h (some (.get h.args.prot.nbor bufOffset h.args.bufflen))
  else do
    let buf ← Proc.ofOption (h.heap.load h.args.sPtr h.args.bufflen.toNat)
    winFence h (some (.put h.args.prot.nbor bufOffset buf))

/-- `RecvData`. -/
def recvData (h : Host) : Prog Host := winFence h none

/-- `SendRepeat`. -/
def sendRepeat (h : Host) (rpt : UInt32) : Prog Host :=
  .io (.send h.args.prot.nbor 2 rpt) fun _ => .ret h

/-- `RecvRepeat`. -/
def recvRepeat (h : Host) : Prog (UInt32 × Host) :=
  .io (.recv h.args.prot.nbor 2) fun rpt => .ret (rpt, h)

/-- `AfterAlignmentInit`: `MPI_Win_create` on the receive buffer. -/
def afterAlignmentInit (h : Host) : Prog Host :=
  .io (.coll (.winCreate h.args.bufflen)) fun _ =>
    .ret { h with args.prot.win := h.args.rBuff, args.prot.winSize := h.args.bufflen }

/-- The module. -/
def mpi2 : Module (RankOp UInt32 Coll) (RankOp.Res Coll.Res) Prot where
  sendRepeat
  recvRepeat
  myMalloc
  initBufferData
  afterAlignmentInit
  prepareToReceive h := .ret h
  sync
  sendData
  recvData
  checkBufferData
  freeBuff

/-- A rank: `netpipe_object`, `Setup`, and one call of `run_iters` after the other. -/
def process {n : Nat} (order : ByteOrder) (useGet async : Bool) (i : Fin n)
    (calls : List (List Int)) : Prog (List PyResult) := do
  let h ← setup (init (netpipeObject order (Prot.mk false 0 0 .null 0) none)) i n
  session mpi2 { h with args.prot.useGet := useGet, asyncReceive := async } calls

/-! ## Rounds of two ranks -/

/-- A put of `m` bytes into all of the other rank's window, or a get of all of it. -/
def Whole (m : Nat) (i : Fin 2) : Option Rma → Prop
  | none => True
  | some (.put target disp buf) => target = (1 - i : Fin 2) ∧ disp = 0 ∧ buf.length = m
  | some (.get target disp count) => target = (1 - i : Fin 2) ∧ disp = 0 ∧ count = m

/-- A window once the other rank has put all of it, if it has. -/
def overwritten : Option Rma → List UInt8 → List UInt8
  | some (.put _ _ buf), _ => buf
  | _, window => window

/-- How many bytes a rank gets. -/
def gotLength : Option Rma → Nat
  | some (.get _ _ count) => count.toNat
  | _ => 0

/-- All of a buffer is replaced. -/
theorem storeAt_all {s bs : List UInt8} (h : bs.length = s.length) : storeAt s 0 bs = some bs := by
  rw [storeAt, if_pos (by omega), List.take_zero, List.drop_eq_nil_of_le (by omega),
    List.append_nil, List.nil_append]

theorem overwritten_length {m : Nat} {i : Fin 2} {rma : Option Rma} {window : List UInt8}
    (h : Whole m i rma) (hlen : window.length = m) : (overwritten rma window).length = m := by
  rcases rma with _ | ⟨target, disp, buf⟩ | ⟨target, disp, count⟩
  · exact hlen
  · exact h.2.2
  · exact hlen

/-- A rank puts nothing into its own window. -/
theorem land_own {m : Nat} {i : Fin 2} {rma : Option Rma} (h : Whole m i rma)
    (window : List UInt8) : land (i : Nat) rma window = some window := by
  rcases rma with _ | ⟨target, disp, buf⟩ | ⟨target, disp, count⟩
  · rfl
  · have hne : target ≠ ((i : Nat) : Int) := by
      have htarget := h.1
      rcases show i = 0 ∨ i = 1 by omega with rfl | rfl
      · exact htarget ▸ one_ne_zero
      · exact htarget ▸ zero_ne_one
    exact if_neg hne
  · rfl

/-- And all of the other one's. -/
theorem land_peer {m : Nat} {i : Fin 2} {rma : Option Rma} (h : Whole m (1 - i) rma)
    {window : List UInt8} (hlen : window.length = m) :
    land (i : Nat) rma window = some (overwritten rma window) := by
  rcases rma with _ | ⟨target, disp, buf⟩ | ⟨target, disp, count⟩
  · rfl
  · obtain ⟨htarget, rfl, hbuf⟩ := h
    rw [show 1 - (1 - i) = i by omega] at htarget
    show (if target = _ then (if (0 : Int) ≤ 0 then storeAt window 0 buf else none) else _) = _
    rw [if_pos htarget, if_pos le_rfl, storeAt_all (hbuf.trans hlen.symm)]
    rfl
  · rfl

section rounds

variable (cap : ℕ∞)

/-- `MPI_Win_create`. -/
def winRound : Round (windows 2 cap) where
  allowed _ c := c.isFence = false
  gives _ _ _ := True
  sound _ _ _ _ _ := trivial
  live := by
    intro ops i hops
    have hkind : ∀ j, (ops j).isFence = (ops i).isFence := fun j => (hops j).trans (hops i).symm
    cases hop : ops i with
    | winCreate size => exact ⟨(), fun j => (hkind j).trans (by rw [hop]), trivial⟩
    | fence window rma =>
      have hfence := hops i
      rw [hop] at hfence
      cases hfence

/-- What the windows are behind a fence. -/
theorem landed_eq {m : Nat} {rma : Fin 2 → Option Rma} (h : ∀ i, Whole m i (rma i))
    {ops : Fin 2 → Coll} (hops : ∀ j, (ops j).rma = rma j) (i : Fin 2) {window : List UInt8}
    (hlen : window.length = m) :
    landed ops i window = some (overwritten (rma (1 - i)) window) := by
  rw [landed, show List.finRange 2 = [0, 1] from rfl]
  simp only [List.foldlM_cons, List.foldlM_nil, hops]
  rcases show i = 0 ∨ i = 1 by omega with rfl | rfl
  · rw [land_own (h 0)]
    show (land _ (rma 1) window).bind some = _
    rw [land_peer (h 1) hlen]
    rfl
  · rw [land_peer (i := 1) (h 0) hlen]
    show (land _ (rma 1) (overwritten (rma 0) window)).bind some = _
    rw [land_own (h 1)]
    rfl

/-- `MPI_Win_fence` of windows of `m` bytes, with what each rank has asked for. -/
def fenceRound (m : Nat) (rma : Fin 2 → Option Rma) (h : ∀ i, Whole m i (rma i)) :
    Round (windows 2 cap) where
  allowed i c := ∃ window, window.length = m ∧ c = .fence window (rma i)
  gives
    | i, .fence window rma', (window', bs) =>
      window' = overwritten (rma (1 - i)) window ∧ bs.length = gotLength rma'
    | _, _, _ => True
  sound := by
    intro ops i r hops hr
    have hrma : ∀ j, (ops j).rma = rma j := by
      intro j
      obtain ⟨w, -, hw⟩ := hops j
      rw [hw]
      rfl
    obtain ⟨window, hlen, hop⟩ := hops i
    revert r
    rw [hop]
    rintro ⟨window', bs⟩ ⟨-, hlanded, hfetched⟩
    rw [landed_eq h hrma i hlen] at hlanded
    refine ⟨(Option.some.inj hlanded).symm, ?_⟩
    rcases hi : rma i with _ | ⟨target, disp, buf⟩ | ⟨target, disp, count⟩
    · rw [hi] at hfetched
      exact congrArg List.length hfetched
    · rw [hi] at hfetched
      exact congrArg List.length hfetched
    · rw [hi] at hfetched
      obtain ⟨j, -, -, hload⟩ := hfetched
      rw [loadAt] at hload
      split at hload
      · rw [← Option.some.inj hload, List.length_take, List.length_drop]
        show min count.toNat _ = count.toNat
        omega
      · cases hload
  live := by
    intro ops i hops
    have hrma : ∀ j, (ops j).rma = rma j := by
      intro j
      obtain ⟨w, -, hw⟩ := hops j
      rw [hw]
      rfl
    have hfence : ∀ j, (ops j).isFence = true := by
      intro j
      obtain ⟨w, -, hw⟩ := hops j
      rw [hw]
      rfl
    have hwindow : ∀ j, (ops j).window.length = m := by
      intro j
      obtain ⟨w, hlen, hw⟩ := hops j
      rw [hw]
      exact hlen
    obtain ⟨window, hlen, hop⟩ := hops i
    have hwhole := h i
    have hexists : ∃ bs, Fetched ops (rma i) bs := by
      rcases hi : rma i with _ | ⟨target, disp, buf⟩ | ⟨target, disp, count⟩
      · exact ⟨[], rfl⟩
      · exact ⟨[], rfl⟩
      · rw [hi] at hwhole
        obtain ⟨htarget, rfl, rfl⟩ := hwhole
        refine ⟨_, 1 - i, htarget.symm, le_rfl, if_pos ?_⟩
        rw [hwindow]
        exact Nat.le_of_eq (Nat.zero_add m)
    obtain ⟨bs, hbs⟩ := hexists
    rw [hop]
    exact ⟨(overwritten (rma (1 - i)) window, bs), hfence, landed_eq h hrma i hlen, hbs⟩

end rounds

/-! ## What each function asks for -/

/-- The module as far as `AfterAlignmentInit` does not come into it. -/
def buffers : Module (RankOp UInt32 Coll) (RankOp.Res Coll.Res) Prot :=
  { mpi2 with afterAlignmentInit := fun h => .ret h }

theorem buffers_generic : buffers.Generic := ⟨rfl, rfl, rfl, rfl, rfl⟩

/-- The handler of rank `i`, with what its checks have reported. -/
abbrev fenceHandler (cap : ℕ∞) (i : Fin 2) :
    Handler (RankOp UInt32 Coll) (RankOp.Res Coll.Res) Event
      (List (Part UInt32 (windows 2 cap)) × List Mismatch) :=
  (handler (windows 2 cap) nowhere Event i).recording mismatchOf

/-- What a rank is between two runs. -/
structure Seat (h : Host) (order : ByteOrder) (useGet tr rcv : Bool) (peer : Int) : Prop where
  order : h.order = order
  cache : h.args.cache = false
  tr : h.args.tr = tr
  rcv : h.args.rcv = rcv
  useGet : h.args.prot.useGet = useGet
  nbor : h.args.prot.nbor = peer

theorem Seat.same {h h' : Host} {order : ByteOrder} {useGet tr rcv : Bool} {peer : Int}
    (hs : Seat h order useGet tr rcv peer) (hsame : Same h h') :
    Seat h' order useGet tr rcv peer :=
  ⟨(congrArg Settings.order hsame.settings).trans hs.order,
    (congrArg Settings.cache hsame.settings).trans hs.cache,
    (congrArg Settings.tr hsame.settings).trans hs.tr,
    (congrArg Settings.rcv hsame.settings).trans hs.rcv,
    (congrArg Prot.useGet hsame.prot).trans hs.useGet,
    (congrArg Prot.nbor hsame.prot).trans hs.nbor⟩

/-- What `Setup` makes of a rank of two. -/
theorem seated (order : ByteOrder) (useGet async : Bool) (i : Fin 2) :
    ∃ h, setup (init (netpipeObject order (Prot.mk false 0 0 .null 0) none)) i (2 : Nat) =
        .ret h ∧
      Seat { h with args.prot.useGet := useGet, asyncReceive := async } order useGet (i = 0)
        (i = 1) (1 - i : Fin 2) := by
  match i with
  | 0 => exact ⟨_, rfl, rfl, rfl, rfl, rfl, rfl, rfl⟩
  | 1 => exact ⟨_, rfl, rfl, rfl, rfl, rfl, rfl, rfl⟩

/-- The buffers are in place, and the receive buffer is the window.  It is so from
    `AfterAlignmentInit` to the end of the run, and the next run makes a window of its own. -/
structure Exposed (h : Host) (m : Nat) (r s : List UInt8) : Prop extends Armed h m r s where
  win : h.args.prot.win = h.args.rBuff
  winSize : h.args.prot.winSize = m

/-- All of the send buffer is replaced. -/
theorem store_sPtr {h : Host} {m : Nat} {r s bs : List UInt8} (hh : Armed h m r s)
    (hlen : bs.length = m) :
    ∃ heap, h.heap.store h.args.sPtr bs = some heap ∧ Armed { h with heap } m r bs := by
  obtain ⟨i, j, hij, hi, hj, hrb, hrp, hro, hsb, hsp, hso⟩ := hh.blocks
  have hj' : h.heap.block j = some ([] ++ (s ++ [])) := by
    rwa [List.append_nil, List.nil_append]
  have hstore := Heap.store_addr hj' rfl (hlen.trans hh.length_s.symm)
  rw [List.append_nil, List.nil_append] at hstore
  rw [hsp]
  refine ⟨_, hstore, hh.bufflen, hh.length_r, hlen, i, j, hij, ?_, ?_, hrb, hrp, hro, hsb, hsp, hso⟩
  · exact (Function.update_of_ne hij _ _).trans hi
  · exact Function.update_self ..

section functions

variable {cap : ℕ∞} {i : Fin 2}

theorem sane_fenceHandler : Sane (fenceHandler cap i) where
  alloc_length := by
    rintro m bs ⟨bs', heq, hlen⟩
    rw [Option.some.inj heq, hlen]
  alloc_fail := by
    rintro m ⟨bs', heq, -⟩
    cases heq

variable {rest : List (Part UInt32 (windows 2 cap))} {l : List Mismatch}

/-- A mark is no report. -/
theorem emit_mark {m : Mark}
    {Q : List (Part UInt32 (windows 2 cap)) × List Mismatch → Prop} (hQ : Q (rest, l)) :
    (fenceHandler cap i).emit (.mark m) (rest, l) Q := by
  show Q (rest, l ++ [])
  rwa [List.append_nil]

variable {h : Host} {order : ByteOrder} {useGet tr rcv : Bool} {peer : Int} {m : Nat}
  {r s : List UInt8} {rma : Fin 2 → Option Rma}
  {Q : Host → List (Part UInt32 (windows 2 cap)) × List Mismatch → Prop}

/-- **A fence**: what the other rank has put comes into the receive buffer, what the rank itself
    gets into the send buffer, and both are left alone otherwise. -/
theorem wp_winFence (hs : Seat h order useGet tr rcv peer) (hh : Exposed h m r s)
    (hwhole : ∀ j, Whole m j (rma j))
    (hQ : ∀ h' s', Seat h' order useGet tr rcv peer →
      Exposed h' m (overwritten (rma (1 - i)) r) s' → (gotLength (rma i) = 0 → s' = s) →
      Q h' (rest, l)) :
    wp (fenceHandler cap i) (winFence h (rma i)) Q
      (.round (fenceRound cap m rma hwhole) :: rest, l) := by
  have hload : h.heap.load h.args.prot.win h.args.prot.winSize.toNat = some r := by
    have := hh.load_rPtr
    rwa [hh.bufflen, ← hh.winSize, ← Ptr.add_zero h.args.rPtr, ← hh.rBuff_eq, ← hh.win] at this
  rw [winFence, hload]
  refine Or.inr ⟨_, rest, rfl, ⟨r, hh.length_r, rfl⟩, ?_⟩
  rintro ⟨window', bs⟩ ⟨rfl, hbs⟩
  -- the window
  have hlen : (overwritten (rma (1 - i)) r).length = r.length :=
    (overwritten_length (hwhole _) hh.length_r).trans hh.length_r.symm
  have hr : Armed h m ([] ++ (r ++ [])) s := by
    rw [List.append_nil, List.nil_append]
    exact hh.toArmed
  obtain ⟨heap, hstore, hh'⟩ := hr.store_rPtr hlen
  rw [List.length_nil, ← hh.rBuff_eq, ← hh.win] at hstore
  rw [List.append_nil, List.nil_append] at hh'
  show wp _ ((Proc.ofOption (h.heap.store h.args.prot.win _)).bind _) _ _
  rw [hstore]
  have hs' : ∀ heap, Seat { h with heap } order useGet tr rcv peer :=
    fun heap => hs.same ⟨rfl, rfl, rfl⟩
  rcases hi : rma i with _ | ⟨target, disp, buf⟩ | ⟨target, disp, count⟩
  · exact hQ _ s (hs' heap) ⟨hh', hh.win, hh.winSize⟩ fun _ => rfl
  · exact hQ _ s (hs' heap) ⟨hh', hh.win, hh.winSize⟩ fun _ => rfl
  · -- and the send buffer
    have hcount : bs.length = m := by
      have hget := hwhole i
      rw [hi] at hbs hget
      rw [hbs]
      exact congrArg Int.toNat hget.2.2
    obtain ⟨heap', hstore', hh''⟩ := store_sPtr hh' hcount
    show wp _ ((Proc.ofOption (heap.store h.args.sPtr bs)).bind _) _ _
    rw [show heap.store h.args.sPtr bs = some heap' from hstore']
    refine hQ _ bs (hs' heap') ⟨hh'', hh.win, hh.winSize⟩ fun hzero => ?_
    rw [hi] at hbs hzero
    rw [hbs.trans hzero] at hcount
    rw [List.eq_nil_of_length_eq_zero (hbs.trans hzero),
      List.eq_nil_of_length_eq_zero (hh.length_s.trans hcount.symm)]

end functions

end NetPipe.Fence
