/-
  The part of MPI that `mpi.c` and `mpi_atoa.c` use.

  Messages are single `MPI_INT`s or strings of `MPI_BYTE`s.  A collective completes where all
  ranks have called the same one, with the same root and the same count (`Coll.kind`):

  * `MPI_Bcast` gives every rank the root's word;
  * `MPI_Barrier` gives nothing;
  * `MPI_Alltoall` gives rank `i` the `i`-th block of every rank's send buffer, in the order of the
    ranks.

  Where calls do not fit together nothing completes, and everybody waits; the standard leaves it
  undefined, and what is shown to match never comes to it.

  The second half makes rounds of `Lib.Choreo` of them (`bcastRound`, `barrierRound`,
  `alltoallRound`): what each rank may call, what it is given then, and that all calls of a round
  always complete.  Programs are checked against these and not against `complete`.
-/
import Mathlib.Data.List.FinRange
import NetPipe.Buffers
import NetPipe.Lib.Choreo

namespace NetPipe.Mpi

open Ranks

/-- What is sent from one rank to another. -/
inductive Msg where
  | int (w : UInt32)
  | bytes (bs : List UInt8)
  deriving DecidableEq, Repr

/-- A collective, as one rank calls it.  The buffer of `MPI_Bcast` is an `MPI_INT`, of which only
    the root's contents count; the send buffer of `MPI_Alltoall` holds a block for every rank. -/
inductive Coll where
  | bcast (root count : Int) (buf : Option UInt32)
  | barrier
  | alltoall (count : Int) (sendbuf : List UInt8)
  deriving DecidableEq, Repr

/-- What it leaves in the buffer it receives into. -/
def Coll.Res : Coll → Type
  | .bcast .. => UInt32
  | .barrier => Unit
  | .alltoall .. => List UInt8

/-- What has to be the same on all ranks. -/
inductive Kind where
  | bcast (root count : Int)
  | barrier
  | alltoall (count : Int)
  deriving DecidableEq, Repr

def Coll.kind : Coll → Kind
  | .bcast root count _ => .bcast root count
  | .barrier => .barrier
  | .alltoall count _ => .alltoall count

/-- The `i`-th block of `count` bytes. -/
def block (count : Int) (i : Nat) (bs : List UInt8) : List UInt8 :=
  (bs.drop (i * count.toNat)).take count.toNat

/-- The send buffer of a call. -/
def Coll.sendbuf : Coll → List UInt8
  | .alltoall _ bs => bs
  | _ => []

/-- What `MPI_Alltoall` leaves at rank `i`: one block from every rank. -/
def exchanged {n : Nat} (count : Int) (sendbuf : Fin n → List UInt8) (i : Fin n) : List UInt8 :=
  (List.finRange n).flatMap fun j => block count i (sendbuf j)

/-- A collective that rank `i` called as `c` and the others as `ops` completes with `r`. -/
def complete {n : Nat} (ops : Fin n → Coll) (i : Fin n) (c : Coll) (r : c.Res) : Prop :=
  (∀ j, (ops j).kind = c.kind) ∧
    match c, r with
    | .bcast root count _, w => ∃ j : Fin n, (j : Int) = root ∧ ops j = .bcast root count (some w)
    | .barrier, _ => True
    | .alltoall count _, bs => bs = exchanged count (fun j => (ops j).sendbuf) i

/-- A communicator of `n` ranks. -/
def communicator (n : Nat) (cap : ℕ∞) : Network n Coll Coll.Res := ⟨cap, complete⟩

abbrev MpiProg (Ev α : Type) := RankProg Msg Coll.Res Ev α

/-! ## Blocks -/

theorem block_length {count : Int} {i : Nat} {bs : List UInt8}
    (h : (i + 1) * count.toNat ≤ bs.length) : (block count i bs).length = count.toNat := by
  rw [block, List.length_take, List.length_drop]
  rw [Nat.succ_mul] at h
  omega

/-- A block of one value. -/
theorem block_getElem? {count : Int} {i k : Nat} {bs : List UInt8} (hk : k < count.toNat) :
    (block count i bs)[k]? = bs[i * count.toNat + k]? := by
  rw [block, List.getElem?_take, if_pos hk, List.getElem?_drop]

theorem exchanged_length {n : Nat} {count : Int} {sendbuf : Fin n → List UInt8} {i : Fin n}
    (h : ∀ j, (sendbuf j).length = n * count.toNat) :
    (exchanged count sendbuf i).length = n * count.toNat := by
  have hblock (j : Fin n) : (block count i (sendbuf j)).length = count.toNat :=
    block_length (h j ▸ Nat.mul_le_mul_right _ i.isLt)
  rw [exchanged, List.length_flatMap]
  simp only [hblock, List.map_const', List.length_finRange, List.sum_replicate, smul_eq_mul]

/-- Every byte that is sent arrives somewhere, and nothing else does. -/
theorem forall_exchanged {n m : Nat} {sendbuf : Fin n → List UInt8}
    (h : ∀ j, (sendbuf j).length = n * m) (P : UInt8 → Prop) :
    (∀ i, ∀ b ∈ exchanged m sendbuf i, P b) ↔ ∀ j, ∀ b ∈ sendbuf j, P b := by
  constructor
  · intro hall j b hb
    obtain ⟨p, hp, rfl⟩ := List.getElem_of_mem hb
    have hlt : p < n * m := h j ▸ hp
    have hm : 0 < m := Nat.pos_of_ne_zero fun hm => by simp [hm] at hlt
    -- the byte is in the block of rank `p / m`
    have hi : p / m < n := Nat.div_lt_of_lt_mul (Nat.mul_comm n m ▸ hlt)
    have hget := @block_getElem? m (p / m) (p % m) (sendbuf j) (Nat.mod_lt p hm)
    rw [Int.toNat_natCast, Nat.mul_comm, Nat.div_add_mod, List.getElem?_eq_getElem hp] at hget
    refine hall ⟨p / m, hi⟩ _ (List.mem_flatMap.mpr ⟨j, List.mem_finRange j, ?_⟩)
    exact List.mem_of_getElem? hget
  · intro hall i b hb
    obtain ⟨j, -, hb⟩ := List.mem_flatMap.mp hb
    exact hall j b (List.mem_of_mem_drop (List.mem_of_mem_take hb))

/-! ## Rounds -/

section rounds

open Choreo

variable {n : Nat}

/-- `MPI_Bcast` of `w` from `root`. -/
def bcastRound (cap : ℕ∞) (root : Fin n) (w : UInt32) : Round (communicator n cap) where
  allowed i c := c = .bcast root 1 (if i = root then some w else none)
  gives
    | _, .bcast .., v => v = w
    | _, _, _ => True
  sound := by
    intro ops i r hops hr
    have hroot : ∀ j : Fin n, (j : Int) = root → j = root := by
      simp [Fin.ext_iff]
    revert r
    rw [hops i]
    rintro r ⟨-, j, hj, hword⟩
    rw [hops j, if_pos (hroot j hj)] at hword
    injection hword with _ _ hword
    exact (Option.some.inj hword).symm
  live := by
    intro ops i hops
    rw [hops i]
    refine ⟨w, ?_, root, rfl, ?_⟩
    · intro j
      rw [hops j]
      rfl
    · rw [hops root, if_pos rfl]

/-- `MPI_Barrier`. -/
def barrierRound (n : Nat) (cap : ℕ∞) : Round (communicator n cap) where
  allowed _ c := c = .barrier
  gives _ _ _ := True
  sound _ _ _ _ _ := trivial
  live := by
    intro ops i hops
    rw [hops i]
    refine ⟨(), fun j => ?_, trivial⟩
    rw [hops j]

/-- `MPI_Alltoall` of these blocks from send buffers about which `sent` is known. -/
def alltoallRound (cap : ℕ∞) (count : Int) (sent got : Fin n → List UInt8 → Prop)
    (h : ∀ bufs : Fin n → List UInt8, (∀ j, sent j (bufs j)) →
      ∀ i, got i (exchanged count bufs i)) : Round (communicator n cap) where
  allowed i c := ∃ bs, c = .alltoall count bs ∧ sent i bs
  gives
    | i, .alltoall .., bs => got i bs
    | _, _, _ => True
  sound := by
    intro ops i r hops hr
    have hsent : ∀ j, sent j (ops j).sendbuf := by
      intro j
      obtain ⟨bs, hbs, hsent⟩ := hops j
      rw [hbs]
      exact hsent
    obtain ⟨bs, hbs, -⟩ := hops i
    revert r
    rw [hbs]
    rintro r ⟨-, hr⟩
    exact hr ▸ h _ hsent i
  live := by
    intro ops i hops
    obtain ⟨bs, hbs, -⟩ := hops i
    rw [hbs]
    refine ⟨exchanged count (fun j => (ops j).sendbuf) i, fun j => ?_, rfl⟩
    obtain ⟨bs', hbs', -⟩ := hops j
    rw [hbs']
    rfl

end rounds

/-! ## Ranks of `run_iters` -/

section handler

open Process Choreo

variable {n : Nat} {cap : ℕ∞} {idle : Idle n Msg Coll} {i : Fin n}

/-- The handler of rank `i`. -/
abbrev rankHandler (cap : ℕ∞) (idle : Idle n Msg Coll) (i : Fin n) :
    Handler (RankOp Msg Coll) (RankOp.Res Coll.Res) Event (List (Part Msg (communicator n cap))) :=
  handler (communicator n cap) idle Event i

theorem sane_rankHandler : Sane (rankHandler cap idle i) where
  alloc_length := by
    rintro m bs ⟨bs', heq, hlen⟩
    rw [Option.some.inj heq, hlen]
  alloc_fail := by
    rintro m ⟨bs', heq, -⟩
    cases heq

end handler

end NetPipe.Mpi
