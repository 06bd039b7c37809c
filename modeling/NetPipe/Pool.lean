/-
  `AdvanceSendPtr` and `AdvanceRecvPtr` of `netpipe.c`: a pool of memory is walked block by block,
  so that no transfer finds its data in the cache.

  1. **The functions** — both are one step on a pointer and the start of its pool (`advance`).

  2. **The walk** (`Walked`) — the load-bearing invariant: the pointer is a whole number of blocks
     into the pool, and that number counts the calls modulo `period` (`advance_blocks`).  The test
     of the source, that there is room for one more block behind the next one, is what makes the
     count turn over before the pool ends (`room_iff`).

  3. **Both sides** (`pool_walk`) — so the blocks lie in the pool, and those of one cycle apart; and
     as both sides make the same steps, what one puts is where the other one polls.
-/
import NetPipe.Polling
import Mathlib.Algebra.Order.Floor.Div

namespace NetPipe.Pool

open Memory OneSided Polling

variable {Prot : Type}

/-! ## The functions -/

/-- `MEMSIZE`. -/
def memsize : Nat := 10000000

/-- How far a pointer is into its block. -/
def offset : Ptr → Int
  | .null => 0
  | .addr _ i => i

/-- The pointer moved forward if there is room, or back to the start of the pool. -/
def advance (ptr buff : Ptr) (blocksize : Int) : Ptr :=
  if offset ptr + blocksize < offset buff + memsize - blocksize then ptr.add blocksize.toNat
  else buff

/-- `AdvanceSendPtr(p, blocksize)`. -/
def advanceSendPtr (p : ArgStruct Prot) (blocksize : Int) : ArgStruct Prot :=
  { p with sPtr := advance p.sPtr p.sBuff blocksize }

/-- `AdvanceRecvPtr(p, blocksize)`. -/
def advanceRecvPtr (p : ArgStruct Prot) (blocksize : Int) : ArgStruct Prot :=
  { p with rPtr := advance p.rPtr p.rBuff blocksize }

/-- The two calls. -/
inductive Advance where
  | send
  | recv
  deriving DecidableEq, Repr

/-- The pointer a call moves. -/
def Advance.ptr (p : ArgStruct Prot) : Advance → Ptr
  | .send => p.sPtr
  | .recv => p.rPtr

/-- The start of its pool. -/
def Advance.buff (p : ArgStruct Prot) : Advance → Ptr
  | .send => p.sBuff
  | .recv => p.rBuff

/-- Calls in any order. -/
def run (blocksize : Int) : List Advance → ArgStruct Prot → ArgStruct Prot
  | [], p => p
  | .send :: calls, p => run blocksize calls (advanceSendPtr p blocksize)
  | .recv :: calls, p => run blocksize calls (advanceRecvPtr p blocksize)

/-- Blocks in a cycle. -/
def period (b : Nat) : Nat := max 1 ((memsize - b) ⌈/⌉ b)

/-! ## The walk -/

section walk

variable {b q : Nat}

theorem period_pos (b : Nat) : 0 < period b := Nat.lt_of_lt_of_le one_pos (le_max_left _ _)

/-- There is room for another block behind the `q`-th exactly if it is not the last. -/
theorem room_iff (hb : 0 < b) : (q + 1) * b < memsize - b ↔ q + 1 < period b := by
  have hceil : (memsize - b) ⌈/⌉ b ≤ q + 1 ↔ memsize - b ≤ b * (q + 1) :=
    ceilDiv_le_iff_le_mul hb
  rw [period, lt_max_iff, ← not_le, Nat.mul_comm, ← hceil, not_le]
  exact ⟨Or.inr, fun h => h.resolve_left (by omega)⟩

/-- The blocks of a cycle lie in the pool. -/
theorem block_le (hb : 0 < b) (hle : b ≤ memsize) (hq : q < period b) :
    q * b + b ≤ memsize := by
  cases q with
  | zero =>
    rw [Nat.zero_mul, Nat.zero_add]
    exact hle
  | succ q =>
    have := (room_iff hb).mpr hq
    omega

/-- One step, from block to block. -/
theorem advance_blocks (hb : 0 < b) (hle : b ≤ memsize) {buff : Ptr} (hbuff : buff ≠ .null)
    (q : Nat) :
    advance (buff.add (q * b)) buff b =
      buff.add ((if q + 1 < period b then q + 1 else 0) * b) := by
  cases buff with
  | null => exact absurd rfl hbuff
  | addr j o =>
    have hroom := room_iff (q := q) hb
    rw [Nat.succ_mul] at hroom
    have htest : offset ((Ptr.addr j o).add (q * b)) + b < offset (.addr j o) + memsize - b ↔
        q + 1 < period b := by
      rw [← hroom]
      show ((o + q * b : Nat) : Int) + b < (o : Int) + memsize - b ↔ _
      omega
    unfold advance
    by_cases hlt : q + 1 < period b
    · rw [if_pos (htest.mpr hlt), if_pos hlt, Int.toNat_natCast, Nat.succ_mul]
      exact congrArg (Ptr.addr j) (Nat.add_assoc ..)
    · rw [if_neg (mt htest.mp hlt), if_neg hlt, Nat.zero_mul, Ptr.add_zero]

/-- Going up to `n` and back to 0 is counting modulo `n`. -/
theorem succ_mod {k n : Nat} (hn : 0 < n) :
    (if k % n + 1 < n then k % n + 1 else 0) = (k + 1) % n := by
  have hlt := Nat.mod_lt k hn
  rw [← Nat.mod_add_mod]
  by_cases h : k % n + 1 < n
  · rw [if_pos h, Nat.mod_eq_of_lt h]
  · have hlast : k % n + 1 = n := by omega
    rw [if_neg h, hlast, Nat.mod_self]

/-- A pointer at the start of its pool. -/
structure Started (ptr buff : Ptr) : Prop where
  ptr_eq : ptr = buff
  buff_ne : buff ≠ .null

/-- `k` calls of one of the functions have been made: the pointer is as many blocks into its cycle.
    The buffer itself stays, so that the offset is that of the pointer. -/
structure Walked (b : Nat) (buff : Ptr) (k : Nat) (ptr' buff' : Ptr) : Prop where
  ptr_eq : ptr' = buff.add (k % period b * b)
  buff_eq : buff' = buff

variable {p : ArgStruct Prot} {ptr buff ptr' buff' : Ptr} {k : Nat}

theorem Started.walked (h : Started ptr buff) : Walked b buff 0 ptr buff := by
  refine ⟨?_, rfl⟩
  rw [Nat.zero_mod, Nat.zero_mul, Ptr.add_zero, h.ptr_eq]

/-- One call. -/
theorem Walked.advance (hb : 0 < b) (hle : b ≤ memsize) (hne : buff ≠ .null)
    (h : Walked b buff k ptr' buff') : Walked b buff (k + 1) (advance ptr' buff' b) buff' := by
  refine ⟨?_, h.buff_eq⟩
  rw [h.ptr_eq, h.buff_eq, advance_blocks hb hle hne, succ_mod (period_pos b)]

/-- How far the pointer is into its pool. -/
theorem Walked.offset_eq (h : Walked b buff k ptr' buff') (hne : buff ≠ .null) :
    ptrdiff ptr' buff' = (k % period b * b : Nat) := by
  rw [h.ptr_eq, h.buff_eq, ptrdiff_add hne]

/-- **Any calls** in any order: those of the other function leave the pointer alone. -/
theorem Walked.run (hb : 0 < b) (hle : b ≤ memsize) (hne : buff ≠ .null) (c : Advance)
    (calls : List Advance) : ∀ {p : ArgStruct Prot} {k : Nat},
    Walked b buff k (c.ptr p) (c.buff p) →
    Walked b buff (k + calls.count c) (c.ptr (run b calls p)) (c.buff (run b calls p)) := by
  induction calls with
  | nil => exact id
  | cons d calls ih =>
    intro p k h
    by_cases hd : d = c
    · obtain rfl := hd
      rw [List.count_cons_self, ← Nat.add_assoc, Nat.add_right_comm]
      cases d with
      | send => exact ih (h.advance hb hle hne)
      | recv => exact ih (h.advance hb hle hne)
    · rw [List.count_cons_of_ne hd]
      cases d <;> cases c
      · exact absurd rfl hd
      · exact ih h
      · exact ih h
      · exact absurd rfl hd

/-- The calls made from the start on. -/
theorem Started.run (c : Advance) (h : Started (c.ptr p) (c.buff p)) (hb : 0 < b)
    (hle : b ≤ memsize) (calls : List Advance) :
    Walked b (c.buff p) (calls.count c) (c.ptr (run b calls p)) (c.buff (run b calls p)) := by
  have hwalk := h.walked.run hb hle h.buff_ne c calls
  rwa [Nat.zero_add] at hwalk

/-- Neither function touches the mode. -/
theorem run_cache (b : Nat) (calls : List Advance) :
    ∀ p : ArgStruct Prot, (run b calls p).cache = p.cache := by
  induction calls with
  | nil => exact fun p => rfl
  | cons c calls ih =>
    intro p
    cases c with
    | send => exact ih _
    | recv => exact ih _

/-- Steps of one cycle are at different blocks. -/
theorem mod_ne_of_cycle {n k k' : Nat} (hcycle : k / n = k' / n) (hne : k ≠ k') :
    k % n ≠ k' % n := by
  intro hmod
  apply hne
  rw [← Nat.div_add_mod k n, ← Nat.div_add_mod k' n, hcycle, hmod]

/-- Different blocks have no byte in common. -/
theorem block_apart {q q' x y : Nat} (hx : x < b) (hy : y < b) (hne : q ≠ q') :
    q * b + x ≠ q' * b + y := by
  intro he
  apply hne
  have hq : (q * b + x) / b = (q' * b + y) / b := congrArg (· / b) he
  rwa [Nat.add_comm, Nat.add_mul_div_right _ _ (by omega), Nat.div_eq_of_lt hx, Nat.zero_add,
    Nat.add_comm, Nat.add_mul_div_right _ _ (by omega), Nat.div_eq_of_lt hy, Nat.zero_add] at hq

end walk

/-- **The pool is walked in step.**  After `k` calls of `AdvanceSendPtr` on one side and of
    `AdvanceRecvPtr` on the other, in any order with the other calls of each, both pointers are
    `k % period b` blocks into their pools.  The block lies in the pool and apart from the others
    of its cycle, and a put computes the address of the receiver's pointer. -/
theorem pool_walk (b : Nat) (hb : 1 ≤ b) (hle : b ≤ memsize) (h peer : Netpipe Prot)
    (hh : Started h.args.sPtr h.args.sBuff) (hpeer : Started peer.args.rPtr peer.args.rBuff)
    (calls calls' : List Advance) (k : Nat)
    (hsend : calls.count .send = k) (hrecv : calls'.count .recv = k) :
    let h' := { h with args := run b calls h.args }
    let peer' := { peer with args := run b calls' peer.args }
    ptrdiff h'.args.sPtr h'.args.sBuff = (k % period b * b : Nat) ∧
    ptrdiff peer'.args.rPtr peer'.args.rBuff = (k % period b * b : Nat) ∧
    k % period b * b + b ≤ memsize ∧
    (∀ k', k / period b = k' / period b → k ≠ k' → ∀ x < b, ∀ y < b,
      k % period b * b + x ≠ k' % period b * b + y) ∧
    sendData .ibv h' peer' =
      [.put (bytes h'.args.sPtr peer'.args.rPtr h'.args.bufflen.toNat)] ∧
    (h.args.cache = false → sendData .mpi2 h' peer' =
      [.put (bytes h'.args.sPtr peer'.args.rPtr h'.args.bufflen.toNat)]) := by
  intro h' peer'
  have hwalk : Walked b h.args.sBuff (calls.count .send) h'.args.sPtr h'.args.sBuff :=
    Started.run .send hh hb hle calls
  have hwalk' : Walked b peer.args.rBuff (calls'.count .recv) peer'.args.rPtr peer'.args.rBuff :=
    Started.run .recv hpeer hb hle calls'
  rw [hsend] at hwalk
  rw [hrecv] at hwalk'
  have hs := hwalk.offset_eq hh.buff_ne
  refine ⟨hs, hwalk'.offset_eq hpeer.buff_ne, block_le hb hle (Nat.mod_lt k (period_pos b)),
    ?_, ?_, ?_⟩
  · intro k' hcycle hne x hx y hy
    exact block_apart hx hy (mod_ne_of_cycle hcycle hne)
  · show Ibv.sendData h' peer'.args.rBuff = _
    rw [Ibv.sendData, hs, Ptr.shift_natCast, hwalk'.buff_eq, hwalk'.ptr_eq]
  · intro hcache
    show Mpi2.sendData h' peer'.args.rBuff = _
    have hcache' : h'.args.cache = false := (run_cache b calls h.args).trans hcache
    simp only [Mpi2.sendData, hcache', Bool.not_false, if_true, hs, Ptr.shift_natCast,
      hwalk'.buff_eq, hwalk'.ptr_eq]

/-- Blocks of three million bytes, of which three make a cycle: the fourth is the first again. -/
theorem pool_walk_threeBlocks :
    period 3000000 = 3 ∧
      ptrdiff (run 3000000 (List.replicate 3 .send) (twoBuffers .little () [0] [0]).args).sPtr
        (run 3000000 (List.replicate 3 .send) (twoBuffers .little () [0] [0]).args).sBuff = 0 := by
  have hsend : Started (twoBuffers .little () [0] [0]).args.sPtr
      (twoBuffers .little () [0] [0]).args.sBuff := ⟨rfl, by decide⟩
  have hrecv : Started (twoBuffers .little () [0] [0]).args.rPtr
      (twoBuffers .little () [0] [0]).args.rBuff := ⟨rfl, by decide⟩
  have hperiod : period 3000000 = 3 := by decide
  have hwalk := pool_walk 3000000 (by decide) (by decide) (twoBuffers .little () [0] [0])
    (twoBuffers .little () [0] [0]) hsend hrecv (List.replicate 3 .send)
    (List.replicate 3 .recv) 3 (by decide) (by decide)
  rw [hperiod] at hwalk
  exact ⟨hperiod, hwalk.1⟩

end NetPipe.Pool
