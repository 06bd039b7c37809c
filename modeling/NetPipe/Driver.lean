/-
  The drivers `NPtcp-local` and `NPmpi_atoa`: Python programs that call `run_iters` for one message
  size after the other.

  The main loops of the two are the same; they differ in the time they start from and in the one
  they stop at.  Times are measured, and floating point, so what the loop does with them is a
  parameter (`Timing`), and `run_iters` is an operation that may answer anything.

  1. **The program** — `incFunc`, `pertFunc`, `Sched.grow` and `mainLoop`.  The variables no time
     goes into are a record of their own (`Sched`): the schedule is a function of them alone.

  2. **The loop of NetPIPE-3** that the docstring of `pertFunc` quotes — `np3`.

  3. **Closed form** (`turns_odd`, `turns_even`) — the variables of the driver after `k` turns.  The
     load-bearing observation is that from the fifth turn on the state repeats in pairs: at an odd
     `n` the increment doubles and the counter is a multiple of 6, so the first perturbation is
     taken anew from the increment of the turn before; at an even one both stay.  `oddTurn` and
     `evenTurn` are these two states with `u = 2 ^ t` for the size, and each step from one to the
     other is arithmetic.

  4. **Two lengths behind** (`sizes_odd`) — the driver groups by turns of three sizes from the
     start, NetPIPE-3 has single lengths first, so what the driver has asked for after `5 + 2 * t`
     turns is what NetPIPE-3 does in `9 + 2 * t`, and two lengths more.  Any prefix of a longer
     prefix is determined by its length, which makes the equality of the two sequences
     (`sizes_eq`) out of that.

  5. **The executions** (`wp_mainLoop`) — by induction on the turns to go, with the sizes asked for
     so far as the state: a turn leaves the variables of the next turn, whatever the times are.
     `driver_schedule` puts this together: every execution keeps to the schedule, also one that
     ends in an exception, and where the times keep the loop going every turn is made.
-/
import Mathlib.Algebra.Ring.Parity
import Mathlib.Tactic.IntervalCases
import Mathlib.Tactic.Positivity
import NetPipe.Lib.Process

namespace NetPipe.Driver

open Process

/-! ## The schedule variables -/

/-- `pertList` and `pert`: three perturbations, in bits. -/
structure Pert where
  first : Int
  second : Int
  third : Int
  deriving DecidableEq, Repr

/-- `pert[0], pert[1], pert[2]`. -/
def Pert.toList (p : Pert) : List Int := [p.first, p.second, p.third]

/-- The variables of the main loop that no time goes into.  `pert` is not bound before the first
    turn; from then on `pertList` and `pert` are one list. -/
structure Sched where
  n : Int
  inc : Int
  permSize : Int
  count : Int
  pertList : Pert
  pert : Option Pert
  deriving DecidableEq, Repr

/-- `incFunc(n, inc)`. -/
def incFunc (n inc : Int) : Int :=
  let inc := inc / 8
  let inc :=
    if n ≤ 2 then 2
    else if 3 ≤ n ∧ n ≤ 5 then 4
    else if 6 ≤ n ∧ n ≤ 8 then 7
    else if 9 ≤ n ∧ n ≤ 14 then 8
    else if 2 < n then
      if n % 2 ≠ 0 then inc + inc else inc
    else inc
  inc * 8

/-- `pertFunc(n, inc, firstpert)`; `inc` is not used. -/
def pertFunc (n _inc firstpert : Int) : Pert :=
  if n ≤ 2 then ⟨-8, 0, 8⟩
  else if 3 ≤ n ∧ n ≤ 5 then ⟨-16, 0, 16⟩
  else if 6 ≤ n ∧ n ≤ 8 then ⟨-8, 0, 24⟩
  else if 9 ≤ n ∧ n ≤ 14 then ⟨-16, 0, 24⟩
  else ⟨firstpert, 0, 24⟩

/-- The main loop from `previousInc = inc` to `pertList = pert`; none where `pert` is not bound. -/
def Sched.grow (s : Sched) : Option Sched := do
  let previousInc := s.inc
  let pertList ←
    if s.count % 6 = 0 then s.pert.map fun pert => { s.pertList with first := -s.inc + pert.first }
    else some s.pertList
  let inc := incFunc s.n s.inc
  let permSize := s.permSize + inc
  let pert := pertFunc s.n previousInc pertList.first
  some { s with inc, permSize, pertList := pert, pert := some pert }

/-- The counters, at the end of the inner loop's body. -/
def Sched.tick (s : Sched) : Sched :=
  let n := s.n + 1
  { s with n, count := if 11 ≤ n then s.count + 1 else s.count }

/-! ## The program -/

/-- What the driver does with measured times. -/
structure Timing (T : Type) where
  /-- `iterationTime < STOPTM`. -/
  running : T → Bool
  /-- `iterFunc(tlast, oldsize, newsize)`; none where the division raises. -/
  iterFunc : T → Int → Int → Option Int
  /-- `min(times)`. -/
  minimum : List T → T
  /-- The rate is divided by `totalTime`; false where that raises. -/
  rated : T → Bool

/-- `(size_r, iters_r, tTime, iTime)`. -/
structure Answer (T : Type) where
  sizeR : Int
  itersR : Int
  tTime : T
  iTime : T

/-- The one thing the driver needs done. -/
inductive Call where
  /-- `netpipe.run_iters(size, iters)`. -/
  | runIters (size iters : Int)

/-- What `run_iters` answers; none where it raises, or is `None`. -/
abbrev Call.Res (T : Type) (_ : Call) : Type := Option (Answer T)

/-- What the driver writes. -/
inductive Out (T : Type) where
  /-- "%3d: %7d bytes %6d times". -/
  | announce (n bytes iters : Int)
  /-- A line of the data file, made of these answers. -/
  | line (rs : List (Answer T))

abbrev DriverProg (T α : Type) := Proc Call (Call.Res T) (Out T) α

/-- Runs of the same size, to take the shortest of. -/
def TRIALS : Nat := 3

/-- The main loop's variables. -/
structure Vars (T : Type) extends Sched where
  size : Int
  iterationTime : T

section program

variable {T : Type} (τ : Timing T)

/-- `for i in range(TRIALS)`, with `k` to go. -/
def trials (size iters : Int) : (k : Nat) → List (Answer T) → DriverProg T (List (Answer T))
  | 0, rs => .ret rs
  | k + 1, rs => .io (.runIters size iters) fun
    | none => .exit 1 "Traceback"
    | some r => trials size iters k (rs ++ [r])

/-- The body of the inner loop, for one perturbation. -/
def pertRun (d : Vars T) (pert : Int) : DriverProg T (Vars T) :=
  let oldsize := d.size
  let size := d.permSize + pert
  match τ.iterFunc d.iterationTime oldsize size with
  | none => .exit 1 "Traceback"
  | some iters => .emit (.announce d.n (size / 8) iters) do
    let rs ← trials size iters TRIALS []
    if τ.rated (τ.minimum (rs.map Answer.tTime)) then
      .emit (.line rs) (.ret { d with
        toSched := d.toSched.tick, size, iterationTime := τ.minimum (rs.map Answer.iTime) })
    else .exit 1 "Traceback"

/-- `for pertrun in range(3)`. -/
def pertRuns : List Int → Vars T → DriverProg T (Vars T)
  | [], d => .ret d
  | p :: ps, d => do
    let d ← pertRun τ d p
    pertRuns ps d

/-- The body of the main loop. -/
def turn (d : Vars T) : DriverProg T (Vars T) :=
  match d.toSched.grow with
  | none => .exit 1 "NameError: name 'pert' is not defined"
  | some s => pertRuns τ ((s.pert.map Pert.toList).getD []) { d with toSched := s }

/-- The main loop, for `m` turns at most. -/
def mainLoop : (m : Nat) → Vars T → DriverProg T (Vars T)
  | 0, d => .ret d
  | m + 1, d =>
    if τ.running d.iterationTime then do
      let d ← turn τ d
      mainLoop m d
    else .ret d

end program

/-- The variables before the main loop. -/
def Sched.start : Sched :=
  { n := 0, inc := 0, permSize := 0, count := 1, pertList := ⟨-1, 0, 1⟩, pert := none }

/-- The driver before the main loop; the time it starts from is a guess. -/
def start {T : Type} (iterationTime : T) : Vars T :=
  { Sched.start with size := 8, iterationTime }

/-- The arithmetic of the scripts, done exactly on times in whole microseconds: `STOPTM` and
    `RUNTM` are in microseconds too, and `int(RUNTM*oldsize/(tlast*newsize))` truncates. -/
def micros (STOPTM RUNTM : Nat) : Timing Nat where
  running iterationTime := iterationTime < STOPTM
  iterFunc tlast oldsize newsize :=
    if tlast * newsize = 0 then none
    else some (max ((RUNTM * oldsize).tdiv (tlast * newsize)) TRIALS)
  minimum
    | [] => 0
    | t :: ts => ts.foldl min t
  rated totalTime := totalTime ≠ 0

/-! ## NetPIPE-3 -/

/-- The variables of the loop of NetPIPE-3, lengths in bytes. -/
structure Np3 where
  len : Int
  inc : Int
  nq : Nat
  deriving DecidableEq, Repr

/-- `if (nq > 2) inc = ((nq % 2))? inc + inc: inc`. -/
def Np3.grow (s : Np3) : Np3 :=
  { s with inc := if 2 < s.nq ∧ s.nq % 2 = 1 then s.inc + s.inc else s.inc }

/-- The lengths of one turn, with the perturbation 3 where the increment leaves room for it. -/
def Np3.lengths (s : Np3) : List Int :=
  if 4 < s.grow.inc then [s.len + -3, s.len + 0, s.len + 3] else [s.len]

/-- One turn. -/
def Np3.next (s : Np3) : Np3 := ⟨s.len + s.grow.inc, s.grow.inc, s.nq + 1⟩

/-- After `k` turns. -/
def np3At : Nat → Np3
  | 0 => ⟨1, 1, 0⟩
  | k + 1 => (np3At k).next

/-- The lengths of the first `k` turns. -/
def np3 (k : Nat) : List Int := (List.range k).flatMap fun i => (np3At i).lengths

/-! ## The driver's variables in closed form -/

/-- The variables after `k` turns; none once `pert` was used without being bound. -/
def turns : Nat → Option Sched
  | 0 => some .start
  | k + 1 => (turns k).bind fun s => s.grow.map fun s => s.tick.tick.tick

/-- The three sizes of the turn that leaves these variables. -/
def Sched.asked (s : Sched) : List Int :=
  ((s.pert.map Pert.toList).getD []).map (s.permSize + ·)

/-- The sizes of the `k`-th turn. -/
def turnSizes (k : Nat) : List Int := ((turns (k + 1)).map Sched.asked).getD []

/-- The sizes of the first `k` turns. -/
def sizes (k : Nat) : List Int := (List.range k).flatMap turnSizes

theorem sizes_succ (k : Nat) : sizes (k + 1) = sizes k ++ turnSizes k := by
  simp [sizes, List.range_succ]

theorem np3_succ (k : Nat) : np3 (k + 1) = np3 k ++ (np3At k).lengths := by
  simp [np3, List.range_succ]

/-- From the fifteenth size on: the increment doubles when `n` is odd. -/
theorem incFunc_of_large {n : Int} (hn : 15 ≤ n) (i : Int) :
    incFunc n (8 * i) = 8 * if n % 2 ≠ 0 then 2 * i else i := by
  unfold incFunc
  simp only [show ¬ n ≤ 2 by omega, show ¬ n ≤ 5 by omega, show ¬ n ≤ 8 by omega,
    show ¬ n ≤ 14 by omega, show 2 < n by omega, and_false, if_false, if_true]
  split <;> omega

/-- From the fifteenth size on: the first perturbation is the one handed in. -/
theorem pertFunc_of_large {n : Int} (hn : 15 ≤ n) (i first : Int) :
    pertFunc n i first = ⟨first, 0, 24⟩ := by
  unfold pertFunc
  simp only [show ¬ n ≤ 2 by omega, show ¬ n ≤ 5 by omega, show ¬ n ≤ 8 by omega,
    show ¬ n ≤ 14 by omega, and_false, if_false]

/-- The variables before turn `5 + 2 * t`, with `u = 2 ^ t`: the counter is a multiple of 6, so
    the turn takes a new first perturbation, and `n` is odd, so it doubles the increment. -/
def oddTurn (t : Nat) (u : Int) : Sched :=
  { n := 15 + 6 * t, inc := 8 * (8 * u), permSize := 8 * (32 * u - 3), count := 6 + 6 * t
    pertList := ⟨8 * (6 - 8 * u), 0, 24⟩, pert := some ⟨8 * (6 - 8 * u), 0, 24⟩ }

/-- The variables before turn `6 + 2 * t`, which keeps both. -/
def evenTurn (t : Nat) (u : Int) : Sched :=
  { n := 18 + 6 * t, inc := 8 * (16 * u), permSize := 8 * (48 * u - 3), count := 9 + 6 * t
    pertList := ⟨8 * (6 - 16 * u), 0, 24⟩, pert := some ⟨8 * (6 - 16 * u), 0, 24⟩ }

/-- Turn `5 + 2 * t`. -/
theorem step_odd (t : Nat) (u : Int) :
    ((oddTurn t u).grow.map fun s => s.tick.tick.tick) = some (evenTurn t u) := by
  have hcount : (6 + 6 * (t : Int)) % 6 = 0 := by omega
  have hodd : (15 + 6 * (t : Int)) % 2 ≠ 0 := by omega
  simp only [oddTurn, Sched.grow, hcount, if_true, Option.map_some, Option.bind_eq_bind,
    Option.bind_some, incFunc_of_large (by omega : 15 ≤ 15 + 6 * (t : Int)),
    pertFunc_of_large (by omega : 15 ≤ 15 + 6 * (t : Int)), if_pos hodd]
  simp only [evenTurn, Sched.tick, if_pos (by omega : 11 ≤ 15 + 6 * (t : Int) + 1),
    if_pos (by omega : 11 ≤ 15 + 6 * (t : Int) + 1 + 1),
    if_pos (by omega : 11 ≤ 15 + 6 * (t : Int) + 1 + 1 + 1), Option.some.injEq, Sched.mk.injEq,
    Pert.mk.injEq, and_true]
  omega

/-- Turn `6 + 2 * t`. -/
theorem step_even (t : Nat) (u : Int) :
    ((evenTurn t u).grow.map fun s => s.tick.tick.tick) = some (oddTurn (t + 1) (2 * u)) := by
  have hcount : (9 + 6 * (t : Int)) % 6 ≠ 0 := by omega
  have heven : ¬ (18 + 6 * (t : Int)) % 2 ≠ 0 := by omega
  simp only [evenTurn, Sched.grow, if_neg hcount, Option.map_some, Option.bind_eq_bind,
    Option.bind_some, incFunc_of_large (by omega : 15 ≤ 18 + 6 * (t : Int)),
    pertFunc_of_large (by omega : 15 ≤ 18 + 6 * (t : Int)), if_neg heven]
  simp only [oddTurn, Sched.tick, if_pos (by omega : 11 ≤ 18 + 6 * (t : Int) + 1),
    if_pos (by omega : 11 ≤ 18 + 6 * (t : Int) + 1 + 1),
    if_pos (by omega : 11 ≤ 18 + 6 * (t : Int) + 1 + 1 + 1), Option.some.injEq, Sched.mk.injEq,
    Pert.mk.injEq, and_true, Nat.cast_add, Nat.cast_one]
  omega

/-- **Closed form**, by induction on the pairs of turns: the increment doubles once in two
    turns, and the perturbation list is at the same place again after six sizes. -/
theorem turns_odd (t : Nat) : turns (5 + 2 * t) = some (oddTurn t (2 ^ t)) := by
  induction t with
  | zero => decide
  | succ t ih =>
    rw [show 5 + 2 * (t + 1) = 5 + 2 * t + 1 + 1 by omega, turns, turns, ih, Option.bind_some,
      step_odd, Option.bind_some, step_even, ← pow_succ']

theorem turns_even (t : Nat) : turns (6 + 2 * t) = some (evenTurn t (2 ^ t)) := by
  rw [show 6 + 2 * t = 5 + 2 * t + 1 by omega, turns, turns_odd, Option.bind_some, step_odd]

/-- The sizes of turn `5 + 2 * t`. -/
theorem turnSizes_odd (t : Nat) : turnSizes (5 + 2 * t) =
    [32 * 2 ^ t + 3, 48 * 2 ^ t - 3, 48 * 2 ^ t].map (8 * ·) := by
  rw [turnSizes, show 5 + 2 * t + 1 = 6 + 2 * t by omega, turns_even]
  simp only [Option.map_some, Option.getD_some, Sched.asked, evenTurn, Pert.toList, List.map_cons,
    List.map_nil, List.cons.injEq, and_true]
  omega

/-- The sizes of turn `6 + 2 * t`. -/
theorem turnSizes_even (t : Nat) : turnSizes (6 + 2 * t) =
    [48 * 2 ^ t + 3, 64 * 2 ^ t - 3, 64 * 2 ^ t].map (8 * ·) := by
  rw [turnSizes, show 6 + 2 * t + 1 = 5 + 2 * (t + 1) by omega, turns_odd, pow_succ']
  simp only [Option.map_some, Option.getD_some, Sched.asked, oddTurn, Pert.toList, List.map_cons,
    List.map_nil, List.cons.injEq, and_true]
  omega

/-- `pert` is bound wherever it is used, so every turn has three sizes. -/
theorem turns_bound (k : Nat) : ∃ s, turns k = some s ∧ (0 < k → ∃ p, s.pert = some p) := by
  rcases Nat.lt_or_ge k 5 with hk | hk
  · interval_cases k <;> exact ⟨_, rfl, fun h => by first | exact ⟨_, rfl⟩ | omega⟩
  · rcases Nat.even_or_odd' (k - 5) with ⟨t, ht | ht⟩
    · rw [show k = 5 + 2 * t by omega, turns_odd]
      exact ⟨_, rfl, fun _ => ⟨_, rfl⟩⟩
    · rw [show k = 6 + 2 * t by omega, turns_even]
      exact ⟨_, rfl, fun _ => ⟨_, rfl⟩⟩

/-- What a turn finds: `grow` succeeds and has bound `pert`, and the sizes are those of it. -/
theorem exists_grown {s : Sched} {k : Nat} (hs : turns k = some s) :
    ∃ g p, s.grow = some g ∧ g.pert = some p ∧ turns (k + 1) = some g.tick.tick.tick ∧
      turnSizes k = p.toList.map (g.permSize + ·) := by
  obtain ⟨s', hs', hpert⟩ := turns_bound (k + 1)
  have hstep : (s.grow.map fun s => s.tick.tick.tick) = some s' := by
    rw [← hs', turns, hs, Option.bind_some]
  obtain ⟨g, hg, rfl⟩ := Option.map_eq_some_iff.mp hstep
  obtain ⟨p, hp⟩ := hpert (Nat.succ_pos k)
  refine ⟨g, p, hg, hp, hs', ?_⟩
  rw [turnSizes, hs', Option.map_some, Option.getD_some, Sched.asked, hp]
  rfl

/-! ## NetPIPE-3 in closed form -/

/-- Before turn `9 + 2 * t`, which doubles the increment. -/
theorem np3At_odd (t : Nat) : np3At (9 + 2 * t) = ⟨32 * 2 ^ t, 8 * 2 ^ t, 9 + 2 * t⟩ := by
  induction t with
  | zero => decide
  | succ t ih =>
    rw [show 9 + 2 * (t + 1) = 9 + 2 * t + 1 + 1 by omega, np3At, np3At, ih, pow_succ']
    simp only [Np3.next, Np3.grow, if_pos (by omega : 2 < 9 + 2 * t ∧ (9 + 2 * t) % 2 = 1),
      if_neg (by omega : ¬ (2 < 9 + 2 * t + 1 ∧ (9 + 2 * t + 1) % 2 = 1)), Np3.mk.injEq,
      and_true]
    omega

/-- Before turn `10 + 2 * t`, which keeps it. -/
theorem np3At_even (t : Nat) : np3At (10 + 2 * t) = ⟨48 * 2 ^ t, 16 * 2 ^ t, 10 + 2 * t⟩ := by
  rw [show 10 + 2 * t = 9 + 2 * t + 1 by omega, np3At, np3At_odd]
  simp only [Np3.next, Np3.grow, if_pos (by omega : 2 < 9 + 2 * t ∧ (9 + 2 * t) % 2 = 1),
    Np3.mk.injEq, and_true]
  omega

/-- The lengths of the turns `9 + 2 * t` and `10 + 2 * t`. -/
theorem np3_pair (t : Nat) : np3 (11 + 2 * t) = np3 (9 + 2 * t) ++
    [32 * 2 ^ t - 3, 32 * 2 ^ t, 32 * 2 ^ t + 3, 48 * 2 ^ t - 3, 48 * 2 ^ t, 48 * 2 ^ t + 3] := by
  have hpos : (0 : Int) < 2 ^ t := by positivity
  rw [show 11 + 2 * t = 9 + 2 * t + 1 + 1 by omega, np3_succ, np3_succ, List.append_assoc,
    show 9 + 2 * t + 1 = 10 + 2 * t by omega, np3At_odd, np3At_even]
  simp only [Np3.lengths, Np3.grow, if_pos (by omega : 2 < 9 + 2 * t ∧ (9 + 2 * t) % 2 = 1),
    if_neg (by omega : ¬ (2 < 10 + 2 * t ∧ (10 + 2 * t) % 2 = 1)),
    if_pos (by omega : (4 : Int) < 8 * 2 ^ t + 8 * 2 ^ t),
    if_pos (by omega : (4 : Int) < 16 * 2 ^ t), List.cons_append, List.nil_append, add_zero,
    sub_eq_add_neg]

/-! ## The driver keeps to NetPIPE-3 -/

/-- **Two lengths behind**: what the driver has asked for after `5 + 2 * t` turns. -/
theorem sizes_odd (t : Nat) : sizes (5 + 2 * t) =
    (np3 (9 + 2 * t) ++ [32 * 2 ^ t - 3, 32 * 2 ^ t]).map (8 * ·) := by
  induction t with
  | zero => decide
  | succ t ih =>
    rw [show 5 + 2 * (t + 1) = 5 + 2 * t + 1 + 1 by omega, sizes_succ, sizes_succ, ih,
      turnSizes_odd, show 5 + 2 * t + 1 = 6 + 2 * t by omega, turnSizes_even,
      show 9 + 2 * (t + 1) = 11 + 2 * t by omega, np3_pair, ← List.map_append, ← List.map_append,
      pow_succ']
    simp only [List.append_assoc, List.cons_append, List.nil_append, ← mul_assoc, Int.reduceMul]

theorem sizes_mono {k l : Nat} (h : k ≤ l) : sizes k <+: sizes l := by
  induction h with
  | refl => exact List.prefix_rfl
  | step _ ih =>
    rw [sizes_succ]
    exact ih.trans (List.prefix_append ..)

theorem np3_mono {k l : Nat} (h : k ≤ l) : np3 k <+: np3 l := by
  induction h with
  | refl => exact List.prefix_rfl
  | step _ ih =>
    rw [np3_succ]
    exact ih.trans (List.prefix_append ..)

theorem length_turnSizes (k : Nat) : (turnSizes k).length = 3 := by
  obtain ⟨s, hs, hpert⟩ := turns_bound (k + 1)
  obtain ⟨p, hp⟩ := hpert (Nat.succ_pos k)
  rw [turnSizes, hs, Option.map_some, Option.getD_some, Sched.asked, hp]
  rfl

theorem length_sizes (k : Nat) : (sizes k).length = 3 * k := by
  induction k with
  | zero => rfl
  | succ k ih => rw [sizes_succ, List.length_append, ih, length_turnSizes, Nat.mul_succ]

/-- A turn of NetPIPE-3 has one length at least. -/
theorem le_length_np3 (k : Nat) : k ≤ (np3 k).length := by
  induction k with
  | zero => exact Nat.zero_le _
  | succ k ih =>
    have hpos : 0 < (np3At k).lengths.length := by
      unfold Np3.lengths
      split <;> simp
    rw [np3_succ, List.length_append]
    omega

/-- What the driver has asked for is an initial part of the lengths of NetPIPE-3. -/
theorem sizes_prefix (k : Nat) : ∃ l, sizes k <+: (np3 l).map (8 * ·) := by
  refine ⟨11 + 2 * k, (sizes_mono (by omega : k ≤ 5 + 2 * k)).trans ?_⟩
  rw [sizes_odd, np3_pair]
  apply List.IsPrefix.map
  rw [List.prefix_append_right_inj]
  exact List.prefix_append [_, _] _

/-- **The driver's sizes** are the lengths of NetPIPE-3, in bits.  The two are grouped
    differently, three sizes a turn here and one or three a step there; so the lists are
    compared by their common prefixes, NetPIPE-3 being two lengths ahead. -/
theorem sizes_eq (k : Nat) : sizes k = ((np3 (3 * k)).take (3 * k)).map (8 * ·) := by
  obtain ⟨l, hl⟩ := sizes_prefix k
  have hsizes : sizes k <+: (np3 (l + 3 * k)).map (8 * ·) :=
    hl.trans ((np3_mono (by omega)).map _)
  have hnp3 : (np3 (3 * k)).map (8 * ·) <+: (np3 (l + 3 * k)).map (8 * ·) :=
    (np3_mono (by omega)).map _
  have hlen : (sizes k).length ≤ ((np3 (3 * k)).map (8 * ·)).length := by
    rw [length_sizes, List.length_map]
    exact le_length_np3 _
  have hpre := List.prefix_of_prefix_length_le hsizes hnp3 hlen
  rw [List.prefix_iff_eq_take, length_sizes, ← List.map_take] at hpre
  exact hpre

/-- The lengths of NetPIPE-3 ascend, and stay below the next block. -/
theorem np3_ascends (t : Nat) : (np3 (9 + 2 * t)).Pairwise (· < ·) ∧
    ∀ x ∈ np3 (9 + 2 * t), 0 < x ∧ x < 32 * 2 ^ t - 3 := by
  induction t with
  | zero => decide
  | succ t ih =>
    obtain ⟨hasc, hbound⟩ := ih
    have hpos : (0 : Int) < 2 ^ t := by positivity
    rw [show 9 + 2 * (t + 1) = 11 + 2 * t by omega, np3_pair, pow_succ', List.pairwise_append]
    refine ⟨⟨hasc, ?_, ?_⟩, ?_⟩
    · simp only [List.pairwise_cons, List.forall_mem_cons, List.not_mem_nil, false_implies,
        implies_true, List.Pairwise.nil, and_true]
      omega
    · intro x hx
      have := hbound x hx
      simp only [List.forall_mem_cons, List.not_mem_nil, false_implies, implies_true, and_true]
      omega
    · intro x hx
      rcases List.mem_append.mp hx with hx | hx
      · have := hbound x hx
        omega
      · simp only [List.mem_cons, List.not_mem_nil, or_false] at hx
        omega

/-- The driver's sizes ascend, and each is a whole number of bytes. -/
theorem sizes_ascend (k : Nat) :
    (sizes k).Pairwise (· < ·) ∧ ∀ x ∈ sizes k, 0 < x ∧ 8 ∣ x := by
  obtain ⟨hasc, hbound⟩ := np3_ascends (3 * k)
  have hsub : ((np3 (3 * k)).take (3 * k)).Sublist (np3 (9 + 2 * (3 * k))) :=
    (List.take_sublist _ _).trans (np3_mono (by omega)).sublist
  rw [sizes_eq]
  constructor
  · rw [List.pairwise_map]
    refine (hasc.sublist hsub).imp ?_
    intro h
    omega
  · intro x hx
    obtain ⟨y, hy, rfl⟩ := List.mem_map.mp hx
    have := hbound y (hsub.mem hy)
    omega

/-- The sizes of the `k`-th turn, out of those of all of them. -/
theorem take_drop_sizes {j k : Nat} (h : j < k) :
    ((sizes k).drop (3 * j)).take 3 = turnSizes j := by
  obtain ⟨rest, hrest⟩ := sizes_mono (by omega : j + 1 ≤ k)
  rw [← hrest, sizes_succ, List.append_assoc, List.drop_left' (length_sizes j),
    List.take_left' (length_turnSizes j)]

/-! ## The driver asks for these sizes -/

/-- What NetPIPE-3 asks for where the driver makes `k` turns, in bits. -/
def schedule (k : Nat) : List Int := ((np3 (3 * k)).take (3 * k)).map (8 * ·)

/-- Each size, `TRIALS` times. -/
def tried (sizes : List Int) : List Int := sizes.flatMap (List.replicate TRIALS)

theorem tried_append (l m : List Int) : tried (l ++ m) = tried l ++ tried m :=
  List.flatMap_append

theorem tried_mono {l m : List Int} (h : l <+: m) : tried l <+: tried m := by
  obtain ⟨rest, rfl⟩ := h
  rw [tried_append]
  exact List.prefix_append ..

/-- The sizes of a turn among the first `m` come after those of the turns before it. -/
theorem tried_turn {k m : Nat} (h : k < m) :
    tried (sizes k) ++ tried (turnSizes k) <+: tried (sizes m) := by
  rw [← tried_append, ← sizes_succ]
  exact tried_mono (sizes_mono h)

/-- `run_iters` may raise where `raises` says so, and otherwise answers anything that meets `P`;
    the state is the sizes it was called with. -/
def answers {T : Type} (raises : Prop) (P : Answer T → Prop) :
    Env Call (Call.Res T) (Out T) (List Int) where
  emit _ calls := calls
  alloc _ _ := True
  answer
    | .runIters size _, calls, r, calls' =>
      calls' = calls ++ [size] ∧ (r = none → raises) ∧ ∀ a, r = some a → P a

section runs

variable {T : Type} {τ : Timing T}

/-- What has to hold of the times for the driver to be left where `bad` says so only: `P` is what
    `run_iters` answers, and `ok` holds of `iterationTime` throughout. -/
structure Raising (τ : Timing T) (raises : Prop) (P : Answer T → Prop) (ok : T → Prop)
    (bad : Prop) : Prop where
  call : raises → bad
  iterFunc : ∀ t, ok t → ∀ oldsize newsize, 0 < newsize → τ.iterFunc t oldsize newsize = none → bad
  minimum : ∀ rs : List (Answer T), rs.length = TRIALS → (∀ r ∈ rs, P r) →
    ok (τ.minimum (rs.map Answer.iTime))
  rated : ∀ rs : List (Answer T), rs.length = TRIALS → (∀ r ∈ rs, P r) →
    τ.rated (τ.minimum (rs.map Answer.tTime)) = false → bad

/-- The driver may be left where `bad` says so: with a traceback, and having kept to the first
    `m` turns. -/
def Quits (bad : Prop) (m : Nat) (code : Int) (msg : String) (calls : List Int) : Prop :=
  bad ∧ code = 1 ∧ msg = "Traceback" ∧ calls <+: tried (sizes m)

variable {raises bad : Prop} {P : Answer T → Prop} {ok : T → Prop}
  (hr : Raising τ raises P ok bad) {m : Nat} {calls : List Int}

include hr

/-- The runs of one size. -/
theorem wp_trials (size iters : Int) (k : Nat) : ∀ (rs : List (Answer T)) (calls : List Int)
    {Q : List (Answer T) → List Int → Prop}, (∀ r ∈ rs, P r) →
    calls ++ List.replicate k size <+: tried (sizes m) →
    (∀ rs', (∀ r ∈ rs', P r) → rs'.length = rs.length + k →
      Q rs' (calls ++ List.replicate k size)) →
    wp ((answers raises P).demon (Quits bad m) fun _ => False) (trials size iters k rs) Q
      calls := by
  induction k with
  | zero =>
    intro rs calls Q hrs _ hQ
    have := hQ rs hrs rfl
    rwa [List.replicate_zero, List.append_nil] at this
  | succ k ih =>
    rintro rs calls Q hrs hpre hQ r _ ⟨rfl, hnone, hsome⟩
    have hcons : calls ++ List.replicate (k + 1) size =
        calls ++ [size] ++ List.replicate k size := by
      rw [List.append_assoc, List.singleton_append, ← List.replicate_succ]
    rw [hcons] at hpre hQ
    cases r with
    | none => exact ⟨hr.call (hnone rfl), rfl, rfl, (List.prefix_append ..).trans hpre⟩
    | some r =>
      refine ih _ _ ?_ hpre ?_
      · intro a ha
        rcases List.mem_append.mp ha with ha | ha
        · exact hrs a ha
        · rw [List.mem_singleton.mp ha]
          exact hsome r rfl
      · intro rs' hrs' hlen
        apply hQ rs' hrs'
        rw [hlen, List.length_append, List.length_singleton]
        omega

/-- One perturbation: whatever the times are, the size is the one the schedule has next. -/
theorem wp_pertRun {d : Vars T} {pert : Int} {Q : Vars T → List Int → Prop}
    (hok : ok d.iterationTime) (hpos : 0 < d.permSize + pert)
    (hpre : calls ++ List.replicate TRIALS (d.permSize + pert) <+: tried (sizes m))
    (hQ : ∀ d' : Vars T, d'.toSched = d.toSched.tick → ok d'.iterationTime →
      Q d' (calls ++ List.replicate TRIALS (d.permSize + pert))) :
    wp ((answers raises P).demon (Quits bad m) fun _ => False) (pertRun τ d pert) Q calls := by
  unfold pertRun
  cases hiters : τ.iterFunc d.iterationTime d.size (d.permSize + pert) with
  | none =>
    simp only [hiters]
    exact ⟨hr.iterFunc _ hok _ _ hpos hiters, rfl, rfl, (List.prefix_append ..).trans hpre⟩
  | some iters =>
    simp only [hiters]
    refine wp_bind (wp_trials hr _ _ _ _ _ (by simp) hpre ?_)
    intro rs hrs hlen
    rw [List.length_nil, Nat.zero_add] at hlen
    cases hrate : τ.rated (τ.minimum (rs.map Answer.tTime)) with
    | true => exact hQ _ rfl (hr.minimum rs hlen hrs)
    | false => exact ⟨hr.rated rs hlen hrs hrate, rfl, rfl, hpre⟩

/-- The perturbations of one turn. -/
theorem wp_pertRuns (ps : List Int) : ∀ (d : Vars T) (calls : List Int)
    {Q : Vars T → List Int → Prop}, ok d.iterationTime →
    (∀ size ∈ ps.map (d.permSize + ·), 0 < size) →
    calls ++ tried (ps.map (d.permSize + ·)) <+: tried (sizes m) →
    (∀ d' : Vars T, d'.toSched = Sched.tick^[ps.length] d.toSched → ok d'.iterationTime →
      Q d' (calls ++ tried (ps.map (d.permSize + ·)))) →
    wp ((answers raises P).demon (Quits bad m) fun _ => False) (pertRuns τ ps d) Q calls := by
  induction ps with
  | nil =>
    intro d calls Q hok _ _ hQ
    have := hQ d rfl hok
    rwa [List.map_nil, tried, List.flatMap_nil, List.append_nil] at this
  | cons p ps ih =>
    intro d calls Q hok hpos hpre hQ
    have hcons : calls ++ tried ((p :: ps).map (d.permSize + ·)) =
        calls ++ List.replicate TRIALS (d.permSize + p) ++ tried (ps.map (d.permSize + ·)) := by
      rw [List.map_cons, tried, List.flatMap_cons, List.append_assoc]
      rfl
    rw [hcons] at hpre hQ
    rw [List.map_cons, List.forall_mem_cons] at hpos
    refine wp_bind (wp_pertRun hr hok hpos.1 ((List.prefix_append ..).trans hpre) ?_)
    intro d₁ h₁ hok₁
    have hperm : d₁.permSize = d.permSize := by
      rw [h₁]
      rfl
    rw [← hperm] at hpos hpre ⊢
    apply ih d₁ _ hok₁ hpos.2 hpre
    intro d₂ h₂ hok₂
    rw [hperm]
    refine hQ d₂ ?_ hok₂
    rw [h₂, h₁]
    rfl

/-- **One turn** runs each of its three sizes, whatever the times are; `pert` is bound. -/
theorem wp_turn {d : Vars T} {k : Nat} (hd : turns k = some d.toSched) (hk : k < m)
    (hok : ok d.iterationTime) {Q : Vars T → List Int → Prop}
    (hQ : ∀ d' : Vars T, turns (k + 1) = some d'.toSched → ok d'.iterationTime →
      Q d' (tried (sizes (k + 1)))) :
    wp ((answers raises P).demon (Quits bad m) fun _ => False) (turn τ d) Q (tried (sizes k)) := by
  obtain ⟨g, p, hg, hp, hs, hsizes⟩ := exists_grown hd
  have hpos : ∀ size ∈ turnSizes k, 0 < size := by
    intro size hsize
    have hmem : size ∈ sizes (k + 1) := by
      rw [sizes_succ]
      exact List.mem_append_right _ hsize
    exact ((sizes_ascend (k + 1)).2 size hmem).1
  have hpre := tried_turn hk
  rw [sizes_succ, tried_append] at hQ
  rw [hsizes] at hpos hpre hQ
  unfold turn
  simp only [hg, hp, Option.map_some, Option.getD_some]
  apply wp_pertRuns hr p.toList { d with toSched := g } _ hok hpos hpre
  intro d' h hok'
  refine hQ d' ?_ hok'
  rw [hs, h]
  rfl

/-- How the main loop is left after `m` turns at most: where all of them have been made, or after
    fewer, because of the time.  Whole turns only: a run that raises leaves the program and not the
    loop. -/
def Asked (τ : Timing T) (ok : T → Prop) (m : Nat) (d : Vars T) (calls : List Int) : Prop :=
  ok d.iterationTime ∧ ∃ k, (k = m ∨ k < m ∧ τ.running d.iterationTime = false) ∧
    calls = tried (sizes k)

/-- **The main loop**, by induction on the turns still to go.  What has been asked for so far is
    that of whole turns, and the variables are those `turns` computes. -/
theorem wp_mainLoop_from (j : Nat) : ∀ (d : Vars T) (k : Nat), k + j = m →
    turns k = some d.toSched → ok d.iterationTime →
    wp ((answers raises P).demon (Quits bad m) fun _ => False) (mainLoop τ j d) (Asked τ ok m)
      (tried (sizes k)) := by
  induction j with
  | zero => exact fun d k hk _ hok => ⟨hok, k, Or.inl hk, rfl⟩
  | succ j ih =>
    intro d k hk hd hok
    unfold mainLoop
    cases hrun : τ.running d.iterationTime with
    | false => exact ⟨hok, k, Or.inr ⟨by omega, hrun⟩, rfl⟩
    | true =>
      refine wp_bind (wp_turn hr hd (by omega) hok ?_)
      intro d' hd' hok'
      exact ih d' (k + 1) (by omega) hd' hok'

theorem wp_mainLoop (m : Nat) {t₀ : T} (hok : ok t₀) :
    wp ((answers raises P).demon (Quits bad m) fun _ => False) (mainLoop τ m (start t₀))
      (Asked τ ok m) [] :=
  wp_mainLoop_from hr m (start t₀) 0 (Nat.zero_add m) rfl hok

end runs

section main

variable {T : Type} {τ : Timing T} {t₀ : T} {m : Nat} {out : Outcome (Vars T)} {calls : List Int}

/-- Nothing is asked of the times where any way of leaving the driver is acceptable. -/
theorem raising_any (τ : Timing T) (P : Answer T → Prop) :
    Raising τ True P (fun _ => True) True :=
  ⟨id, fun _ _ _ _ _ _ => trivial, fun _ _ _ => trivial, fun _ _ _ _ => trivial⟩

/-- What every execution of the main loop does. -/
theorem exec_mainLoop {P : Answer T → Prop}
    (h : Exec (answers True P) (mainLoop τ m (start t₀)) [] out calls) :
    calls <+: tried (sizes m) ∧ (out = .exited 1 "Traceback" ∨
      ∃ d k, out = .returned d ∧ (k = m ∨ k < m ∧ τ.running d.iterationTime = false) ∧
        calls = tried (sizes k)) := by
  have hacc := h.accepted (Env.demonic _) (wp_mainLoop (raising_any τ P) m trivial)
  cases out with
  | returned d =>
    obtain ⟨-, k, hend, rfl⟩ := hacc
    exact ⟨tried_mono (sizes_mono (by omega)), Or.inr ⟨d, k, rfl, hend, rfl⟩⟩
  | exited code msg =>
    obtain ⟨-, rfl, rfl, hpre⟩ := hacc
    exact ⟨hpre, Or.inl rfl⟩
  | faulted => exact hacc.elim

/-- Answers that keep the main loop going, and nothing raises on: `ok` is what they make of
    `iterationTime`. -/
structure Steady (τ : Timing T) (t₀ : T) (P : Answer T → Prop) (ok : T → Prop) : Prop where
  start : ok t₀
  running : ∀ t, ok t → τ.running t = true
  iterFunc : ∀ t, ok t → ∀ oldsize newsize, 0 < newsize → τ.iterFunc t oldsize newsize ≠ none
  minimum : ∀ rs : List (Answer T), rs.length = TRIALS → (∀ r ∈ rs, P r) →
    ok (τ.minimum (rs.map Answer.iTime)) ∧ τ.rated (τ.minimum (rs.map Answer.tTime)) = true

/-- On such answers the driver is never left. -/
theorem Steady.raising {P : Answer T → Prop} {ok : T → Prop} (hs : Steady τ t₀ P ok) :
    Raising τ False P ok False where
  call := id
  iterFunc t ht oldsize newsize hpos := hs.iterFunc t ht oldsize newsize hpos
  minimum rs hlen hrs := (hs.minimum rs hlen hrs).1
  rated rs hlen hrs hrate := by
    rw [(hs.minimum rs hlen hrs).2] at hrate
    cases hrate

/-- So it makes every turn. -/
theorem Steady.exec {P : Answer T → Prop} {ok : T → Prop} (hs : Steady τ t₀ P ok)
    (h : Exec (answers False P) (mainLoop τ m (Driver.start t₀)) [] out calls) :
    ∃ d, out = .returned d ∧ calls = tried (sizes m) := by
  have hacc := h.accepted (Env.demonic _) (wp_mainLoop hs.raising m hs.start)
  cases out with
  | returned d =>
    obtain ⟨hok, k, rfl | ⟨-, hstop⟩, hcalls⟩ := hacc
    · exact ⟨d, rfl, hcalls⟩
    · rw [hs.running _ hok] at hstop
      cases hstop
  | exited code msg => exact hacc.1.elim
  | faulted => exact hacc.elim

/-- Where `run_iters` has an answer to give, an execution exists. -/
theorem exists_exec {P : Answer T → Prop} {a : Answer T} (ha : P a) (raises : Prop)
    (p : DriverProg T (Vars T)) (calls : List Int) :
    ∃ out calls', Exec (answers raises P) p calls out calls' := by
  refine Exec.total (fun n => ⟨none, trivial⟩) ?_ p calls
  rintro ⟨size, iters⟩ calls
  refine ⟨some a, _, rfl, nofun, ?_⟩
  intro b hb
  obtain rfl := Option.some.inj hb
  exact ha

/-- The blocks of the schedule, turn by turn. -/
theorem schedule_blocks (m t : Nat) {b : Int} (hb : b = 32 * 2 ^ t) :
    (5 + 2 * t < m → ((schedule m).drop (3 * (5 + 2 * t))).take 3 =
      [b + 3, 3 * b / 2 - 3, 3 * b / 2].map (8 * ·)) ∧
    (6 + 2 * t < m → ((schedule m).drop (3 * (6 + 2 * t))).take 3 =
      [3 * b / 2 + 3, 2 * b - 3, 2 * b].map (8 * ·)) := by
  rw [schedule, ← sizes_eq]
  constructor
  · intro hm
    rw [take_drop_sizes hm, turnSizes_odd, hb,
      show 3 * (32 * 2 ^ t : Int) / 2 = 48 * 2 ^ t by omega]
  · intro hm
    rw [take_drop_sizes hm, turnSizes_even, hb,
      show 3 * (32 * 2 ^ t : Int) / 2 = 48 * 2 ^ t by omega,
      show 2 * (32 * 2 ^ t : Int) = 64 * 2 ^ t by omega]

end main

/-- **The schedule of the drivers.**  The sizes the main loop calls `run_iters` with, `TRIALS`
    times each, are the lengths of NetPIPE-3 in bits:
    (1) whatever the times are and however an execution ends, what it has called is an initial part
    of the schedule, and it ends after whole turns or where the arithmetic on times or `run_iters`
    raises;
    (2) where the times keep the loop going, the executions there are make every turn asked for;
    (3) the schedule ascends, in whole bytes, in blocks as NetPIPE-3 has them. -/
theorem driver_schedule {T : Type} (τ : Timing T) (t₀ : T) (m : Nat) :
    (∀ out calls, Exec (answers True fun _ => True) (mainLoop τ m (start t₀)) [] out calls →
      calls <+: tried (schedule m) ∧ (out = .exited 1 "Traceback" ∨
        ∃ d k, out = .returned d ∧ (k = m ∨ k < m ∧ τ.running d.iterationTime = false) ∧
          calls = tried (schedule k))) ∧
    (∀ (P : Answer T → Prop) (ok : T → Prop), Steady τ t₀ P ok → (∃ a, P a) →
      (∃ out calls, Exec (answers False P) (mainLoop τ m (start t₀)) [] out calls) ∧
      ∀ out calls, Exec (answers False P) (mainLoop τ m (start t₀)) [] out calls →
        ∃ d, out = .returned d ∧ calls = tried (schedule m)) ∧
    (schedule m).length = 3 * m ∧ (schedule m).Pairwise (· < ·) ∧
    (∀ x ∈ schedule m, 0 < x ∧ 8 ∣ x) ∧
    ∀ (t : Nat) (b : Int), b = 32 * 2 ^ t →
      (5 + 2 * t < m → ((schedule m).drop (3 * (5 + 2 * t))).take 3 =
        [b + 3, 3 * b / 2 - 3, 3 * b / 2].map (8 * ·)) ∧
      (6 + 2 * t < m → ((schedule m).drop (3 * (6 + 2 * t))).take 3 =
        [3 * b / 2 + 3, 2 * b - 3, 2 * b].map (8 * ·)) := by
  have hsched : ∀ k, schedule k = sizes k := fun k => (sizes_eq k).symm
  refine ⟨?_, ?_, ?_, ?_, ?_, fun t b => schedule_blocks m t⟩
  · intro out calls h
    simp only [hsched]
    exact exec_mainLoop h
  · rintro P ok hs ⟨a, ha⟩
    rw [hsched]
    exact ⟨exists_exec ha False _ [], fun out calls h => hs.exec h⟩
  · rw [hsched]
    exact length_sizes m
  · rw [hsched]
    exact (sizes_ascend m).1
  · rw [hsched]
    exact (sizes_ascend m).2

/-- Measured times of the driver of `NPtcp-local` that keep its loop going: a round trip takes
    some time, and less than half a second. -/
theorem steady_local : Steady (micros 500000 100000) 25
    (fun r => 0 < r.tTime ∧ 0 < r.iTime ∧ r.iTime < 500000) (fun t => 0 < t ∧ t < 500000) where
  start := by decide
  running t ht := decide_eq_true ht.2
  iterFunc t ht oldsize newsize hpos := by
    have hne : (t : Int) * newsize ≠ 0 := mul_ne_zero (by omega) (by omega)
    show (if (t : Int) * newsize = 0 then none else some _) ≠ none
    rw [if_neg hne]
    exact Option.some_ne_none _
  minimum rs hlen hrs := by
    obtain ⟨a, b, c, rfl⟩ := List.length_eq_three.mp hlen
    simp only [List.forall_mem_cons, List.not_mem_nil, false_implies, implies_true,
      and_true] at hrs
    simp only [micros, List.map_cons, List.map_nil, List.foldl_cons, List.foldl_nil,
      decide_eq_true_eq]
    omega

/-- Seven turns with times of a millisecond: the last two have `n` at 15 and more, where the
    increment doubles and the first perturbation is taken from it. -/
theorem driver_schedule_sevenTurns :
    ∃ d calls, Exec (answers False fun r => 0 < r.tTime ∧ 0 < r.iTime ∧ r.iTime < 500000)
        (mainLoop (micros 500000 100000) 7 (start 25)) [] (.returned d) calls ∧
      calls = tried ([1, 2, 3, 4, 6, 8, 12, 13, 16, 19, 21, 24, 27, 29, 32, 35, 45, 48, 51, 61,
        64].map (8 * ·)) := by
  obtain ⟨-, hsteady, -⟩ := driver_schedule (micros 500000 100000) 25 7
  obtain ⟨⟨out, calls, h⟩, hall⟩ := hsteady _ _ steady_local
    ⟨⟨8, 3, 3000, 1000⟩, by decide⟩
  obtain ⟨d, rfl, rfl⟩ := hall out calls h
  exact ⟨d, _, h, rfl⟩

end NetPipe.Driver
