/-
  `NPmpi_atoa`: how the driver ends.

  Rank 0 runs the main loop (`perform`), every other rank calls `run_iters()` until it is given
  `None` (`receive`).  `None` is what `run_iters` is meant to make of a size of 0 (it makes an
  exception of it), and no size of the schedule is 0: nobody ever tells the receivers that it is
  over.

  1. **The programs** — `driver` on every rank.  The times are given: `times c` is what the `c`-th
     call measures.  Every execution of the driver is one for some times, so what holds for all of
     them holds for every execution.
  2. **The runs** (`driven`) — what rank 0 asks for, given the times.  `exec_driven` makes it an
     execution in the sense of `NetPipe.Driver`, which is how the schedule gets here: every size is
     positive (`Leaves.accepted`), so none is refused and none is the signal.
  3. **Every rank keeps to the rounds of these runs** (`keeps_perform`, `keeps_receive`).  The
     load-bearing step is the receiver's: it makes one call more than there are runs, and with the
     rounds used up it stands in the first `MPI_Bcast` of `RecvRepeat`, where it may be idle.
  4. **So no execution ends with all ranks out of their loops** (`receivers_wait`): in whatever
     configuration no step is possible any more, rank 0 has left and every other rank stands in
     that `MPI_Bcast`.
-/
import NetPipe.AtoaSession
import NetPipe.Driver

namespace NetPipe.Atoa

open Process Ranks Mpi Choreo Driver

/-! ## The program -/

section program

variable {T α : Type} (check : Host → Int → Int → Int → Prog Host) (times : Nat → T × T)

/-- `(size_r, iters_r, tTime, iTime) = r`. -/
def answer (c : Nat) : PyResult → Option (Answer T)
  | .tuple size nrepeat _ => some ⟨size, nrepeat, (times c).1, (times c).2⟩
  | _ => none

/-- The main loop's requests performed by `run_iters`, `c` of them being done. -/
def perform : DriverProg T α → Host → (c : Nat) → Prog α
  | .ret a, _, _ => .ret a
  | .exit code msg, _, _ => .exit code msg
  | .fault, _, _ => .fault
  | .emit _ k, h, c => perform k h c
  | .malloc n k, h, c => .malloc n fun r => perform (k r) h c
  | .clock k, h, c => .clock fun t => perform (k t) h c
  | .io (.runIters size iters) k, h, c => do
    let (r, h) ← netpipeRunIters (atoa check) h [size, iters]
    perform (k (answer times c r)) h (c + 1)

/-- `while True`, for so many turns at most. -/
def receive : (turns : Nat) → Host → Prog Bool
  | 0, _ => .ret false
  | turns + 1, h => do
    let (r, h) ← netpipeRunIters (atoa check) h []
    match r with
    | .none => .emit (.printf "Receive exiting\n") (.ret true)
    | .null => .exit 1 "Traceback"
    | .tuple .. => receive turns h

/-- The driver on rank `i`; it comes to its end with `true` where it has left its loop, and not
    run out of turns. -/
def driver {n : Nat} (τ : Timing T) (t₀ : T) (turns : Nat) (order : Memory.ByteOrder)
    (i : Fin n) : Prog Bool := do
  let h ← init (netpipeObject order (Prot.mk 0 0) none) i n
  let left ← if h.args.tr then do
      let d ← perform check times (mainLoop τ turns (start t₀)) h 0
      .ret !τ.running d.iterationTime
    else receive check turns h
  .emit (.printf s!"<<NP5 end>> {h.args.prot.iproc} of {h.args.prot.nprocs} nodes <</NP5 end>>\n")
    (.ret left)

/-- What a driver asks for, and what it comes to; none where it raises. -/
def driven : DriverProg T α → (c : Nat) → Option (List (Int × Int) × α)
  | .ret a, _ => some ([], a)
  | .emit _ k, c => driven k c
  | .io (.runIters size iters) k, c =>
    (driven (k (some ⟨size, iters, (times c).1, (times c).2⟩)) (c + 1)).map
      fun (runs, a) => ((size, iters) :: runs, a)
  | _, _ => none

end program

/-- Among what may be answered, `driven` answers the times given. -/
theorem exec_driven {T α : Type} {times : Nat → T × T} (p : DriverProg T α) :
    ∀ (c : Nat) (runs : List (Int × Int)) (a : α) (calls : List Int),
    driven times p c = some (runs, a) →
    Exec (answers True fun _ => True) p calls (.returned a) (calls ++ runs.map Prod.fst) := by
  induction p with
  | ret b =>
    intro c runs a calls hdriven
    obtain ⟨rfl, rfl⟩ := Prod.mk.inj (Option.some.inj hdriven)
    rw [List.map_nil, List.append_nil]
    exact .ret
  | exit code msg =>
    intro c runs a calls hdriven
    cases hdriven
  | fault =>
    intro c runs a calls hdriven
    cases hdriven
  | emit e k ih => exact fun c runs a calls hdriven => .emit (ih c runs a calls hdriven)
  | malloc m k ih =>
    intro c runs a calls hdriven
    cases hdriven
  | clock k ih =>
    intro c runs a calls hdriven
    cases hdriven
  | io o k ih =>
    obtain ⟨size, iters⟩ := o
    intro c runs a calls hdriven
    obtain ⟨⟨runs, a⟩, hrest, heq⟩ := Option.map_eq_some_iff.mp hdriven
    obtain ⟨rfl, rfl⟩ := Prod.mk.inj heq
    -- `driven` has counted the call at the front, the log has it at the end
    rw [List.map_cons, List.append_cons]
    exact .io ⟨rfl, fun _ => trivial, fun _ _ => trivial⟩ (ih _ (c + 1) runs a _ hrest)

/-- So the sizes asked for are those of the schedule. -/
theorem asked_of_driven {T : Type} {times : Nat → T × T} {τ : Timing T} {t₀ : T} {turns : Nat}
    {runs : List (Int × Int)} {d : Vars T}
    (hdriven : driven times (mainLoop τ turns (start t₀)) 0 = some (runs, d)) :
    ∃ k, runs.map Prod.fst = tried (sizes k) := by
  obtain ⟨-, hout | ⟨d', k, -, -, hcalls⟩⟩ := exec_mainLoop (exec_driven _ 0 runs d [] hdriven)
  · cases hout
  · exact ⟨k, hcalls⟩

/-! ## Each rank keeps to the rounds -/

section keeps

variable {n : Nat} {cap : ℕ∞} {idle : Idle n Msg Coll} {i root : Fin n} {T α : Type}
  {check : Host → Int → Int → Int → Prog Host} {times : Nat → T × T}
  {rest : List (Part Msg (communicator n cap))}

/-- **Rank 0** makes the runs it asks for, by induction on its program.  The times it goes by
    are what its calls measure, so the runs are known once the times are. -/
theorem keeps_perform (hroot : (root : Nat) = 0) (hcheck : Harmless check) (hi : (i : Nat) = 0)
    (p : DriverProg T α) : ∀ (h : Host) (c : Nat) (runs : List (Int × Int)) (a : α),
    driven times p c = some (runs, a) → IsRank h n i → (∀ run ∈ runs, Accepted n run) →
    wp (rankHandler cap idle i) (perform check times p h c) (fun b s => s = rest ∧ b = a)
      ((sessionRounds cap root runs).map .round ++ rest) := by
  induction p with
  | ret b =>
    rintro h c runs a hdriven - -
    obtain ⟨rfl, rfl⟩ := Prod.mk.inj (Option.some.inj hdriven)
    exact ⟨rfl, rfl⟩
  | exit code msg =>
    intro h c runs a hdriven
    cases hdriven
  | fault =>
    intro h c runs a hdriven
    cases hdriven
  | emit e k ih => exact ih
  | malloc m k ih =>
    intro h c runs a hdriven
    cases hdriven
  | clock k ih =>
    intro h c runs a hdriven
    cases hdriven
  | io o k ih =>
    obtain ⟨size, iters⟩ := o
    intro h c runs a hdriven hrank hruns
    obtain ⟨⟨runs, a⟩, hrest, heq⟩ := Option.map_eq_some_iff.mp hdriven
    obtain ⟨rfl, rfl⟩ := Prod.mk.inj heq
    rw [List.forall_mem_cons] at hruns
    rw [sessionRounds, List.flatMap_cons, List.map_append, List.append_assoc, perform]
    -- rank 0 passes both arguments, all others none
    have hargs : [size, iters] = pyargs i (size, iters) := by rw [pyargs, if_pos hi]
    rw [hargs]
    refine wp_bind (keeps_run hroot hcheck hrank hruns.1 ?_)
    intro h' t hsame
    exact ih _ h' (c + 1) runs a hrest (hrank.same hsame) hruns.2

/-- **A receiver** takes part in all runs, and calls `run_iters` once more. -/
theorem keeps_receive (hroot : (root : Nat) = 0) (hcheck : Harmless check) (hi : (i : Nat) ≠ 0)
    {Q : Bool → List (Part Msg (communicator n cap)) → Prop} (runs : List (Int × Int)) :
    ∀ (h : Host) (turns : Nat), IsRank h n i → (∀ run ∈ runs, Accepted n run) →
    runs.length < turns →
    wp (rankHandler cap awaitsSize i) (receive check turns h) Q
      ((sessionRounds cap root runs).map .round) := by
  induction runs with
  | nil =>
    rintro h (_ | turns) hrank - hlt
    · exact absurd hlt (Nat.lt_irrefl 0)
    · exact keeps_awaitsSize hrank hi
  | cons run runs ih =>
    rintro h (_ | turns) hrank hruns hlt
    · exact absurd hlt (Nat.not_lt_zero _)
    · rw [List.forall_mem_cons] at hruns
      rw [sessionRounds, List.flatMap_cons, List.map_append, receive]
      have hargs : [] = pyargs i run := by rw [pyargs, if_neg hi]
      rw [hargs]
      refine wp_bind (keeps_run hroot hcheck hrank hruns.1 ?_)
      intro h' t hsame
      exact ih h' turns (hrank.same hsame) hruns.2 (Nat.lt_of_succ_lt_succ hlt)

end keeps

/-! ## The end -/

section main

variable {n : Nat} {cap : ℕ∞} {T : Type} {check : Host → Int → Int → Int → Prog Host}
  {times : Nat → T × T} {τ : Timing T} {t₀ : T} {turns : Nat} {order : Fin n → Memory.ByteOrder}

/-- All drivers at the beginning. -/
def driverStart (check : Host → Int → Int → Int → Prog Host) (times : Nat → T × T) (τ : Timing T)
    (t₀ : T) (turns : Nat) (order : Fin n → Memory.ByteOrder) :
    Config n Msg Coll.Res Event Bool :=
  .start fun i => driver check times τ t₀ turns (order i) i

/-- When no step is possible any more, every rank has left its loop. -/
def Shutdown (N : Network n Coll Coll.Res) (c₀ : Config n Msg Coll.Res Event Bool) : Prop :=
  ∀ c, Steps N c₀ c → Stuck N c → ∀ i, (c.party i).Returned true

/-- A run that can be completed: the arguments are `int`s, and the buffers are as large as they
    have to be (`large_enough_iff`). -/
structure Completable (n : Nat) (run : Int × Int) : Prop where
  size : run.1 < 2 ^ 31
  nrepeat : 0 ≤ run.2 ∧ run.2 < 2 ^ 31
  blocks : (run.1 + 7) / 8 * n < 2 ^ 31

/-- The times take rank 0 through these runs and out of its loop. -/
structure Leaves (times : Nat → T × T) (τ : Timing T) (t₀ : T) (turns n : Nat)
    (runs : List (Int × Int)) : Prop where
  driven : ∃ d, driven times (mainLoop τ turns (start t₀)) 0 = some (runs, d) ∧
    τ.running d.iterationTime = false
  completable : ∀ run ∈ runs, Completable n run
  turns : runs.length < turns

/-- No size of the schedule is 0. -/
theorem Leaves.accepted {runs : List (Int × Int)} (hleaves : Leaves times τ t₀ turns n runs) :
    ∀ run ∈ runs, Accepted n run := by
  intro run hrun
  obtain ⟨d, hdriven, -⟩ := hleaves.driven
  have hrun' := hleaves.completable run hrun
  obtain ⟨k, hcalls⟩ := asked_of_driven hdriven
  have hmem : run.1 ∈ tried (sizes k) := by
    rw [← hcalls]
    exact List.mem_map_of_mem hrun
  obtain ⟨size, hsize, hsame⟩ := List.mem_flatMap.mp hmem
  obtain rfl := List.eq_of_mem_replicate hsame
  have hpos := ((sizes_ascend k).2 _ hsize).1
  exact ⟨⟨hpos, hrun'.size⟩, hrun'.nrepeat, hrun'.blocks⟩

/-- Each driver keeps to the rounds of rank 0's runs. -/
theorem keeps_driver (hprocs : 2 ≤ n ∧ (n : Int) ≤ MAXPROCS) (hcheck : Harmless check)
    {runs : List (Int × Int)} (hleaves : Leaves times τ t₀ turns n runs) {root : Fin n}
    (hroot : (root : Nat) = 0) (i : Fin n) :
    Keeps (N := communicator n cap) awaitsSize (fun left => (i : Nat) = 0 ∧ left = true) i
      (driver check times τ t₀ turns (order i) i)
      (script ((sessionRounds cap root runs).map .round) i) := by
  obtain ⟨d, hdriven, hleft⟩ := hleaves.driven
  have hrank := isRank_host (order i) i
  rw [script_rounds, driver, init_eq (order i) _ (by omega)]
  by_cases hi : (i : Nat) = 0
  · -- nothing is left of the rounds when the loop ends, and it ends with `hleft`
    simp only [Proc.bind_eq, Proc.bind, (hrank.root hi).1, if_true]
    rw [← List.append_nil (List.map _ _)]
    refine wp_bind (wp_mono ?_ (keeps_perform hroot hcheck hi _ _ 0 runs d hdriven hrank
      hleaves.accepted))
    rintro _ _ ⟨rfl, rfl⟩
    exact ⟨rfl, hi, by rw [hleft]; rfl⟩
  · -- the rounds are gone and the receiver is in `Bcast`: where it may be idle
    simp only [Proc.bind_eq, Proc.bind, (hrank.other hi).1, Bool.false_eq_true, if_false]
    exact wp_bind (keeps_receive hroot hcheck hi runs _ turns hrank hleaves.accepted
      hleaves.turns)

/-- What every rank comes to. -/
theorem driver_ends (hprocs : 2 ≤ n ∧ (n : Int) ≤ MAXPROCS) (hcheck : Harmless check)
    {runs : List (Int × Int)} (hleaves : Leaves times τ t₀ turns n runs)
    {c : Config n Msg Coll.Res Event Bool}
    (hc : Steps (communicator n cap) (driverStart check times τ t₀ turns order) c)
    (hs : Stuck (communicator n cap) c) (i : Fin n) :
    ((i : Nat) = 0 ∧ (c.party i).Returned true) ∨
      ((i : Nat) ≠ 0 ∧ ∃ k, (c.party i).prog = .io (.coll (.bcast 0 1 none)) k) := by
  obtain ⟨root, hroot⟩ : ∃ root : Fin n, (root : Nat) = 0 := ⟨⟨0, by omega⟩, rfl⟩
  rcases ends blocked_awaitsSize (keeps_driver hprocs hcheck hleaves hroot) hc hs i with
    ⟨_, hret, hi, rfl⟩ | ⟨o, k, hp, hi, rfl⟩
  · exact Or.inl ⟨hi, hret⟩
  · exact Or.inr ⟨hi, k, hp⟩

/-- Two ranks or more cannot all have left their loops. -/
theorem not_shutdown (hprocs : 2 ≤ n ∧ (n : Int) ≤ MAXPROCS) (hcheck : Harmless check)
    {runs : List (Int × Int)} (hleaves : Leaves times τ t₀ turns n runs) :
    ¬ Shutdown (communicator n cap) (driverStart check times τ t₀ turns order) := by
  intro hshut
  -- the sessions do end: in some configuration no step is possible any more
  obtain ⟨c, hc, hs⟩ := exists_stuck (N := communicator n cap)
    (driverStart check times τ t₀ turns order)
  have hret := hshut c hc hs ⟨1, by omega⟩
  rcases driver_ends hprocs hcheck hleaves hc hs ⟨1, by omega⟩ with ⟨hi, -⟩ | ⟨-, k, hp⟩
  · cases hi
  · cases hret.symm.trans hp

/-- **The receivers never stop.**  Whatever the times are that make rank 0 leave its loop, every
    other rank ends up in `run_iters`, where it waits for a size. -/
theorem receivers_wait (hprocs : 2 ≤ n ∧ (n : Int) ≤ MAXPROCS) (cap : ℕ∞)
    (hcheck : Harmless check) (order : Fin n → Memory.ByteOrder) {runs : List (Int × Int)}
    (hleaves : Leaves times τ t₀ turns n runs) :
    ¬ Shutdown (communicator n cap) (driverStart check times τ t₀ turns order) ∧
      ∀ c, Steps (communicator n cap) (driverStart check times τ t₀ turns order) c →
        Stuck (communicator n cap) c → ∀ i : Fin n,
          ((i : Nat) = 0 → (c.party i).Returned true) ∧
          ((i : Nat) ≠ 0 → ∃ k, (c.party i).prog = .io (.coll (.bcast 0 1 none)) k) := by
  refine ⟨not_shutdown hprocs hcheck hleaves, ?_⟩
  intro c hc hs i
  rcases driver_ends hprocs hcheck hleaves hc hs i with ⟨hi, hret⟩ | ⟨hi, hwait⟩
  · exact ⟨fun _ => hret, fun hne => absurd hi hne⟩
  · exact ⟨fun heq => absurd heq hi, fun _ => hwait⟩

/-- Two ranks, and times that are long enough to stop after one turn: the first size is run as
    often as the guess of 554 microseconds suggests. -/
theorem leaves_oneTurn : Leaves (fun _ => (600000, 200000)) (micros 100000 100000) 554 10 2
    [(8, 180), (8, 180), (8, 180), (16, 3), (16, 3), (16, 3), (24, 3), (24, 3), (24, 3)] where
  driven := ⟨_, rfl, rfl⟩
  completable := by
    intro run hrun
    simp only [List.mem_cons, List.not_mem_nil, or_false] at hrun
    rcases hrun with rfl | rfl | rfl | rfl | rfl | rfl | rfl | rfl | rfl
    all_goals exact ⟨by decide, by decide, by decide⟩
  turns := by decide

/-- One turn on two ranks: rank 1 waits. -/
theorem receivers_wait_oneTurn :
    ¬ Shutdown (communicator 2 0)
        (driverStart noCheck (fun _ => (600000, 200000)) (micros 100000 100000) 554 10
          fun _ => .little) ∧
      ∀ c, Steps (communicator 2 0)
          (driverStart noCheck (fun _ => (600000, 200000)) (micros 100000 100000) 554 10
            fun _ => .little) c →
        Stuck (communicator 2 0) c → ∀ i : Fin 2,
          ((i : Nat) = 0 → (c.party i).Returned true) ∧
          ((i : Nat) ≠ 0 → ∃ k, (c.party i).prog = .io (.coll (.bcast 0 1 none)) k) :=
  receivers_wait (by decide) 0 (fun h _ _ _ => ⟨h.lfsrData, .ret h⟩) _ leaves_oneTurn

/-- So it is not true that receivers stop when rank 0 does. -/
theorem receivers_do_not_stop :
    ¬ ∀ (n : Nat) (times : Nat → Nat × Nat) (turns : Nat) (runs : List (Int × Int)),
      2 ≤ n ∧ (n : Int) ≤ MAXPROCS → Leaves times (micros 100000 100000) 554 turns n runs →
      Shutdown (communicator n ⊤)
        (driverStart noCheck times (micros 100000 100000) 554 turns fun _ => .little) :=
  fun hall => not_shutdown (by decide) (fun h _ _ _ => ⟨h.lfsrData, .ret h⟩) leaves_oneTurn
    (hall 2 _ 10 _ (by decide) leaves_oneTurn)

end main

end NetPipe.Atoa
