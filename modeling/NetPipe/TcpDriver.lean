/-
  `NPtcp-local`: the driver and the receiver it forks, from the first call to the last.

  The parent connects and runs the main loop of `NetPipe.Driver`, whose arguments depend on the
  times measured so far; the child calls `run_iters()` until it is handed `None`.  Both talk over
  the socket of `NetPipe.TcpSession`, and here the two processes also end, which closes it
  (`Lib.Closing`).

  1. **The programs** — `perform`, `receive`, `party`.  Behind its loop the parent writes to `sock`,
     which is bound nowhere: the `NameError` is how it ends, and nobody ever tells the child that
     it is over.

  2. **Each keeps to the script** of the session that the measured times make of it
     (`script_perform`, `script_receive_all`); the child's ends in the read of `RecvRepeat`, which
     may wait for ever.

  3. **At the end of the stream `RecvRepeat` leaves the process** (`leavesAt_receive`): 0 bytes read
     are not four, so the status is 306.  No other call of the module reads from that site, so
     this is a property of the child's program as a whole.

  4. **The whole program** (`local_driver`).  As long as no call has met a closed end, the
     configuration is one of the session's; the first loss can only be the end of the stream in
     the read the child waits in, because the parent is over behind its script alone
     (`Duplex.Inv.loss`); and behind that loss nothing moves any more.  So where nothing moves, the
     runs are those of the main loop, in its order, on both sides; no byte is left over; the
     parent has raised `NameError`; and the child has left with 306, never having been handed
     `None`.
-/
import NetPipe.AtoaDriver
import NetPipe.Lib.Closing
import NetPipe.TcpLiveness

namespace NetPipe.Tcp

open Memory Process Duplex Driver
open Atoa (answer driven asked_of_driven)

/-! ## The programs -/

/-- How a Python process comes to its end. -/
inductive PyEnd where
  /-- `sys.exit(0)`. -/
  | sysExit
  /-- An exception nobody catches. -/
  | raised (exception : String)
  /-- Not at all: it has made all turns it was given here. -/
  | running
  deriving DecidableEq, Repr

section program

variable {T α : Type} (times : Nat → T × T)

/-- The main loop's requests performed by `run_iters`, `c` of them being done. -/
def perform : DriverProg T α → Host → (c : Nat) → TcpProg α
  | .ret a, _, _ => .ret a
  | .exit code msg, _, _ => .exit code msg
  | .fault, _, _ => .fault
  | .emit _ k, h, c => perform k h c
  | .malloc n k, h, c => .malloc n fun r => perform (k r) h c
  | .clock k, h, c => .clock fun t => perform (k t) h c
  | .io (.runIters size iters) k, h, c => do
    let (r, h) ← netpipeRunIters tcp h [size, iters]
    perform (k (answer times c r)) h (c + 1)

/-- `while True`, for so many turns at most. -/
def receive : (turns : Nat) → Host → TcpProg PyEnd
  | 0, _ => .ret .running
  | turns + 1, h => do
    let (r, h) ← netpipeRunIters tcp h []
    match r with
    | .none => .ret .sysExit
    | .null => .exit 1 "Traceback"
    | .tuple .. => receive turns h

/-- The parent (`Side.left`) and the child. -/
def party (τ : Timing T) (t₀ : T) (turns : Nat) (h : Host) : Side → TcpProg PyEnd
  | .left => do
    let d ← perform times (mainLoop τ turns (start t₀)) h 0
    .ret (if τ.running d.iterationTime then .running
      else .raised "NameError: name 'sock' is not defined")
  | .right => receive turns h

end program

/-- Both at the beginning, connected. -/
def localStart {T : Type} (times : Nat → T × T) (τ : Timing T) (t₀ : T) (turns : Nat) (H : Hosts) :
    Config Pos Site Event PyEnd :=
  .start ⟨0, 0⟩ fun s => party times τ t₀ turns (H.host s) s

/-- The sizes and repeat counts a party has gone through, in order. -/
def announced (log : List TcpAct) : List (UInt32 × UInt32) :=
  log.filterMap fun
    | .did _ (.mark (.params size _ nrepeat)) => some (size, nrepeat)
    | _ => none

/-- The times take the parent through these runs and out of its loop. -/
structure Leaves {T : Type} (times : Nat → T × T) (τ : Timing T) (t₀ : T) (turns : Nat)
    (runs : List Run) : Prop where
  driven : ∃ d, driven times (mainLoop τ turns (start t₀)) 0 = some (runs.map Run.call, d) ∧
    τ.running d.iterationTime = false
  turns : runs.length < turns

/-! ## The programs keep to the script -/

section follows

variable {D : Discipline Site} {waits : Stamp Pos Site → Prop} {rest : List TcpAct} {T α : Type}
  {times : Nat → T × T}

/-- **The parent** makes the runs it asks for, by induction on its program, with the answer of
    each call fed back into the rest. -/
theorem script_perform (hD : Controlled D) (H : Hosts) (p : DriverProg T α) :
    ∀ (h : Host) (i c : Nat) (runs : List Run) (a : α),
    driven times p c = some (runs.map Run.call, a) → h.settings = (H.host .left).settings →
    wp (scriptHandler D advance waits) (perform times p h c) (fun b s => s.2 = rest ∧ b = a)
      (⟨i, 0⟩, sessionScript H .left i runs ++ rest) := by
  induction p with
  | ret b =>
    rintro h i c runs a hdriven -
    obtain ⟨hnil, rfl⟩ := Prod.mk.inj (Option.some.inj hdriven)
    obtain rfl := List.map_eq_nil_iff.mp hnil.symm
    exact ⟨rfl, rfl⟩
  | exit code msg =>
    intro h i c runs a hdriven
    cases hdriven
  | fault =>
    intro h i c runs a hdriven
    cases hdriven
  | emit e k ih => exact ih
  | malloc m k ih =>
    intro h i c runs a hdriven
    cases hdriven
  | clock k ih =>
    intro h i c runs a hdriven
    cases hdriven
  | io o k ih =>
    obtain ⟨size, iters⟩ := o
    intro h i c runs a hdriven hset
    obtain ⟨⟨calls, a⟩, hrest, heq⟩ := Option.map_eq_some_iff.mp hdriven
    obtain ⟨hcons, rfl⟩ := Prod.mk.inj heq
    obtain ⟨r, runs, rfl, hcall, rfl⟩ := List.map_eq_cons_iff.mp hcons.symm
    rw [sessionScript, List.append_assoc, perform]
    have hargs : [size, iters] = pyargs .left r.call := by rw [hcall]; rfl
    rw [hargs]
    refine wp_bind (script_run hD H hset ?_)
    rintro h' _ hset' ⟨t, rfl⟩
    rw [hcall]
    exact ih _ h' (i + 1) (c + 1) runs a hrest hset'

/-- **The child** takes part in all runs, and calls `run_iters` once more. -/
theorem script_receive_all (hD : Controlled D) (H : Hosts)
    {Q : PyEnd → Pos × List TcpAct → Prop} (runs : List Run) :
    ∀ (h : Host) (i turns : Nat), h.settings = (H.host .right).settings → runs.length < turns →
    waits ⟨⟨i + runs.length, 0⟩, .rpt⟩ →
    wp (scriptHandler D advance waits) (receive turns h) Q
      (⟨i, 0⟩, sessionScript H .right i runs) := by
  induction runs with
  | nil =>
    rintro h i (_ | turns) hset hlt hwaits
    · exact absurd hlt (Nat.lt_irrefl 0)
    · have hrcv : h.args.rcv = true := congrArg Settings.rcv hset
      simp only [receive, netpipeRunIters, pyArgParseTuple, hrcv, if_true]
      exact wp_bind (wp_bind (script_recvRepeat_waits hwaits))
  | cons r runs ih =>
    rintro h i (_ | turns) hset hlt hwaits
    · exact absurd hlt (Nat.not_lt_zero _)
    · rw [sessionScript, receive]
      refine wp_bind (script_run (s := .right) hD H hset ?_)
      rintro h' _ hset' ⟨t, rfl⟩
      apply ih h' (i + 1) turns hset' (Nat.lt_of_succ_lt_succ hlt)
      rwa [List.length_cons, Nat.add_comm runs.length, ← Nat.add_assoc] at hwaits

end follows

/-! ## The end of the stream -/

section leaves

variable {α : Type}

/-- `readFully` at the end of the stream answers 0; at the site of `RecvRepeat` the program behind
    it has to leave on that. -/
theorem leavesAt_readFully_bind {site : Site} {len : Nat}
    {f : Int × List UInt8 → TcpProg α} (hf : ∀ a, LeavesAt .rpt 306 (f a))
    (hleave : site = .rpt → ∀ buf, ∃ msg, f (0, buf) = .exit 306 msg) (bytesLeft : Nat) :
    ∀ (off : Nat) (bytesRead : Int) (buf : List UInt8),
    LeavesAt .rpt 306 ((readFully.loop site len bytesLeft off bytesRead buf).bind f) := by
  induction bytesLeft using Nat.strong_induction_on with
  | _ bytesLeft ih =>
    intro off bytesRead buf
    rw [readFully.loop]
    by_cases hleft : 0 < bytesLeft
    · rw [dif_pos hleft]
      refine ⟨fun hs => hleave hs buf, ?_⟩
      rintro (_ | bs)
      · exact hf _
      · show LeavesAt .rpt 306 (Proc.bind (dite _ _ _) f)
        split
        · rename_i hpos
          cases storeAt buf off bs with
          | none => trivial
          | some buf => exact ih _ (by omega) _ _ buf
        · exact hf _
    · rw [dif_neg hleft]
      exact hf _

theorem leavesAt_recvRepeat (h : Host) : LeavesAt .rpt 306 (recvRepeat h) := by
  refine leavesAt_readFully_bind ?_ ?_ 4 0 0 _
  · intro a
    dsimp only
    split
    · trivial
    · split <;> trivial
  · rintro - buf
    exact ⟨_, rfl⟩

theorem leavesAt_sendRepeat (h : Host) (rpt : UInt32) : LeavesAt .rpt 306 (sendRepeat h rpt) := by
  rintro (_ | n) <;> trivial

theorem leavesAt_sync (h : Host) : LeavesAt .rpt 306 (sync h) := by
  rintro (_ | n)
  · trivial
  · refine leavesAt_readFully_bind ?_ (fun hs => by cases hs) 6 0 0 _
    intro a
    dsimp only
    split
    · trivial
    · split <;> trivial

theorem leavesAt_sendData_loop (h : Host) (bytesLeft : Nat) :
    ∀ (off : Nat) (bytesWritten : Int),
    LeavesAt .rpt 306 (sendData.loop h bytesLeft off bytesWritten) := by
  have hfinish : ∀ n, LeavesAt .rpt 306 (sendData.finish h n) := by
    intro n
    unfold sendData.finish
    split <;> trivial
  induction bytesLeft using Nat.strong_induction_on with
  | _ bytesLeft ih =>
    intro off bytesWritten
    rw [sendData.loop]
    by_cases hleft : 0 < bytesLeft
    · rw [dif_pos hleft]
      apply LeavesAt.bind (leavesAt_ofOption _)
      rintro q (_ | n)
      · exact hfinish _
      · dsimp only
        split
        · exact ih _ (by omega) _ _
        · exact hfinish _
    · rw [dif_neg hleft]
      exact hfinish _

theorem leavesAt_recvData_loop (bytesLeft : Nat) :
    ∀ (h : Host) (off : Nat) (bytesRead : Int),
    LeavesAt .rpt 306 (recvData.loop h bytesLeft off bytesRead) := by
  have hfinish : ∀ h left n, LeavesAt .rpt 306 (recvData.finish h left n) := by
    intro h left n
    unfold recvData.finish
    split
    · trivial
    · split <;> trivial
  induction bytesLeft using Nat.strong_induction_on with
  | _ bytesLeft ih =>
    intro h off bytesRead
    rw [recvData.loop]
    by_cases hleft : 0 < bytesLeft
    · rw [dif_pos hleft]
      refine ⟨fun hs => (by cases hs), ?_⟩
      rintro (_ | bs)
      · exact hfinish _ _ _
      · dsimp only
        split
        · exact LeavesAt.bind (leavesAt_ofOption _) fun heap => ih _ (by omega) _ _ _
        · exact hfinish _ _ _
    · rw [dif_neg hleft]
      exact hfinish _ _ _

theorem leavesAt_myMalloc (h : Host) (bufflen soffset roffset : Int) :
    LeavesAt .rpt 306 (myMalloc h bufflen soffset roffset : TcpProg Host) := by
  rintro (_ | bs)
  · trivial
  · dsimp only
    split
    · trivial
    · rintro (_ | bs) <;> trivial

theorem leavesAt_initBufferData (h : Host) (n soffset roffset : Int) :
    LeavesAt .rpt 306 (initBufferData h n soffset roffset : TcpProg Host) := by
  refine LeavesAt.bind (leavesAt_ofOption _) fun a => ?_
  dsimp only
  split
  · exact LeavesAt.bind (leavesAt_ofOption _) fun heap => trivial
  · exact LeavesAt.bind (leavesAt_ofOption _) fun a => trivial

theorem leavesAt_checkBufferData (h : Host) (n soffset roffset : Int) :
    LeavesAt .rpt 306 (checkBufferData h n soffset roffset : TcpProg Host) := by
  have hreport : ∀ ms, LeavesAt .rpt 306 (report ms : TcpProg Unit) := by
    intro ms
    induction ms with
    | nil => trivial
    | cons m ms ih => exact ih
  exact LeavesAt.bind (leavesAt_ofOption _) fun a => LeavesAt.bind (hreport _) fun _ => trivial

theorem leavesAt_freeBuff (h : Host) (buff1 buff2 : Ptr) :
    LeavesAt .rpt 306 (freeBuff h buff1 buff2 : TcpProg Host) :=
  LeavesAt.bind (leavesAt_ofOption _) fun _ => LeavesAt.bind (leavesAt_ofOption _) fun _ => trivial

/-- The timed loop, by induction on the iterations. -/
theorem leavesAt_timedLoop (n : Nat) : ∀ h : Host, LeavesAt .rpt 306 (timedLoop tcp n h) := by
  have hsend : ∀ h : Host, LeavesAt .rpt 306 (sendMarked tcp h) := fun h =>
    leavesAt_sendData_loop h _ 0 0
  have hrecv : ∀ h : Host, LeavesAt .rpt 306 (recvMarked tcp h) := fun h =>
    LeavesAt.bind (leavesAt_recvData_loop _ h 0 0) fun _ => trivial
  induction n with
  | zero => exact fun h => trivial
  | succ n ih =>
    intro h
    rw [timedLoop]
    have hnext : ∀ h : Host, LeavesAt .rpt 306 (do mark .iterated; timedLoop tcp n h) := ih
    dsimp only
    split
    · exact LeavesAt.bind (hsend h) fun h => LeavesAt.bind (hrecv h) hnext
    · exact LeavesAt.bind (hrecv h) fun h => LeavesAt.bind (hsend h) hnext

theorem leavesAt_runBody (h : Host) (size nrepeat : UInt32) :
    LeavesAt .rpt 306 (runBody tcp h size nrepeat) := by
  unfold runBody
  refine LeavesAt.bind (?_ : LeavesAt .rpt 306 (allocRun tcp h size nrepeat)) fun h => ?_
  · unfold allocRun
    refine LeavesAt.bind trivial fun _ => ?_
    exact LeavesAt.bind (leavesAt_myMalloc _ _ _ _) fun h => LeavesAt.bind trivial fun _ => trivial
  split
  · trivial
  refine LeavesAt.bind ?_ fun h => LeavesAt.bind ?_ fun h t0 => ?_
  · exact LeavesAt.bind (leavesAt_initBufferData _ _ _ _) fun h => trivial
  · unfold syncRun
    dsimp only
    split <;> exact leavesAt_sync h
  · have hclose : ∀ h, LeavesAt .rpt 306 (closeRun tcp h size nrepeat t0) := by
      intro h t
      refine LeavesAt.bind (leavesAt_checkBufferData _ _ _ _) fun h => ?_
      dsimp only
      split <;> exact LeavesAt.bind (leavesAt_freeBuff _ _ _) fun h => trivial
    exact (LeavesAt.bind (leavesAt_timedLoop _ h) hclose :)

theorem leavesAt_netpipeRunIters (h : Host) (pyargs : List Int) :
    LeavesAt .rpt 306 (netpipeRunIters tcp h pyargs) := by
  have hwith : ∀ h size nrepeat, LeavesAt .rpt 306 (runWith tcp h size nrepeat) := by
    intro h size nrepeat
    unfold runWith
    dsimp only
    split
    · refine LeavesAt.bind (leavesAt_sendRepeat _ _) fun h => ?_
      exact LeavesAt.bind (leavesAt_sendRepeat _ _) fun h => leavesAt_runBody h size nrepeat
    · exact leavesAt_runBody h size nrepeat
  unfold netpipeRunIters
  split
  · exact hwith _ _ _
  · split
    · refine LeavesAt.bind (leavesAt_recvRepeat _) fun a => ?_
      refine LeavesAt.bind (leavesAt_recvRepeat _) fun b => ?_
      dsimp only
      split
      · trivial
      · exact hwith _ _ _
    · trivial

/-- **At the end of the stream the child leaves with 306**, wherever in its turns that is. -/
theorem leavesAt_receive (turns : Nat) : ∀ h : Host, LeavesAt .rpt 306 (receive turns h) := by
  induction turns with
  | zero => exact fun h => trivial
  | succ turns ih =>
    intro h
    apply LeavesAt.bind (leavesAt_netpipeRunIters h [])
    rintro ⟨_ | _ | _, h⟩
    · trivial
    · trivial
    · exact ih h

end leaves

/-! ## Both together -/

/-- The plan: a session without an ending, and the child waits behind it. -/
def localPlan (H : Hosts) (runs : List Run) : Plan Pos Site Event where
  full s := sessionScript H s 0 runs
  tail _ := []
  waits s st := s = .right ∧ st = ⟨⟨runs.length, 0⟩, .rpt⟩
  balanced s := by rw [puts_sessionScript, List.append_nil]
  waits_tail _ _ _ := rfl

section main

variable {T : Type} {times : Nat → T × T} {τ : Timing T} {t₀ : T} {turns : Nat} {H : Hosts}
  {runs : List Run} {D : Discipline Site}

/-- Each party follows the plan. -/
theorem follows_party (hD : Controlled D) (H : Hosts) (hleaves : Leaves times τ t₀ turns runs)
    (s : Side) :
    Follows D advance ((localPlan H runs).waits s)
      (fun a => s = .left ∧ a = .raised "NameError: name 'sock' is not defined")
      (party times τ t₀ turns (H.host s) s) (⟨0, 0⟩, (localPlan H runs).full s) := by
  obtain ⟨d, hdriven, hleft⟩ := hleaves.driven
  cases s with
  | left =>
    show wp _ _ _ (_, sessionScript H .left 0 runs)
    rw [← List.append_nil (sessionScript H .left 0 runs)]
    refine wp_bind (wp_mono ?_ (script_perform hD H _ _ 0 0 runs d hdriven rfl))
    rintro _ s ⟨hs, rfl⟩
    exact ⟨hs, rfl, by rw [hleft]; rfl⟩
  | right =>
    apply script_receive_all hD H runs _ 0 turns rfl hleaves.turns
    rw [Nat.zero_add]
    exact ⟨rfl, rfl⟩

/-- The plan is in order where that of the session is. -/
theorem localPlan_timely {cap : Side → ℕ∞} (hcap : ∀ s, 6 ≤ cap s) (short fails : Prop) :
    (localPlan H runs).Timely (sockets cap short fails) rank := by
  have htimely : (sessionPlan H runs .done).Timely (sockets cap short fails) rank := timely hcap
  have hfull : ∀ s, (sessionPlan H runs .done).full s = (localPlan H runs).full s := by
    intro s
    exact List.append_nil _
  have hwhole : ∀ s, (sessionPlan H runs .done).whole s = (localPlan H runs).whole s := by
    intro s
    exact congrArg (· ++ _) (hfull s)
  refine ⟨?_, ?_, htimely.tail_cap, htimely.cap_pos⟩
  · intro s
    rw [← hwhole]
    exact htimely.ordered s
  · intro s x hx
    rw [← hwhole]
    exact htimely.window s x (by rwa [hfull])

/-! ### What the logs say -/

theorem announced_append (l m : List TcpAct) :
    announced (l ++ m) = announced l ++ announced m := List.filterMap_append

theorem announced_eq_nil {l : List TcpAct}
    (h : ∀ p size bytes nrepeat, .did p (.mark (.params size bytes nrepeat)) ∉ l) :
    announced l = [] := by
  apply List.filterMap_eq_nil_iff.mpr
  rintro (x | ⟨call, x⟩ | ⟨p, e⟩) ha
  · rfl
  · rfl
  · cases e with
    | mark m =>
      cases m with
      | params size bytes nrepeat => exact absurd ha (h p size bytes nrepeat)
      | _ => rfl
    | printf msg => rfl
    | mismatch m => rfl

/-- A run announces its own size and repeat count, once. -/
theorem announced_runScript (H : Hosts) (s : Side) (i : Nat) (r : Run) :
    announced (runScript H s i r) = [(toUint32 r.size, toUint32 r.nrepeat)] := by
  have hhead : announced (headScript s ⟨i, 0⟩ (toUint32 r.size) (toUint32 r.nrepeat)) = [] := by
    apply announced_eq_nil
    cases s <;> simp [headScript]
  have hsync : announced (syncScript ⟨i, 0⟩) = [] := announced_eq_nil (by simp [syncScript])
  have hloop : ∀ own peer k, announced (loopScript s i own peer 0 k) = [] := by
    intro own peer k
    apply announced_eq_nil
    cases s <;> simp [loopScript, iterScript, sendScript, recvScript, did]
  have hclose : ∀ p ms, announced (closeScript p ms) = [] := by
    intro p ms
    apply announced_eq_nil
    simp [closeScript, did]
  have hprep : announced (prepScript (H.asyncReceive s) ⟨i, 0⟩ (toUint32 r.size)
      (toUint32 r.nrepeat)) = [(toUint32 r.size, toUint32 r.nrepeat)] := by
    cases H.asyncReceive s <;> rfl
  rw [runScript, bodyScript]
  simp only [announced_append, hhead, hprep, hsync, List.nil_append]
  show [_] ++ [] ++ announced (_ ++ _) = _
  rw [announced_append, hloop, hclose]
  rfl

theorem announced_sessionScript (H : Hosts) (s : Side) (runs : List Run) :
    ∀ i, announced (sessionScript H s i runs) =
      runs.map fun r => (toUint32 r.size, toUint32 r.nrepeat) := by
  induction runs with
  | nil => exact fun i => rfl
  | cons r runs ih =>
    intro i
    rw [sessionScript, announced_append, announced_runScript, ih, List.map_cons]
    rfl

/-- The sizes asked for are those of the schedule, each `TRIALS` times. -/
theorem Leaves.schedule (hleaves : Leaves times τ t₀ turns runs) :
    ∃ k, runs.map Run.size = tried (schedule k) := by
  obtain ⟨d, hdriven, -⟩ := hleaves.driven
  obtain ⟨k, hcalls⟩ := asked_of_driven hdriven
  rw [List.map_map, sizes_eq] at hcalls
  exact ⟨k, hcalls⟩

/-! ### From the first call to the last -/

/-- The end of the parent. -/
def nameError : PyEnd := .raised "NameError: name 'sock' is not defined"

/-- Before a call has met a closed end. -/
def Going (D : Discipline Site) (H : Hosts) (runs : List Run)
    (c : Config Pos Site Event PyEnd) : Prop :=
  (∃ script, Inv D advance (localPlan H runs) (fun s a => s = .left ∧ a = nameError) c script) ∧
    LeavesAt .rpt 306 (c.party .right).prog

/-- Behind it: both processes are over. -/
structure Gone (H : Hosts) (runs : List Run) (c : Config Pos Site Event PyEnd) : Prop where
  parent : (c.party .left).Returned nameError
  child : ∃ msg, (c.party .right).prog = .exit 306 msg
  chan : ∀ s, c.chan s = []
  log : ∀ s, (c.party s).log = sessionScript H s 0 runs

variable {c c' : Config Pos Site Event PyEnd}

/-- **Step lemma.**  A step of `Lib.Duplex` keeps to the plan; a loss hits the child, in
    `RecvRepeat`. -/
theorem Going.step (hD : ¬ D.allocFails) (hgoing : Going D H runs c)
    (h : ClosingStep D advance (· ≠ .running) c c') : Going D H runs c' ∨ Gone H runs c' := by
  obtain ⟨⟨script, hi⟩, hleaves⟩ := hgoing
  rcases h with h | h
  · exact Or.inl ⟨hi.step h, steps_leavesAt (.single h) hleaves⟩
  · obtain ⟨s, site, n, k, p, l, a, hp, hparty, ⟨rfl, hsite⟩, ha, ⟨-, rfl⟩, hscript, hchan,
      hempty⟩ := hi.loss hD (fun _ => rfl) h
    obtain rfl : site = .rpt := congrArg Stamp.site hsite
    rw [hp] at hleaves
    obtain ⟨msg, hmsg⟩ := hleaves.1 rfl
    have hlog : ∀ t, (c.party t).log = sessionScript H t 0 runs := by
      intro t
      have hlog := hi.log_script t
      rwa [hscript, List.append_nil] at hlog
    right
    constructor
    · rw [hparty]
      exact ha
    · rw [hparty]
      exact ⟨msg, hmsg⟩
    · rw [hchan]
      exact hempty
    · rintro (_ | _)
      · rw [hparty]
        exact hlog .left
      · have hright := hlog .right
        rw [hp] at hright
        rw [hparty]
        exact hright

/-- Nothing moves any more. -/
theorem Gone.closed (h : Gone H runs c) : Closed D advance (· ≠ .running) c := by
  apply closed_of_through
  rintro (_ | _)
  · exact Or.inl ⟨_, h.parent⟩
  · obtain ⟨msg, hmsg⟩ := h.child
    exact Or.inr (Or.inl ⟨306, msg, hmsg⟩)

/-- **Run lemma.** -/
theorem Going.steps (hD : ¬ D.allocFails) (hgoing : Going D H runs c)
    (h : ClosingSteps D advance (· ≠ .running) c c') : Going D H runs c' ∨ Gone H runs c' := by
  induction h with
  | refl => exact Or.inl hgoing
  | tail _ hstep ih =>
    rcases ih with ih | ih
    · exact ih.step hD hstep
    · exact absurd hstep (ih.closed _)

/-- As long as no call has met a closed end, something can move: where nothing else can, the
    parent is over, and the child's read finds the stream used up. -/
theorem Going.not_closed {cap : Side → ℕ∞} (hcap : ∀ s, 6 ≤ cap s) {short : Prop}
    (hgoing : Going (sockets cap short False) H runs c) :
    ¬ Closed (sockets cap short False) advance (· ≠ .running) c := by
  obtain ⟨⟨script, hi⟩, -⟩ := hgoing
  intro hclosed
  have hdone := hi.stuck_done (localPlan_timely hcap short False) id hclosed.stuck
  rcases (hdone .left).2 with ⟨a, ha, -, rfl⟩ | ⟨site, n, k, -, hleft, -⟩
  · rcases (hdone .right).2 with ⟨a, -, hright, -⟩ | ⟨site, n, k, hp, -⟩
    · cases hright
    · have hempty : c.chan .left = [] := by
        have hflow := hi.flow .left
        rw [(hdone Side.left.other).1, (hdone .left).1] at hflow
        simpa [localPlan] using hflow
      have hfits := hi.fits .right
      rcases hright : c.party .right with ⟨prog, q, p, l⟩
      rw [hright] at hp hfits
      obtain rfl : prog = .io (.read site n) k := hp
      obtain rfl : q = 0 := hfits.1
      have hover : (c.party Side.right.other).Over (· ≠ .running) :=
        Or.inl ⟨_, ha, by decide⟩
      exact hclosed _ (Or.inr (.eof hover hright hempty))
  · cases hleft

/-- **The whole program.**  Whatever the times are that make the parent leave its loop, however
    the two processes interleave and however small the socket buffers are (six bytes are enough):
    when no step is possible any more, parent and child have gone through the same runs, those of
    the schedule, every byte sent has been received, the parent has raised `NameError`, and the
    child, which that leaves alone with the connection, has left with status 306. -/
theorem local_driver (H : Hosts) (cap : Side → ℕ∞) (hcap : ∀ s, 6 ≤ cap s) (short : Prop)
    (hleaves : Leaves times τ t₀ turns runs) (c : Config Pos Site Event PyEnd)
    (hc : ClosingSteps (sockets cap short False) advance (· ≠ .running)
      (localStart times τ t₀ turns H) c)
    (hclosed : Closed (sockets cap short False) advance (· ≠ .running) c) :
    (c.party .left).Returned (.raised "NameError: name 'sock' is not defined") ∧
      (∃ msg, (c.party .right).prog = .exit 306 msg) ∧ (∀ s, c.chan s = []) ∧
      (∀ s, announced (c.party s).log = runs.map fun r => (toUint32 r.size, toUint32 r.nrepeat)) ∧
      ∃ k, runs.map Run.size = tried (schedule k) := by
  have hstart : Going (sockets cap short False) H runs (localStart times τ t₀ turns H) :=
    ⟨⟨_, .start fun s => follows_party (controlled_sockets cap short False) H hleaves s⟩,
      leavesAt_receive turns _⟩
  rcases hstart.steps id hc with hgoing | hgone
  · exact absurd hclosed (hgoing.not_closed hcap)
  · refine ⟨hgone.parent, hgone.child, hgone.chan, ?_, hleaves.schedule⟩
    intro s
    rw [hgone.log]
    exact announced_sessionScript H s runs 0

/-- A run of a size and a repeat count the script comes to. -/
def localRun (size nrepeat : Int) (h : 1 ≤ size ∧ size < 2 ^ 31)
    (h' : 0 ≤ nrepeat ∧ nrepeat < 2 ^ 31) : Run :=
  ⟨size, nrepeat, h.1, h.2, h'.1, h'.2⟩

/-- The runs of one turn: the first size is run as often as the guess of 25 microseconds
    suggests. -/
def oneTurn : List Run :=
  [localRun 8 4000 (by decide) (by decide), localRun 16 3 (by decide) (by decide),
    localRun 24 3 (by decide) (by decide)].flatMap (List.replicate 3)

/-- Times that are long enough to stop after one turn, and sockets of six bytes. -/
theorem local_driver_oneTurn :
    ∃ c, ClosingSteps (sockets (fun _ => 6) False False) advance (· ≠ .running)
        (localStart (fun _ => (600000, 600000)) (micros 500000 100000) 25 10 littleHosts) c ∧
      (c.party .left).Returned (.raised "NameError: name 'sock' is not defined") ∧
      (∃ msg, (c.party .right).prog = .exit 306 msg) ∧
      announced (c.party .right).log = [(8, 4000), (8, 4000), (8, 4000), (16, 3), (16, 3), (16, 3),
        (24, 3), (24, 3), (24, 3)] := by
  obtain ⟨c, hc, hclosed⟩ : ∃ c, ClosingSteps (sockets (fun _ => 6) False False) advance
      (· ≠ .running)
      (localStart (fun _ => (600000, 600000)) (micros 500000 100000) 25 10 littleHosts) c ∧
        Closed (sockets (fun _ => 6) False False) advance (· ≠ .running) c := exists_closed _
  have hleaves : Leaves (fun _ => (600000, 600000)) (micros 500000 100000) 25 10 oneTurn :=
    ⟨⟨_, rfl, rfl⟩, by decide⟩
  obtain ⟨hparent, hchild, -, hruns, -⟩ := local_driver littleHosts (fun _ => 6)
    (fun _ => le_rfl) False hleaves c hc hclosed
  exact ⟨c, hc, hparent, hchild, hruns .right⟩

end main

end NetPipe.Tcp
