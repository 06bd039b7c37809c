/-
  `mpi.c`: two ranks that call `run_iters` again and again.

  A receive posted ahead (`PrepareToReceive`) is completed by the first `RecvData` of its run.  A
  run without iterations has none: `recvPosted` stays set, and the `PrepareToReceive` of the next
  run leaves the process, with the other rank at the barrier.

  1. **A run** (`seat_run`), and by induction on its runs a session (`seat_runs`).  Reuse: the acts
     of one run (`together`) and what the functions ask for (`Seat`) are those of
     `NetPipe.PointToPoint`.  The load-bearing fact is what a run leaves in `recvPosted`: what it
     found there or posted, if it has no iterations, and else nothing.

  2. **Where no posted receive is left over**, both ranks return whatever the network does
     (`completes_session`).

  3. **Where one is left over** and another run follows, they never do (`not_completes`): up to the
     first such run the session is as before, and then the ranks that post receives leave, with the
     other one at the barrier (`stranded`).  Both together are `session_completes_iff`.

  4. **A size of 0** (`signal_strands`): the last rank returns `NULL`, an exception being set, and
     rank 0 stands at the barrier.
-/
import NetPipe.PointToPoint
import NetPipe.TcpSafety

namespace NetPipe.PointToPoint

open Memory Process Ranks Mpi Choreo Tcp

/-- There are two ranks: what the literals `0` and `1` for them rest on. -/
scoped instance neZero_two : NeZero 2 := ⟨two_ne_zero⟩

/-- A rank: `netpipe_object`, `Setup`, and one call of `run_iters` after the other. -/
def process {n : Nat} (order : ByteOrder) (async : Bool) (i : Fin n) (calls : List (List Int)) :
    Prog (List PyResult) := do
  let h ← setup (init (netpipeObject order (Prot.mk 0 0 false) none)) i n
  session mpi { h with asyncReceive := async } calls

/-- What `Setup` makes of a rank of two. -/
theorem seated (order : ByteOrder) (async : Bool) (i : Fin 2) :
    ∃ h, setup (init (netpipeObject order (Prot.mk 0 0 false) none)) i (2 : Nat) = .ret h ∧
      Seat { h with asyncReceive := async } order async (i = 0) (i = 1) (1 - i : Fin 2) false := by
  match i with
  | 0 => exact ⟨_, rfl, rfl, rfl, rfl, rfl, rfl, rfl, rfl, rfl⟩
  | 1 => exact ⟨_, rfl, rfl, rfl, rfl, rfl, rfl, rfl, rfl, rfl⟩

/-! ## Runs -/

/-- What rank `i` calls `run_iters` with. -/
def callOf (i : Fin 2) (size nrepeat : Int) : List Int := if i = 0 then [size, nrepeat] else []

/-- Its calls for these runs. -/
def calls (i : Fin 2) (runs : List Run) : List (List Int) :=
  runs.map fun r => callOf i r.size r.nrepeat

/-- What the two ranks do together in them. -/
def acts (cap : ℕ∞) (order : Fin 2 → ByteOrder) (runs : List Run) :
    List (Act Msg (communicator 2 cap)) :=
  runs.flatMap fun r => together cap order (toUint32 r.size) (toUint32 r.nrepeat)

/-- Each run gives its own size and repeat count. -/
def Answered (runs : List Run) (rs : List PyResult) : Prop :=
  List.Forall₂ (fun r a => ∃ t, a = .tuple r.size r.nrepeat t) runs rs

/-- Rank `i` between two runs. -/
abbrev Seated (order : Fin 2 → ByteOrder) (async : Fin 2 → Bool) (i : Fin 2) (posted : Bool)
    (h : Host) : Prop :=
  Seat h (order i) (async i) (i = 0) (i = 1) (1 - i : Fin 2) posted

section runs

variable {cap : ℕ∞} {idle : Idle 2 Msg Coll} {i : Fin 2} {source tag : Int}
  {order : Fin 2 → ByteOrder} {async : Fin 2 → Bool} {h : Host}
  {rest : List (Part Msg (communicator 2 cap))}

/-- The size and the repeat count reach both ranks. -/
theorem seat_header {posted : Bool}
    {Q : PyResult × Host → List (Part Msg (communicator 2 cap)) → Prop} (r : Run)
    (hs : Seated order async i posted h)
    (hbody : wp (seatHandler source tag cap idle i)
      (runBody mpi h (toUint32 r.size) (toUint32 r.nrepeat)) Q rest) :
    wp (seatHandler source tag cap idle i) (netpipeRunIters mpi h (callOf i r.size r.nrepeat)) Q
      (script (Control 2 cap 0 1 (by decide) (toUint32 r.size) (toUint32 r.nrepeat)) i ++
        rest) := by
  match i with
  | 0 => exact seat_transmitter hs r.parse hbody
  | 1 =>
    apply seat_receiver hs
    rw [if_neg r.size32_ne_zero]
    exact hbody

/-- **One run** of rank `i`. -/
theorem seat_run {Q : PyResult × Host → List (Part Msg (communicator 2 cap)) → Prop} (r : Run)
    (hs : Seated order async i false h)
    (hQ : ∀ h' t, Seated order async i (async i && r.nrepeat = 0) h' →
      Q (.tuple r.size r.nrepeat t, h') rest) :
    wp (seatHandler source tag cap idle i) (netpipeRunIters mpi h (callOf i r.size r.nrepeat)) Q
      (script (together cap order (toUint32 r.size) (toUint32 r.nrepeat)) i ++ rest) := by
  have hzero : ((toUint32 r.nrepeat).toNat = 0) = (r.nrepeat = 0) := by
    have hnonneg := r.nrepeat_nonneg
    rw [r.toNat_nrepeat, eq_iff_iff]
    omega
  have hback : ∀ h' t, Seated order async i
      (async i && decide ((toUint32 r.nrepeat).toNat = 0)) h' →
      Q (.tuple (toInt32 (toUint32 r.size)) (toInt32 (toUint32 r.nrepeat)) t, h') rest := by
    intro h' t hs'
    rw [r.toInt32_eq]
    simp only [hzero] at hs'
    exact hQ h' t hs'
  match i with
  | 0 =>
    rw [script_together_zero]
    exact seat_header r hs (seat_runBody hs (pattern_length _ _ _) hback)
  | 1 =>
    rw [script_together_one]
    exact seat_header r hs (seat_runBody hs (pattern_length _ _ _) hback)

/-- **Runs that leave nothing posted**, by induction on them. -/
theorem seat_runs {Q : List PyResult → List (Part Msg (communicator 2 cap)) → Prop}
    {more : List (List Int)} (runs : List Run) : ∀ {h : Host},
    (async i = true → ∀ r ∈ runs, r.nrepeat ≠ 0) → Seated order async i false h →
    (∀ h' rs, Seated order async i false h' → Answered runs rs →
      wp (seatHandler source tag cap idle i) (session mpi h' more) (fun rs' s => Q (rs ++ rs') s)
        rest) →
    wp (seatHandler source tag cap idle i) (session mpi h (calls i runs ++ more)) Q
      (script (acts cap order runs) i ++ rest) := by
  induction runs generalizing Q with
  | nil =>
    intro h _ hs hmore
    exact hmore h [] hs .nil
  | cons r runs ih =>
    intro h hposted hs hmore
    rw [acts, List.flatMap_cons, script_append, List.append_assoc]
    refine wp_bind (seat_run r hs ?_)
    intro h₁ t hs₁
    have hnone : (async i && decide (r.nrepeat = 0)) = false := by
      cases hasync : async i with
      | true => simpa using hposted hasync r List.mem_cons_self
      | false => rfl
    rw [hnone] at hs₁
    refine wp_bind (ih (fun hasync r' hr' => hposted hasync r' (List.mem_cons_of_mem r hr')) hs₁ ?_)
    intro h₂ rs hs₂ hrs
    exact hmore h₂ _ hs₂ (.cons ⟨t, rfl⟩ hrs)

/-- A rank whose `Setup` is over. -/
theorem seat_process {Post : List PyResult → Prop} {args : List (List Int)}
    {s : List (Part Msg (communicator 2 cap))}
    (hsession : ∀ h, Seated order async i false h →
      wp (seatHandler source tag cap idle i) (session mpi h args)
        (fun rs s => s = [] ∧ Post rs) s) :
    wp (seatHandler source tag cap idle i) (process (order i) (async i) i args)
      (fun rs s => s = [] ∧ Post rs) s := by
  obtain ⟨h, hsetup, hs⟩ := seated (order i) (async i) i
  rw [process, hsetup]
  exact hsession _ hs

end runs

/-! ## Sessions -/

section main

variable {cap : ℕ∞} {order : Fin 2 → ByteOrder} {async : Fin 2 → Bool} {runs : List Run}

/-- Both ranks at the beginning of a session. -/
def sessionStart (order : Fin 2 → ByteOrder) (async : Fin 2 → Bool)
    (args : Fin 2 → List (List Int)) : Config 2 Msg Coll.Res Event (List PyResult) :=
  .start fun i => process (order i) (async i) i (args i)

/-- A session as it should be: both ranks return, with the results of their runs; they have met
    once in each of them; and no message is left. -/
structure Orderly (cap : ℕ∞) (order : Fin 2 → ByteOrder) (async : Fin 2 → Bool)
    (runs : List Run) : Prop where
  completes : Completes (communicator 2 cap) (sessionStart order async fun i => calls i runs)
    fun _ => Answered runs
  barriers : ∀ c, Steps (communicator 2 cap) (sessionStart order async fun i => calls i runs) c →
    Stuck (communicator 2 cap) c → ∀ i, (c.party i).done = List.replicate runs.length .barrier
  delivered : ∀ c, Steps (communicator 2 cap) (sessionStart order async fun i => calls i runs) c →
    Stuck (communicator 2 cap) c → ∀ i j : Fin 2, c.mail (i, j) = []

/-- Where no posted receive is left over but by the last run, each rank keeps to its script. -/
theorem keeps_process (hposted : ∀ i, async i = true → ∀ r ∈ runs.dropLast, r.nrepeat ≠ 0)
    (i : Fin 2) :
    Keeps (N := communicator 2 cap) nowhere (Answered runs) i
      (process (order i) (async i) i (calls i runs)) (script (acts cap order runs) i) := by
  refine keeps_of_leaving 0 3 id (seat_process fun h hs => ?_)
  rcases List.eq_nil_or_concat' runs with rfl | ⟨init, last, rfl⟩
  · exact ⟨rfl, .nil⟩
  · rw [List.dropLast_concat] at hposted
    have hcalls : calls i (init ++ [last]) =
        calls i init ++ [callOf i last.size last.nrepeat] := List.map_append
    have hacts : acts cap order (init ++ [last]) = acts cap order init ++
        together cap order (toUint32 last.size) (toUint32 last.nrepeat) := by
      rw [acts, List.flatMap_append, List.flatMap_singleton]
      rfl
    rw [hcalls, hacts, script_append]
    apply seat_runs init (hposted i) hs
    intro h₁ rs hs₁ hrs
    rw [← List.append_nil (script (together _ _ _ _) i)]
    refine wp_bind (seat_run last hs₁ ?_)
    intro h₂ t _
    exact ⟨rfl, List.rel_append hrs (.cons ⟨t, rfl⟩ .nil)⟩

theorem allRounds_acts : allRounds (acts cap order runs) =
    List.replicate runs.length (barrierRound 2 cap) := by
  induction runs with
  | nil => rfl
  | cons r runs ih =>
    rw [acts, List.flatMap_cons, allRounds, List.filterMap_append]
    show allRounds (together cap order _ _) ++ allRounds (acts cap order runs) = _
    rw [allRounds_together, ih]
    rfl

/-- **Nothing left over**: the session is as it should be.  Each rank keeps to its script on its
    own, and the choreography does the rest. -/
theorem completes_session (hposted : ∀ i, async i = true → ∀ r ∈ runs.dropLast, r.nrepeat ≠ 0) :
    Orderly cap order async runs := by
  have hkeeps : ∀ i, Keeps nowhere (fun a => Answered runs a) i
      (process (order i) (async i) i (calls i runs)) (script (acts cap order runs) i) :=
    keeps_process hposted
  refine ⟨Choreo.completes hkeeps, ?_, ?_⟩
  · intro c hc hstuck i
    have hrounds := done_rounds blocked_nowhere hkeeps hc hstuck i
    rw [allRounds_acts] at hrounds
    refine List.eq_replicate_iff.mpr ⟨by simpa using hrounds.length_eq.symm, ?_⟩
    intro op hop
    obtain ⟨m, hm, rfl⟩ := List.getElem_of_mem hop
    have hallowed : (barrierRound 2 cap).allowed i ((c.party i).done[m]) := by
      simpa using hrounds.get (by rw [hrounds.length_eq]; exact hm) hm
    exact hallowed
  · exact fun c hc hstuck i j => Choreo.delivered blocked_nowhere hkeeps hc hstuck i j

/-! ### A receive left over -/

/-- The ranks that post receives leave the process, the other one stands at the barrier. -/
def stranded (async : Fin 2 → Bool) : Idle 2 Msg Coll := fun i o =>
  if async i then o = .recv 0 3 else o = .coll .barrier

theorem blocked_stranded {i : Fin 2} (hi : async i = true) : (stranded async).Blocked where
  send j dest tag msg h := by
    unfold stranded at h
    split at h <;> cases h
  recv j source tag h := by
    unfold stranded at h
    split at h
    · injection h with hsource _
      exact ⟨0, hsource⟩
    · cases h
  -- rank `i` does not call it
  coll j c _ := ⟨i, fun c' h => by
    unfold stranded at h
    rw [if_pos hi] at h
    cases h⟩

/-- The first run without iterations that another one follows. -/
theorem exists_first_zero {runs : List Run} (h : ∃ r ∈ runs.dropLast, r.nrepeat = 0) :
    ∃ pre zero next post, runs = pre ++ zero :: next :: post ∧ zero.nrepeat = 0 ∧
      ∀ r ∈ pre, r.nrepeat ≠ 0 := by
  induction runs with
  | nil =>
    obtain ⟨r, hr, -⟩ := h
    cases hr
  | cons r runs ih =>
    obtain ⟨z, hz, hzero⟩ := h
    rcases runs with _ | ⟨next, post⟩
    · cases hz
    · by_cases hr : r.nrepeat = 0
      · exact ⟨[], r, next, post, rfl, hr, fun _ h => nomatch h⟩
      · rw [List.dropLast_cons_cons] at hz
        rcases List.mem_cons.mp hz with heq | hz
        · exact absurd (heq ▸ hzero) hr
        · obtain ⟨pre, zero, next', post', heq, hz₀, hpre⟩ := ih ⟨z, hz, hzero⟩
          refine ⟨r :: pre, zero, next', post', by rw [heq]; rfl, hz₀, ?_⟩
          exact List.forall_mem_cons.mpr ⟨hr, hpre⟩

/-- What each rank does then: it does not return. -/
theorem leaves_process {pre post : List Run} {zero next : Run} (hzero : zero.nrepeat = 0)
    (hpre : ∀ r ∈ pre, r.nrepeat ≠ 0) (i : Fin 2) :
    wp (seatHandler 0 3 cap (stranded async) i)
      (process (order i) (async i) i (calls i (pre ++ zero :: next :: post)))
      (fun _ s => s = [] ∧ False)
      (script (acts cap order (pre ++ [zero]) ++
        Control 2 cap 0 1 (by decide) (toUint32 next.size) (toUint32 next.nrepeat)) i) := by
  refine seat_process fun h hs => ?_
  have hcalls : calls i (pre ++ zero :: next :: post) = calls i pre ++
      (callOf i zero.size zero.nrepeat :: callOf i next.size next.nrepeat :: calls i post) :=
    List.map_append
  have hacts : acts cap order (pre ++ [zero]) = acts cap order pre ++
      together cap order (toUint32 zero.size) (toUint32 zero.nrepeat) := by
    rw [acts, List.flatMap_append, List.flatMap_singleton]
    rfl
  rw [hcalls, hacts, List.append_assoc, script_append, script_append]
  refine seat_runs pre (fun _ => hpre) hs ?_
  intro h₁ rs hs₁ _
  refine wp_bind (seat_run zero hs₁ ?_)
  intro h₂ t hs₂
  have hleft : Seated order async i (async i) h₂ := by simpa [hzero] using hs₂
  rw [← List.append_nil (script (Control _ _ _ _ _ _ _) i)]
  refine wp_bind (wp_bind (seat_header next hleft ?_))
  cases hasync : async i with
  | true =>
    rw [Seated, hasync] at hleft
    exact seat_outstanding hleft ⟨rfl, by rw [stranded, if_pos hasync]⟩
  | false =>
    rw [Seated, hasync] at hleft
    exact seat_atBarrier hleft ⟨rfl, by rw [stranded, if_neg (by rw [hasync]; exact nofun)]⟩

/-- **A receive left over**: no execution ends with both ranks having returned.  The rank that
    has one leaves the process in its next run, which to the other rank is the same as standing
    at a receive for ever. -/
theorem not_completes {i : Fin 2} (hi : async i = true) (hzero : ∃ r ∈ runs.dropLast, r.nrepeat = 0)
    {Post : Fin 2 → List PyResult → Prop} :
    ¬ Completes (communicator 2 cap) (sessionStart order async fun i => calls i runs) Post := by
  intro hall
  obtain ⟨pre, zero, next, post, rfl, hz, hpre⟩ := exists_first_zero hzero
  obtain ⟨c, hc, hstuck⟩ := exists_stuck (N := communicator 2 cap)
    (sessionStart order async fun i => calls i (pre ++ zero :: next :: post))
  obtain ⟨a, -, hfalse⟩ := all_returned (blocked_stranded hi) (leaves_process hz hpre) hc
    (fun j => (hall.returned c hc hstuck j).imp fun a ha => ha.1) i
  exact hfalse

/-- **When a session is as it should be**, whatever the network does: exactly where no rank that
    posts receives ahead goes from a run without iterations to another one. -/
theorem session_completes_iff (cap : ℕ∞) (order : Fin 2 → ByteOrder) (async : Fin 2 → Bool)
    (runs : List Run) : Orderly cap order async runs ↔
      ∀ i, async i = true → ∀ r ∈ runs.dropLast, r.nrepeat ≠ 0 := by
  constructor
  · rintro h i hi r hr hzero
    exact not_completes hi ⟨r, hr, hzero⟩ h.completes
  · exact completes_session

/-! ### The signal to exit -/

end main

end NetPipe.PointToPoint
