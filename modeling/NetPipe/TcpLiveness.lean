/-
  What a TCP session is bound to come to.

  1. **Completion** (`session_completes`).  With room for six bytes in either direction a session
     of accepted calls completes, however long the messages: the ranks of `NetPipe.TcpOrder`
     exclude every circular wait, and the streams are wide enough for the one exchange in which
     both sides write first.

  2. **Refused arguments** (`session_incomplete_of_refused`).  The transmitter has an exception and
     sends nothing; the receiver waits for a header.  These are the calls that completion has to
     leave out.

  3. **The exit signal** (`zero_signal_strands`, `zero_signal_incomplete`).  A size of 0 does not
     complete: the receiver looks at it and returns, the transmitter does not and waits in `Sync`.
     Both are read off the plan of the session with this ending, behind any runs; where exactly the
     two sides end takes room for six bytes, and that they do not both return takes none.
-/
import NetPipe.TcpSafety

namespace NetPipe.Tcp

open Memory Process Duplex

/-! ## Completion -/

/-- **No deadlock**: sockets of six bytes are enough for messages of any length.  The plan of
    the session is in order by `timely`, so a configuration without a step is one in which both
    have returned. -/
theorem session_completes (H : Hosts) (cap : Side → ℕ∞) (hcap : ∀ s, 6 ≤ cap s) (short : Prop)
    (runs : List Run) :
    Completes (sockets cap short False) advance (sessionStart H (runs.map Run.call))
      fun _ => List.Forall₂ Timed (runs.map Run.call) := by
  refine .of_stuck ?_
  intro c hc hstuck s
  obtain ⟨script, hi⟩ := session_inv (controlled_sockets cap short False) hc
  rcases (hi.stuck_done (timely hcap) id hstuck s).2 with ha | ⟨site, n, k, -, hw⟩
  · exact ha
  · cases s <;> exact hw.elim

/-- A message of a thousand bytes, through sockets of six. -/
theorem session_completes_long :
    Completes (sockets (fun _ => 6) False False) advance
      (sessionStart littleHosts [(8000, 3)]) fun _ => List.Forall₂ Timed [(8000, 3)] :=
  session_completes littleHosts (fun _ => 6) (fun _ => le_rfl) False
    [⟨8000, 3, by decide, by decide, by decide, by decide⟩]

/-! ## Sessions that do not end well -/

section endings

variable {H : Hosts} {runs : List Run} {D : Discipline Site} {call : Int × Int}
  {c : Config Pos Site Event (List PyResult)}

/-- The transmitter of a session that ends with the exit signal never returns. -/
theorem left_waits_of_zero (hD : Controlled D) {k : UInt32}
    (hcall : pyArgParseTuple [call.1, call.2] = some (0, k))
    (hc : Steps D advance (sessionStart H (runs.map Run.call ++ [call])) c) :
    ¬ ∃ a, (c.party .left).Returned a := by
  obtain ⟨script, hi⟩ := (Inv.start (follows_zero hD H runs hcall)).steps hc
  rintro ⟨a, ha⟩
  exact absurd (hi.returned ha).2.1 (by decide)

/-- The receiver of a session that ends with a refused call never returns. -/
theorem right_waits_of_refused (hD : Controlled D)
    (hcall : pyArgParseTuple [call.1, call.2] = none)
    (hc : Steps D advance (sessionStart H (runs.map Run.call ++ [call])) c) :
    ¬ ∃ a, (c.party .right).Returned a := by
  obtain ⟨script, hi⟩ := (Inv.start (follows_refused hD H runs hcall)).steps hc
  rintro ⟨a, ha⟩
  exact absurd (hi.returned ha).2.1 (by decide)

end endings

/-- A refused call alone leaves the receiver waiting for a header. -/
theorem session_incomplete_of_refused :
    ¬ Completes (sockets (fun _ => 6) False False) advance
      (sessionStart littleHosts [(2 ^ 31, 1)]) fun _ => List.Forall₂ Timed [(2 ^ 31, 1)] := by
  intro h
  obtain ⟨c, hc, hstuck⟩ : ∃ c, Steps (sockets (fun _ => 6) False False) advance
      (sessionStart littleHosts [(2 ^ 31, 1)]) c ∧
        Stuck (sockets (fun _ => 6) False False) advance c := exists_stuck _
  obtain ⟨a, ha, -⟩ := h.returned c hc hstuck .right
  have hwaits := @right_waits_of_refused littleHosts [] (sockets (fun _ => 6) False False)
    (2 ^ 31, 1) c (controlled_sockets _ _ _) (by decide) hc
  exact hwaits ⟨a, ha⟩

/-! ## The exit signal -/

/-- Where the exit signal leads, with room in the sockets: the receiver has returned `NULL`, an
    exception being set, and the transmitter sits in `Sync`. -/
theorem zero_signal_strands (H : Hosts) (cap : Side → ℕ∞) (hcap : ∀ s, 6 ≤ cap s) (short : Prop)
    (runs : List Run) {k : Int} (hk : intArg k ≠ none)
    (c : Config Pos Site Event (List PyResult))
    (hc : Steps (sockets cap short False) advance
      (sessionStart H (runs.map Run.call ++ [(0, k)])) c)
    (hstuck : Stuck (sockets cap short False) advance c) :
    (c.party .left).Waiting (· = ⟨⟨runs.length, 0⟩, .sync⟩) ∧
      ∃ as, (c.party .right).Returned (as ++ [.null]) ∧
        List.Forall₂ Timed (runs.map Run.call) as := by
  obtain ⟨k', hk'⟩ := Option.ne_none_iff_exists'.mp hk
  have hcall : pyArgParseTuple [0, k] = some (0, k') := by
    simp only [pyArgParseTuple, hk']
    rfl
  obtain ⟨script, hi⟩ :=
    (Inv.start (follows_zero (controlled_sockets cap short False) H runs hcall)).steps hc
  have hdone := hi.stuck_done (timely hcap) id hstuck
  constructor
  · rcases (hdone .left).2 with ⟨a, -, ha, -⟩ | hw
    · exact absurd ha (by decide)
    · exact hw
  · rcases (hdone .right).2 with ⟨a, ha, -, as, has, rfl⟩ | ⟨site, n, f, -, hw⟩
    · exact ⟨as, ha, has⟩
    · exact hw.elim

/-- **The exit signal never ends the call on both sides**, whatever runs came before it and
    whatever repeat count goes with it. -/
theorem zero_signal_incomplete (H : Hosts) (cap : Side → ℕ∞) (short : Prop) (runs : List Run)
    (k : Int) :
    ¬ ∀ c, Steps (sockets cap short False) advance
      (sessionStart H (runs.map Run.call ++ [(0, k)])) c →
        Stuck (sockets cap short False) advance c → ∀ s, ∃ a, (c.party s).Returned a := by
  intro h
  obtain ⟨c, hc, hstuck⟩ : ∃ c, Steps (sockets cap short False) advance
      (sessionStart H (runs.map Run.call ++ [(0, k)])) c ∧
        Stuck (sockets cap short False) advance c := exists_stuck _
  cases hk : pyArgParseTuple [0, k] with
  | none => exact right_waits_of_refused (controlled_sockets _ _ _) hk hc (h c hc hstuck .right)
  | some args =>
    obtain ⟨size, k'⟩ := args
    have hsize : size = 0 := by
      simp only [pyArgParseTuple, Option.bind_eq_some_iff, Option.map_eq_some_iff] at hk
      obtain ⟨a, ha, b, -, hab⟩ := hk
      cases hab
      exact (Option.some.inj ha).symm
    subst hsize
    exact left_waits_of_zero (controlled_sockets _ _ _) hk hc (h c hc hstuck .left)

/-- The signal `run_iters(0, 0)` right at the start. -/
theorem zero_signal_incomplete_at_start :
    ¬ ∀ c, Steps (sockets (fun _ => ⊤) False False) advance (sessionStart littleHosts [(0, 0)]) c →
      Stuck (sockets (fun _ => ⊤) False False) advance c → ∀ s, ∃ a, (c.party s).Returned a := by
  intro h
  obtain ⟨c, hc, hstuck⟩ : ∃ c, Steps (sockets (fun _ => ⊤) False False) advance
      (sessionStart littleHosts [(0, 0)]) c ∧
        Stuck (sockets (fun _ => ⊤) False False) advance c := exists_stuck _
  have hwaits := @left_waits_of_zero littleHosts [] (sockets (fun _ => ⊤) False False)
    (0, 0) c (controlled_sockets _ _ _) 0 (by decide) hc
  exact hwaits (h c hc hstuck .left)

end NetPipe.Tcp
