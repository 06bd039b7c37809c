/-
  The two scripts of a TCP session fit together.

  1. **The bytes on the wire** (`wire`).  What one side puts is what the other gets
     (`puts_runScript`, `gots_runScript`), run by run and, in the loop, iteration by iteration; the
     acts that move no byte drop out.  So the scripts make a `Plan`.

  2. **Endings.**  A session may end behind its runs in one of the ways of `Ending`: with nothing
     more, with the exit signal, or with arguments that are refused.  The plan has what is left of
     it: a string nobody will read, and a read that waits for ever.

  3. **The programs follow the plan** (`follows_session`), given how each side goes on behind its
     runs; one lemma for each ending (`follows_done`, `follows_zero`, `follows_refused`).

  The order of these plans is the business of `NetPipe.TcpOrder`.
-/
import NetPipe.Lib.Span
import NetPipe.TcpSession

namespace NetPipe.Tcp

open Memory Process Duplex

/-! ## The bytes on the wire -/

/-- The bytes `s` sends in a run. -/
def wire (H : Hosts) (s : Side) (i : Nat) (size nrepeat : UInt32) : List (Cell Pos Site) :=
  (if s = .left then stamped ⟨⟨i, 0⟩, .rpt⟩ (toBytes .big size) ++
      stamped ⟨⟨i, 0⟩, .rpt⟩ (toBytes .big nrepeat) else []) ++
    (stamped ⟨⟨i, 0⟩, .sync⟩ syncMe ++ (List.range' 0 nrepeat.toNat).flatMap fun j =>
      stamped ⟨⟨i, j⟩, .data⟩ (H.payload s (nbytes size)))

@[simp] theorem puts_did (p : Pos) (e : Event) (l : List TcpAct) :
    puts (.did p e :: l) = puts l := rfl

@[simp] theorem gots_did (p : Pos) (e : Event) (l : List TcpAct) :
    gots (.did p e :: l) = gots l := rfl

/-- Marks and reports move no byte. -/
theorem puts_quiet {l : List TcpAct} (h : ∀ a ∈ l, ∃ p e, a = .did p e) :
    puts l = [] ∧ gots l = [] := by
  induction l with
  | nil => exact ⟨rfl, rfl⟩
  | cons a l ih =>
    obtain ⟨p, e, rfl⟩ := h a List.mem_cons_self
    exact ih fun b hb => h b (List.mem_cons_of_mem _ hb)

theorem prepScript_quiet {async : Bool} {p : Pos} {size nrepeat : UInt32} :
    ∀ a ∈ prepScript async p size nrepeat, ∃ q e, a = .did q e := by
  cases async <;> simp [prepScript, did]

theorem closeScript_quiet {p : Pos} {ms : List Mismatch} :
    ∀ a ∈ closeScript p ms, ∃ q e, a = .did q e := by
  intro a ha
  simp only [closeScript, List.mem_cons, List.mem_append, List.mem_map, List.not_mem_nil,
    or_false] at ha
  rcases ha with rfl | ⟨m, -, rfl⟩ | rfl <;> exact ⟨_, _, rfl⟩

theorem puts_loopScript (s : Side) (i : Nat) (own peer : List UInt8) (j k : Nat) :
    puts (loopScript s i own peer j k) =
      (List.range' j k).flatMap fun j => stamped ⟨⟨i, j⟩, .data⟩ own := by
  unfold loopScript
  induction List.range' j k with
  | nil => rfl
  | cons j js ih =>
    rw [List.flatMap_cons, List.flatMap_cons, puts_append, ih]
    cases s <;> simp [iterScript, sendScript, recvScript, did]

theorem gots_loopScript (s : Side) (i : Nat) (own peer : List UInt8) (j k : Nat) :
    gots (loopScript s i own peer j k) =
      (List.range' j k).flatMap fun j => stamped ⟨⟨i, j⟩, .data⟩ peer := by
  unfold loopScript
  induction List.range' j k with
  | nil => rfl
  | cons j js ih =>
    rw [List.flatMap_cons, List.flatMap_cons, gots_append, ih]
    cases s <;> simp [iterScript, sendScript, recvScript, did]

/-- The bytes `s` sends in a run, if all its messages are `own`. -/
def exchangeWire (s : Side) (i : Nat) (size nrepeat : UInt32) (own : List UInt8) :
    List (Cell Pos Site) :=
  (if s = .left then stamped ⟨⟨i, 0⟩, .rpt⟩ (toBytes .big size) ++
      stamped ⟨⟨i, 0⟩, .rpt⟩ (toBytes .big nrepeat) else []) ++
    (stamped ⟨⟨i, 0⟩, .sync⟩ syncMe ++ (List.range' 0 nrepeat.toNat).flatMap fun j =>
      stamped ⟨⟨i, j⟩, .data⟩ own)

theorem wire_eq (H : Hosts) (s : Side) (i : Nat) (size nrepeat : UInt32) :
    wire H s i size nrepeat = exchangeWire s i size nrepeat (H.payload s (nbytes size)) := rfl

section exchange

variable (async : Bool) (s : Side) (i : Nat) (size nrepeat : UInt32) (own peer : List UInt8)
  (ms : List Mismatch)

/-- What `s` puts in a run. -/
theorem puts_exchangeScript :
    puts (exchangeScript async s i size nrepeat own peer ms) =
      exchangeWire s i size nrepeat own := by
  simp only [exchangeScript, puts_append, syncScript, did, puts_did, puts_loopScript,
    (puts_quiet prepScript_quiet).1, (puts_quiet closeScript_quiet).1, exchangeWire]
  cases s <;> simp [headScript]

/-- What `s` gets in a run is what the other side puts. -/
theorem gots_exchangeScript :
    gots (exchangeScript async s i size nrepeat own peer ms) =
      exchangeWire s.other i size nrepeat peer := by
  simp only [exchangeScript, gots_append, syncScript, did, gots_did, gots_loopScript,
    (puts_quiet prepScript_quiet).2, (puts_quiet closeScript_quiet).2, exchangeWire]
  cases s <;> simp [headScript, Side.other]

end exchange

theorem puts_runScript (H : Hosts) (s : Side) (i : Nat) (r : Run) :
    puts (runScript H s i r) = wire H s i (toUint32 r.size) (toUint32 r.nrepeat) := by
  rw [runScript_eq, puts_exchangeScript, wire_eq]

theorem gots_runScript (H : Hosts) (s : Side) (i : Nat) (r : Run) :
    gots (runScript H s i r) = wire H s.other i (toUint32 r.size) (toUint32 r.nrepeat) := by
  rw [runScript_eq, gots_exchangeScript, wire_eq]

/-- **Balance** of a session, by induction on its runs: what the one side puts in a run is what
    the other gets in it. -/
theorem puts_sessionScript (H : Hosts) (s : Side) (runs : List Run) :
    ∀ i, puts (sessionScript H s i runs) = gots (sessionScript H s.other i runs) := by
  induction runs with
  | nil => exact fun i => rfl
  | cons r runs ih =>
    intro i
    rw [sessionScript, sessionScript, puts_append, gots_append, puts_runScript, gots_runScript,
      Side.other_other, ih]

/-! ## Endings -/

/-- What comes behind the runs of a session.  The three are told apart by what they leave over: a
    string in the stream, a read that waits, or nothing. -/
inductive Ending where
  /-- Nothing. -/
  | done
  /-- `run_iters(0, nrepeat)` against `run_iters()`. -/
  | zero (nrepeat : UInt32)
  /-- `run_iters` with arguments the parser refuses against `run_iters()`. -/
  | refused

/-- What the ending adds to the scripts, as the `i`-th run. -/
def Ending.script (H : Hosts) (i : Nat) : Ending → Side → List TcpAct
  | .zero k, .left => headScript .left ⟨i, 0⟩ 0 k ++
      (prepScript (H.asyncReceive .left) ⟨i, 0⟩ 0 k ++ putMsg ⟨⟨i, 0⟩, .sync⟩ syncMe)
  | .zero k, .right => headScript .right ⟨i, 0⟩ 0 k ++ [did ⟨i, 0⟩ .returned]
  | .refused, .left => [did ⟨i, 0⟩ .returned]
  | _, _ => []

/-- What nobody will read. -/
def Ending.tail (i : Nat) : Ending → Side → List (Cell Pos Site)
  | .zero _, .left => stamped ⟨⟨i, 0⟩, .sync⟩ syncMe
  | _, _ => []

/-- Who waits for ever, and where. -/
def Ending.waits (i : Nat) : Ending → Side → Stamp Pos Site → Prop
  | .zero _, .left, st => st = ⟨⟨i, 0⟩, .sync⟩
  | .refused, .right, st => st = ⟨⟨i, 0⟩, .rpt⟩
  | _, _, _ => False

/-- The plan of a session. -/
def sessionPlan (H : Hosts) (runs : List Run) (e : Ending) : Plan Pos Site Event where
  full s := sessionScript H s 0 runs ++ e.script H runs.length s
  tail := e.tail runs.length
  waits := e.waits runs.length
  balanced s := by
    rw [puts_append, gots_append, puts_sessionScript, List.append_assoc]
    congr 1
    cases e with
    | done => rfl
    | refused => cases s <;> rfl
    | zero k =>
      cases s with
      | left => simp [Ending.script, Ending.tail, headScript, Side.other,
          (puts_quiet prepScript_quiet).1, did]
      | right => simp [Ending.script, Ending.tail, headScript, Side.other,
          (puts_quiet prepScript_quiet).2, did]
  waits_tail s st h := by
    cases e <;> cases s <;> first | rfl | exact absurd h id

/-! ## The programs follow the plan -/

section follows

variable {D : Discipline Site} (hD : Controlled D) (H : Hosts) (runs : List Run)

include hD

/-- A session follows its plan when the calls behind its runs follow the ending. -/
theorem follows_session (e : Ending) (s : Side) {more : List (Int × Int)}
    {Post : List PyResult → Prop}
    (hmore : ∀ h as, h.settings = (H.host s).settings → List.Forall₂ Timed (runs.map Run.call) as →
      wp (scriptHandler D advance (e.waits runs.length s)) (session tcp h (more.map (pyargs s)))
        (fun bs st => st.2 = [] ∧ Post (as ++ bs)) (⟨runs.length, 0⟩,
          e.script H runs.length s)) :
    Follows D advance ((sessionPlan H runs e).waits s) Post
      (session tcp (H.host s) ((runs.map Run.call ++ more).map (pyargs s)))
      (⟨0, 0⟩, (sessionPlan H runs e).full s) := by
  rw [List.map_append, List.map_map]
  refine script_session hD H runs 0 (H.host s) _ rfl ?_
  intro h as hset has
  rw [Nat.zero_add]
  exact hmore h as hset has

/-- Runs and nothing else: each gives its result. -/
theorem follows_done (s : Side) :
    Follows D advance ((sessionPlan H runs .done).waits s) (List.Forall₂ Timed (runs.map Run.call))
      (session tcp (H.host s) ((runs.map Run.call).map (pyargs s)))
      (⟨0, 0⟩, (sessionPlan H runs .done).full s) := by
  rw [← List.append_nil (runs.map Run.call)]
  refine follows_session hD H runs .done s ?_
  intro h as _ has
  rw [List.append_nil]
  exact ⟨rfl, (List.append_nil as).symm ▸ has⟩

/-- `Sync` with nobody across: the string is put, and the read waits. -/
theorem script_sync_waits {waits : Stamp Pos Site → Prop} {p : Pos} (hw : waits ⟨p, .sync⟩)
    {h : Host} {Q : Host → Pos × List TcpAct → Prop} :
    wp (scriptHandler D advance waits) (sync h) Q (p, putMsg ⟨p, .sync⟩ syncMe) := by
  rw [← List.append_nil (putMsg _ _)]
  refine script_write hD (by decide) (wp_bind ?_)
  rw [readFully, readFully.loop, dif_pos (by decide)]
  exact Or.inl ⟨rfl, hw⟩

omit hD in
/-- `RecvRepeat` with nobody across. -/
theorem script_recvRepeat_waits {waits : Stamp Pos Site → Prop} {p : Pos} (hw : waits ⟨p, .rpt⟩)
    {h : Host} {Q : UInt32 × Host → Pos × List TcpAct → Prop} :
    wp (scriptHandler D advance waits) (recvRepeat h) Q (p, []) := by
  apply wp_bind
  rw [readFully, readFully.loop, dif_pos (by decide)]
  exact Or.inl ⟨rfl, hw⟩

/-- The exit signal: the receiver returns with an exception set, the transmitter sits in `Sync` for
    ever. -/
theorem follows_zero {call : Int × Int} {k : UInt32}
    (hargs : pyArgParseTuple [call.1, call.2] = some (0, k)) (s : Side) :
    Follows D advance ((sessionPlan H runs (.zero k)).waits s)
      (fun bs => s = .right ∧ ∃ as, List.Forall₂ Timed (runs.map Run.call) as ∧ bs = as ++ [.null])
      (session tcp (H.host s) ((runs.map Run.call ++ [call]).map (pyargs s)))
      (⟨0, 0⟩, (sessionPlan H runs (.zero k)).full s) := by
  refine follows_session hD H runs (.zero k) s ?_
  intro h as hset has
  cases s with
  | left =>
    have hasync : h.asyncReceive = H.asyncReceive .left := congrArg Settings.asyncReceive hset
    refine wp_bind (script_transmit hD (congrArg Settings.tr hset) hargs ?_)
    rw [← hasync]
    exact script_prep (congrArg Settings.cache hset) fun h' _ _ =>
      script_sync_waits hD (by exact rfl)
  | right =>
    refine wp_bind (script_receive (congrArg Settings.rcv hset) ?_)
    exact ⟨_, rfl, rfl, rfl, as, has, rfl⟩

/-- Refused arguments: the transmitter returns `NULL`, the receiver waits for a header. -/
theorem follows_refused {call : Int × Int}
    (hargs : pyArgParseTuple [call.1, call.2] = none) (s : Side) :
    Follows D advance ((sessionPlan H runs .refused).waits s)
      (fun bs => s = .left ∧ ∃ as, List.Forall₂ Timed (runs.map Run.call) as ∧ bs = as ++ [.null])
      (session tcp (H.host s) ((runs.map Run.call ++ [call]).map (pyargs s)))
      (⟨0, 0⟩, (sessionPlan H runs .refused).full s) := by
  refine follows_session hD H runs .refused s fun h as hset has => wp_bind ?_
  cases s with
  | left =>
    have hrcv : h.args.rcv = false := congrArg Settings.rcv hset
    simp only [pyargs, netpipeRunIters, hargs, hrcv]
    exact ⟨_, rfl, rfl, trivial, as, has, rfl⟩
  | right =>
    have hrcv : h.args.rcv = true := congrArg Settings.rcv hset
    simp only [pyargs, netpipeRunIters, pyArgParseTuple, hrcv, if_true]
    exact wp_bind (script_recvRepeat_waits (by exact rfl))

end follows

end NetPipe.Tcp
