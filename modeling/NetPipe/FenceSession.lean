/-
  `mpi2.c` with fences: two ranks that call `run_iters` again and again.

  Each of the four combinations of put and get is possible, as every rank has a `use_get` of its
  own; so all of this has it as a parameter of the rank.

  1. **A run** (`wp_runBody`): the window, the fence of `Sync`, and two fences in each iteration,
     one for each rank's turn.  What the receive buffer holds after the other rank's turn is
     `fed`: the pattern of the other rank if that one puts, and else what was there, which is the
     own fill.  One turn is enough to get there (`fed_fed`), so the number of iterations only
     matters for being 0 or not.

  2. **What its check reports** (`reports_eq_nil_iff`): nothing where the other rank has put its
     buffer and has the same byte order; where nothing came, nothing either on a byte of a
     big-endian host, on which the patterns of the two seeds agree by accident.

  3. **Sessions** (`fence_session`), by induction on the runs (`wp_session`): they always
     complete, with one window and `1 + 2 * nrepeat` fences for each run and no message left over,
     whatever is put or got.
-/
import NetPipe.Fence
import NetPipe.Integrity
import NetPipe.MpiSession

namespace NetPipe.Fence

open Memory Process Ranks Choreo Tcp

/-! ## A run -/

/-- What `SendData` asks of the window of the other rank. -/
def asked (useGet : Bool) (peer : Int) (m : Nat) (buf : List UInt8) : Rma :=
  if useGet then .get peer 0 m else .put peer 0 buf

/-- Rank `k` has the turn: it asks for something, the other one waits. -/
def turn (order : Fin 2 → ByteOrder) (useGet : Fin 2 → Bool) (m : Nat) (k j : Fin 2) :
    Option Rma :=
  if j = k then some (asked (useGet k) (1 - k : Fin 2) m (pattern (order k) 98 m)) else none

theorem whole_turn (order : Fin 2 → ByteOrder) (useGet : Fin 2 → Bool) (m : Nat) (k j : Fin 2) :
    Whole m j (turn order useGet m k j) := by
  rw [turn, asked]
  by_cases hj : j = k
  · subst hj
    rw [if_pos rfl]
    cases useGet j with
    | true => exact ⟨rfl, rfl, rfl⟩
    | false => exact ⟨rfl, rfl, pattern_length ..⟩
  · rw [if_neg hj]
    trivial

/-- The fence of one turn. -/
def turnRound (cap : ℕ∞) (order : Fin 2 → ByteOrder) (useGet : Fin 2 → Bool) (m : Nat)
    (k : Fin 2) : Round (windows 2 cap) :=
  fenceRound cap m (turn order useGet m k) (whole_turn order useGet m k)

/-- A receive buffer after the turn of the other rank.  A get of the other rank leaves it alone, and
    so does a turn of the rank itself. -/
def fed (order : Fin 2 → ByteOrder) (useGet : Fin 2 → Bool) (m : Nat) (i : Fin 2)
    (r : List UInt8) : List UInt8 :=
  if useGet (1 - i) then r else pattern (order (1 - i)) 98 m

section run

variable {cap : ℕ∞} {i : Fin 2} {order : Fin 2 → ByteOrder} {useGet : Fin 2 → Bool} {h : Host}
  {m : Nat} {r s : List UInt8} {rest : List (Part UInt32 (windows 2 cap))} {l : List Mismatch}

/-- Rank `i` between two runs. -/
abbrev Seated (order : Fin 2 → ByteOrder) (useGet : Fin 2 → Bool) (i : Fin 2) (h : Host) : Prop :=
  Seat h (order i) (useGet i) (i = 0) (i = 1) (1 - i : Fin 2)

/-- `SendData` comes down to one fence. -/
theorem sendData_eq (hs : Seated order useGet i h) (hh : Exposed h m r s)
    (hown : useGet i = false → s = pattern (order i) 98 m) :
    sendData h = winFence h (turn order useGet m i i) := by
  have hoffset : ptrdiff h.args.sPtr h.args.sBuff = 0 := by
    obtain ⟨_, j, -, -, -, -, -, -, hsb, hsp, -⟩ := hh.blocks
    rw [hsb, hsp, ptrdiff_self]
  have hload := hh.load_sPtr
  rw [sendData, hs.cache, hs.useGet, turn, if_pos rfl, asked]
  simp only [Bool.not_false, if_true, hoffset, hs.nbor]
  cases hget : useGet i with
  | true => simp only [if_true, hh.bufflen]
  | false =>
    rw [if_neg Bool.false_ne_true, if_neg Bool.false_ne_true, hload, hown hget]
    rfl

variable {Q : Host → List (Part UInt32 (windows 2 cap)) × List Mismatch → Prop}

/-- A rank's own turn: its receive buffer is left alone, and what it would put is still there. -/
theorem wp_sendMarked (hs : Seated order useGet i h) (hh : Exposed h m r s)
    (hown : useGet i = false → s = pattern (order i) 98 m)
    (hQ : ∀ h' s', Seated order useGet i h' → Exposed h' m r s' →
      (useGet i = false → s' = pattern (order i) 98 m) → Q h' (rest, l)) :
    wp (fenceHandler cap i) (sendMarked mpi2 h) Q
      (.round (turnRound cap order useGet m i) :: rest, l) := by
  refine emit_mark ?_
  show wp _ (sendData h) _ _
  rw [sendData_eq hs hh hown]
  refine wp_winFence hs hh (whole_turn order useGet m i) fun h' s' hs' hh' hsame => ?_
  have hother : turn order useGet m i (1 - i) = none := if_neg (by omega)
  rw [hother] at hh'
  refine hQ h' s' hs' hh' fun hget => ?_
  rw [← hown hget]
  refine hsame ?_
  rw [turn, if_pos rfl, asked, hget]
  rfl

/-- The turn of the other one. -/
theorem wp_recvMarked {k : Fin 2} (hk : 1 - i = k) (hs : Seated order useGet i h)
    (hh : Exposed h m r s)
    (hQ : ∀ h', Seated order useGet i h' → Exposed h' m (fed order useGet m i r) s →
      Q h' (rest, l)) :
    wp (fenceHandler cap i) (recvMarked mpi2 h) Q
      (.round (turnRound cap order useGet m k) :: rest, l) := by
  have hnone : turn order useGet m k i = none := if_neg (by omega)
  have hfed : overwritten (turn order useGet m k (1 - i)) r = fed order useGet m i r := by
    rw [turn, if_pos hk, asked, fed, hk]
    cases useGet k <;> rfl
  apply wp_bind
  show wp _ (winFence h none) _ _
  rw [← hnone]
  refine wp_winFence hs hh (whole_turn order useGet m k) fun h' s' hs' hh' hsame => ?_
  obtain rfl := hsame (by rw [hnone]; rfl)
  rw [hfed] at hh'
  exact emit_mark (hQ h' hs' hh')

/-- What both ranks do in one iteration. -/
def iteration (cap : ℕ∞) (order : Fin 2 → ByteOrder) (useGet : Fin 2 → Bool) (m : Nat) :
    List (Round (windows 2 cap)) :=
  [turnRound cap order useGet m 0, turnRound cap order useGet m 1]

/-- **One iteration** of rank `i`: two fences, its own turn and that of the other rank, in the
    order its role gives them. -/
theorem wp_iteration {k : Nat} (hs : Seated order useGet i h) (hh : Exposed h m r s)
    (hown : useGet i = false → s = pattern (order i) 98 m)
    (hQ : ∀ h' s', Seated order useGet i h' → Exposed h' m (fed order useGet m i r) s' →
      (useGet i = false → s' = pattern (order i) 98 m) →
      wp (fenceHandler cap i) (timedLoop mpi2 k h') Q (rest, l)) :
    wp (fenceHandler cap i) (timedLoop mpi2 (k + 1) h) Q
      ((iteration cap order useGet m).map .round ++ rest, l) := by
  rw [timedLoop, hs.tr]
  simp only [Proc.bind_eq]
  rcases show i = 0 ∨ i = 1 by omega with rfl | rfl
  · refine wp_bind (wp_sendMarked hs hh hown fun h₁ s₁ hs₁ hh₁ hown₁ => ?_)
    refine wp_bind (wp_recvMarked rfl hs₁ hh₁ fun h₂ hs₂ hh₂ => ?_)
    exact emit_mark (hQ h₂ s₁ hs₂ hh₂ hown₁)
  · refine wp_bind (wp_recvMarked rfl hs hh fun h₁ hs₁ hh₁ => ?_)
    refine wp_bind (wp_sendMarked hs₁ hh₁ hown fun h₂ s₂ hs₂ hh₂ hown₂ => ?_)
    exact emit_mark (hQ h₂ s₂ hs₂ hh₂ hown₂)

/-- Nobody asks for anything. -/
def quietRound (cap : ℕ∞) (m : Nat) : Round (windows 2 cap) :=
  fenceRound cap m (fun _ => none) fun _ => trivial

theorem fed_fed (i : Fin 2) (r : List UInt8) :
    fed order useGet m i (fed order useGet m i r) = fed order useGet m i r := by
  unfold fed
  split <;> rfl

/-- **The timed loop**, by induction on the iterations to go. -/
theorem wp_timedLoop (k : Nat) : ∀ {h : Host} {r s : List UInt8}, Seated order useGet i h →
    Exposed h m r s → (useGet i = false → s = pattern (order i) 98 m) →
    (∀ h' s', Seated order useGet i h' →
      Exposed h' m (if k = 0 then r else fed order useGet m i r) s' → Q h' (rest, l)) →
    wp (fenceHandler cap i) (timedLoop mpi2 k h) Q
      ((List.replicate k ((iteration cap order useGet m).map .round)).flatten ++ rest, l) := by
  induction k with
  | zero =>
    intro h r s hs hh _ hQ
    exact hQ h s hs hh
  | succ k ih =>
    intro h r s hs hh hown hQ
    rw [List.replicate_succ, List.flatten_cons, List.append_assoc]
    refine wp_iteration hs hh hown fun h₁ s₁ hs₁ hh₁ hown₁ => ?_
    refine ih hs₁ hh₁ hown₁ fun h₂ s₂ hs₂ hh₂ => ?_
    rw [fed_fed, ite_self] at hh₂
    exact hQ h₂ s₂ hs₂ (by rwa [if_neg (Nat.succ_ne_zero k)])

/-- What the check of a run of `k` iterations reports. -/
def reports (order : Fin 2 → ByteOrder) (useGet : Fin 2 → Bool) (m k : Nat) (i : Fin 2) :
    List Mismatch :=
  differences (order i) (pattern (order i) 98 m)
    (if k = 0 then pattern (order i) 97 m else fed order useGet m i (pattern (order i) 97 m)) m

variable {size nrepeat : UInt32}
  {Q : PyResult × Host → List (Part UInt32 (windows 2 cap)) × List Mismatch → Prop}

/-- `run_iters` from the iterations on. -/
theorem wp_measureRun {s : List UInt8} (hs : Seated order useGet i h)
    (hh : Exposed h (nbytes size) (pattern (order i) 97 (nbytes size)) s)
    (hown : useGet i = false → s = pattern (order i) 98 (nbytes size))
    (hQ : ∀ h' t, Seated order useGet i h' → Q (.tuple (toInt32 size) (toInt32 nrepeat) t, h')
      (rest, l ++ reports order useGet (nbytes size) nrepeat.toNat i)) :
    wp (fenceHandler cap i) (measureRun mpi2 h size nrepeat) Q ((List.replicate nrepeat.toNat
      ((iteration cap order useGet (nbytes size)).map .round)).flatten ++ rest, l) := by
  intro t₀
  refine emit_mark ?_
  show wp _ ((timedLoop mpi2 nrepeat.toNat h).bind fun h => closeRun mpi2 h size nrepeat t₀) Q _
  refine wp_bind (wp_timedLoop _ hs hh hown fun h₁ s₁ hs₁ hh₁ => ?_)
  show wp _ (closeRun buffers h₁ size nrepeat t₀) Q _
  have hcheck := lfsrcheck_eq h₁.order 98 (Nat.le_of_eq hh₁.length_r.symm)
  refine wp_closeRun buffers_generic hs₁.cache hh₁.toArmed (nbytes_lt size) hcheck ?_
  refine emit_mark (wp_report (fun l => (rest, l)) (fun _ _ _ => id) _ (emit_mark ?_))
  intro h₂ t hsame
  rw [hs₁.order]
  exact hQ h₂ t (hs₁.same hsame)

/-- `run_iters` from `Sync` on. -/
theorem wp_syncRun (hs : Seated order useGet i h)
    (hh : Exposed h (nbytes size) (pattern (order i) 97 (nbytes size))
      (pattern (order i) 98 (nbytes size)))
    (hQ : ∀ h' t, Seated order useGet i h' → Q (.tuple (toInt32 size) (toInt32 nrepeat) t, h')
      (rest, l ++ reports order useGet (nbytes size) nrepeat.toNat i)) :
    wp (fenceHandler cap i) (syncRun mpi2 h)
      (fun h' => wp (fenceHandler cap i) (measureRun mpi2 h' size nrepeat) Q)
      (.round (quietRound cap (nbytes size)) :: ((List.replicate nrepeat.toNat
        ((iteration cap order useGet (nbytes size)).map .round)).flatten ++ rest), l) := by
  have hfence : wp (fenceHandler cap i) (winFence h none)
      (fun h' => wp (fenceHandler cap i) (measureRun mpi2 h' size nrepeat) Q)
      (.round (quietRound cap (nbytes size)) :: ((List.replicate nrepeat.toNat
        ((iteration cap order useGet (nbytes size)).map .round)).flatten ++ rest), l) := by
    have hquiet : ∀ j, Whole (nbytes size) j ((fun _ => none : Fin 2 → Option Rma) j) :=
      fun _ => trivial
    refine wp_winFence hs hh hquiet fun h' s' hs' hh' hsame => ?_
    obtain rfl := hsame rfl
    exact wp_measureRun hs' hh' (fun _ => rfl) hQ
  unfold syncRun
  split
  · exact emit_mark hfence
  · exact hfence

/-- `run_iters` from the allocation on. -/
theorem wp_runBody (hs : Seated order useGet i h)
    (hQ : ∀ h' t, Seated order useGet i h' → Q (.tuple (toInt32 size) (toInt32 nrepeat) t, h')
      (rest, l ++ reports order useGet (nbytes size) nrepeat.toNat i)) :
    wp (fenceHandler cap i) (runBody mpi2 h size nrepeat) Q
      (.round (winRound cap) :: .round (quietRound cap (nbytes size)) ::
        ((List.replicate nrepeat.toNat
          ((iteration cap order useGet (nbytes size)).map .round)).flatten ++ rest), l) := by
  show wp _ ((allocRun buffers h size nrepeat).bind _) _ _
  refine wp_bind (wp_allocRun buffers_generic sane_fenceHandler hs.cache ?_)
  refine emit_mark (emit_mark fun h₁ r s hsame hh => ?_)
  have hs₁ := hs.same hsame
  have hlive : ¬ (h₁.args.rBuffOrig = .null ∨ h₁.args.sBuffOrig = .null) := by
    obtain ⟨_, _, -, -, -, -, -, hr, -, -, hs⟩ := hh.blocks
    simp [hr, hs]
  obtain ⟨h₂, hinit, hsame₂, hh₂⟩ := initBufferData_eq (RankOp UInt32 Coll) (RankOp.Res Coll.Res)
    hh (nbytes_lt size) hs₁.cache
  have hs₂ := hs₁.same hsame₂
  rw [hs₁.order] at hh₂
  rw [if_neg hlive, initRun, hh.bufflen]
  apply wp_bind
  show wp _ ((initBufferData h₁ _ 0 0).bind _) _ _
  rw [hinit]
  refine emit_mark ?_
  -- the window
  refine Or.inr ⟨winRound cap, _, rfl, rfl, fun _ _ => emit_mark ?_⟩
  have hseat : Seated order useGet i
      { h₂ with args.prot.win := h₂.args.rBuff, args.prot.winSize := h₂.args.bufflen } :=
    ⟨hs₂.order, hs₂.cache, hs₂.tr, hs₂.rcv, hs₂.useGet, hs₂.nbor⟩
  have hexposed : Exposed
      { h₂ with args.prot.win := h₂.args.rBuff, args.prot.winSize := h₂.args.bufflen }
      (nbytes size) (pattern (order i) 97 (nbytes size)) (pattern (order i) 98 (nbytes size)) :=
    ⟨⟨hh₂.bufflen, hh₂.length_r, hh₂.length_s, hh₂.blocks⟩, rfl, hh₂.bufflen⟩
  show wp _ ((syncRun mpi2 _).bind _) _ _
  exact wp_bind (wp_syncRun hseat hexposed hQ)

/-- The size and the repeat count, sent. -/
theorem wp_transmitter {peer : Fin 2} {h : Host} {useGet : Bool} {order : ByteOrder}
    (hs : Seat h order useGet true tr peer) {pyargs : List Int}
    (hparse : pyArgParseTuple pyargs = some (size, nrepeat))
    (hbody : wp (fenceHandler cap i) (runBody mpi2 h size nrepeat) Q (rest, l)) :
    wp (fenceHandler cap i) (netpipeRunIters mpi2 h pyargs) Q
      (.send peer 2 size :: .send peer 2 nrepeat :: rest, l) := by
  rw [netpipeRunIters, hparse]
  simp only [runWith, hs.tr, if_true, Proc.bind_eq]
  apply wp_bind
  refine Or.inr ⟨peer, .send peer 2 nrepeat :: rest, hs.nbor, rfl, ?_⟩
  exact Or.inr ⟨peer, rest, hs.nbor, rfl, hbody⟩

/-- And received. -/
theorem wp_receiver {peer : Fin 2} {h : Host} {useGet : Bool} {order : ByteOrder}
    (hs : Seat h order useGet false true peer) (hsize : size ≠ 0)
    (hbody : wp (fenceHandler cap i) (runBody mpi2 h size nrepeat) Q (rest, l)) :
    wp (fenceHandler cap i) (netpipeRunIters mpi2 h []) Q
      (.recv peer 2 size :: .recv peer 2 nrepeat :: rest, l) := by
  rw [netpipeRunIters]
  simp only [pyArgParseTuple, hs.rcv, if_true, Proc.bind_eq]
  apply wp_bind
  refine Or.inr ⟨peer, size, .recv peer 2 nrepeat :: rest, hs.nbor, rfl, ?_⟩
  apply wp_bind
  refine Or.inr ⟨peer, nrepeat, rest, hs.nbor, rfl, ?_⟩
  simp only [if_neg hsize, runWith]
  show wp _ (if h.args.tr = true then _ else runBody mpi2 h size nrepeat) Q (rest, l)
  rw [hs.tr]
  exact hbody

end run

/-! ## What the checks report -/

/-- **The check of a run** is silent where the other rank has put its buffer and has the same byte
    order; where nothing came it is silent on a byte of a big-endian host only. -/
theorem reports_eq_nil_iff (order : Fin 2 → ByteOrder) (useGet : Fin 2 → Bool) {m : Nat}
    (hm : 0 < m) (k : Nat) (i : Fin 2) : reports order useGet m k i = [] ↔
      if k = 0 ∨ useGet (1 - i) = true then order i = .big ∧ m = 1
      else order (1 - i) = order i := by
  have hall := truncated_passes_iff (order i) (order (1 - i)) (le_refl m)
  rw [List.take_of_length_le (Nat.le_of_eq (pattern_length ..)),
    List.drop_eq_nil_of_le (Nat.le_of_eq (pattern_length ..)), List.append_nil] at hall
  have hsilent : differences (order i) (pattern (order i) 98 m) (pattern (order i) 97 m) m = [] ↔
      order i = .big ∧ m = 1 := by
    rw [untouched_passes_iff, or_iff_right (Nat.pos_iff_ne_zero.mp hm)]
  rw [reports]
  by_cases hk : k = 0
  · rw [if_pos hk, if_pos (Or.inl hk)]
    exact hsilent
  · rw [if_neg hk, fed]
    cases hget : useGet (1 - i) with
    | true => simpa using hsilent
    | false =>
      simp only [hk, Bool.false_eq_true, or_self, if_false]
      rw [hall]
      constructor
      · exact fun h => (patternByte_order (h.1 0 hm)).symm
      · intro h
        rw [h]
        exact ⟨fun _ _ => rfl, fun j hj hj' => absurd hj (by omega)⟩

/-! ## Sessions -/

theorem first_ne_last : (0 : Fin 2) ≠ 1 := by decide

section sessions

variable {cap : ℕ∞} {i : Fin 2} {order : Fin 2 → ByteOrder} {useGet async : Fin 2 → Bool}

/-- The collectives of a run. -/
def runRounds (cap : ℕ∞) (order : Fin 2 → ByteOrder) (useGet : Fin 2 → Bool)
    (size nrepeat : UInt32) : List (Round (windows 2 cap)) :=
  winRound cap :: quietRound cap (nbytes size) ::
    (List.replicate nrepeat.toNat (iteration cap order useGet (nbytes size))).flatten

/-- What the two ranks do together in it. -/
def together (cap : ℕ∞) (order : Fin 2 → ByteOrder) (useGet : Fin 2 → Bool)
    (size nrepeat : UInt32) : List (Act UInt32 (windows 2 cap)) :=
  .msg 0 1 first_ne_last 2 size :: .msg 0 1 first_ne_last 2 nrepeat ::
    (runRounds cap order useGet size nrepeat).map .round

/-- And in these runs. -/
def acts (cap : ℕ∞) (order : Fin 2 → ByteOrder) (useGet : Fin 2 → Bool) (runs : List Run) :
    List (Act UInt32 (windows 2 cap)) :=
  runs.flatMap fun r => together cap order useGet (toUint32 r.size) (toUint32 r.nrepeat)

/-- What the check of rank `i` reports in a run. -/
def runReports (order : Fin 2 → ByteOrder) (useGet : Fin 2 → Bool) (i : Fin 2) (r : Run) :
    List Mismatch :=
  reports order useGet (nbytes (toUint32 r.size)) (toUint32 r.nrepeat).toNat i

theorem runRounds_parts (size nrepeat : UInt32) :
    ((runRounds cap order useGet size nrepeat).map .round : List (Part UInt32 (windows 2 cap))) =
      .round (winRound cap) :: .round (quietRound cap (nbytes size)) ::
        (List.replicate nrepeat.toNat
          ((iteration cap order useGet (nbytes size)).map .round)).flatten := by
  rw [runRounds, List.map_cons, List.map_cons, List.map_flatten, List.map_replicate]

/-- **One run** of rank `i`. -/
theorem wp_run {h : Host} {rest : List (Part UInt32 (windows 2 cap))} {l : List Mismatch}
    {Q : PyResult × Host → List (Part UInt32 (windows 2 cap)) × List Mismatch → Prop} (r : Run)
    (hs : Seated order useGet i h)
    (hQ : ∀ h' t, Seated order useGet i h' →
      Q (.tuple r.size r.nrepeat t, h') (rest, l ++ runReports order useGet i r)) :
    wp (fenceHandler cap i) (netpipeRunIters mpi2 h (PointToPoint.callOf i r.size r.nrepeat)) Q
      (script (together cap order useGet (toUint32 r.size) (toUint32 r.nrepeat)) i ++ rest, l) := by
  have hbody : wp (fenceHandler cap i) (runBody mpi2 h (toUint32 r.size) (toUint32 r.nrepeat)) Q
      (script ((runRounds cap order useGet (toUint32 r.size) (toUint32 r.nrepeat)).map .round) i ++
        rest, l) := by
    rw [script_rounds, runRounds_parts]
    refine wp_runBody hs fun h' t hs' => ?_
    rw [r.toInt32_eq]
    exact hQ h' t hs'
  rcases show i = 0 ∨ i = 1 by omega with rfl | rfl
  · exact wp_transmitter hs r.parse hbody
  · exact wp_receiver hs r.size32_ne_zero hbody

/-- **All runs** of rank `i`, by induction on them; the reports of their checks one after the
    other. -/
theorem wp_session (runs : List Run) : ∀ {h : Host} {l : List Mismatch},
    Seated order useGet i h →
    wp (fenceHandler cap i) (session mpi2 h (PointToPoint.calls i runs))
      (fun rs s => s.1 = [] ∧ PointToPoint.Answered runs rs ∧
        s.2 = l ++ runs.flatMap (runReports order useGet i))
      (script (acts cap order useGet runs) i, l) := by
  induction runs with
  | nil =>
    intro h l _
    exact ⟨rfl, .nil, (List.append_nil l).symm⟩
  | cons r runs ih =>
    intro h l hs
    have hacts : acts cap order useGet (r :: runs) =
        together cap order useGet (toUint32 r.size) (toUint32 r.nrepeat) ++
          acts cap order useGet runs := List.flatMap_cons
    rw [hacts, script_append]
    refine wp_bind (wp_run r hs fun h₁ t hs₁ => ?_)
    refine wp_bind (wp_mono ?_ (ih hs₁))
    rintro rs s ⟨hnil, hrs, hl⟩
    refine ⟨hnil, .cons ⟨t, rfl⟩ hrs, ?_⟩
    rw [hl, List.flatMap_cons, List.append_assoc]

/-- Rank `i` in these runs; with their results it returns what its checks have reported. -/
def rank (order : Fin 2 → ByteOrder) (useGet async : Fin 2 → Bool) (runs : List Run) (i : Fin 2) :
    Prog (List PyResult × List Mismatch) :=
  (process (order i) (useGet i) (async i) i (PointToPoint.calls i runs)).logged mismatchOf []

/-- Both ranks at the beginning of a session. -/
def sessionStart (order : Fin 2 → ByteOrder) (useGet async : Fin 2 → Bool) (runs : List Run) :
    Config 2 UInt32 Coll.Res Event (List PyResult × List Mismatch) :=
  .start (rank order useGet async runs)

/-- Each rank keeps to its script. -/
theorem keeps_process (runs : List Run) (i : Fin 2) :
    Keeps (N := windows 2 cap) nowhere
      (fun a => PointToPoint.Answered runs a.1 ∧ a.2 = runs.flatMap (runReports order useGet i)) i
      (rank order useGet async runs i) (script (acts cap order useGet runs) i) := by
  refine wp_logged ?_
  obtain ⟨h, hsetup, hs⟩ := seated (order i) (useGet i) (async i) i
  rw [process, hsetup]
  exact wp_session (l := []) runs hs

theorem nbytes_eq_one_iff (r : Run) : nbytes (toUint32 r.size) = 1 ↔ r.size ≤ 8 := by
  have hpos := r.size_pos
  have hlt := r.size_lt
  have hsize : (toUint32 r.size).toNat = r.size.toNat :=
    toNat_toUint32 (by omega) (by omega)
  rw [nbytes_eq, hsize]
  omega

/-- When the checks of rank `i` are silent in all of the runs. -/
theorem runReports_eq_nil_iff (runs : List Run) :
    runs.flatMap (runReports order useGet i) = [] ↔ ∀ r ∈ runs,
      if r.nrepeat = 0 ∨ useGet (1 - i) = true then order i = .big ∧ r.size ≤ 8
      else order (1 - i) = order i := by
  rw [List.flatMap_eq_nil_iff]
  refine forall₂_congr fun r _ => ?_
  have hzero : (toUint32 r.nrepeat).toNat = 0 ↔ r.nrepeat = 0 := by
    have hnonneg := r.nrepeat_nonneg
    rw [r.toNat_nrepeat]
    omega
  rw [runReports, reports_eq_nil_iff order useGet (nbytes_pos r.size32_ne_zero)]
  simp only [hzero, nbytes_eq_one_iff]

theorem allRounds_acts (runs : List Run) : allRounds (acts cap order useGet runs) =
    runs.flatMap fun r => runRounds cap order useGet (toUint32 r.size) (toUint32 r.nrepeat) := by
  induction runs with
  | nil => rfl
  | cons r runs ih =>
    have hacts : acts cap order useGet (r :: runs) =
        together cap order useGet (toUint32 r.size) (toUint32 r.nrepeat) ++
          acts cap order useGet runs := List.flatMap_cons
    rw [hacts, allRounds, List.filterMap_append, List.flatMap_cons]
    congr 1
    exact allRounds_rounds _

/-- Which collectives a run is made of: the window, the fence of `Sync`, and two fences for each
    iteration. -/
def kinds (r : Run) : List Bool := false :: true :: List.replicate (2 * r.nrepeat.toNat) true

/-- A call in this round is one of this kind. -/
def OfKind (R : Round (windows 2 cap)) (b : Bool) : Prop := ∀ i c, R.allowed i c → c.isFence = b

theorem ofKind_fence {m : Nat} {rma : Fin 2 → Option Rma} (h : ∀ i, Whole m i (rma i)) :
    OfKind (fenceRound cap m rma h) true := by
  rintro i c ⟨window, -, rfl⟩
  rfl

theorem kinds_runRounds (r : Run) : List.Forall₂ OfKind
    (runRounds cap order useGet (toUint32 r.size) (toUint32 r.nrepeat)) (kinds r) := by
  have hloop : ∀ k, List.Forall₂ OfKind (List.replicate k
      (iteration cap order useGet (nbytes (toUint32 r.size)))).flatten
        (List.replicate (2 * k) true) := by
    intro k
    induction k with
    | zero => exact .nil
    | succ k ih =>
      exact .cons (ofKind_fence _) (.cons (ofKind_fence _) ih)
  rw [runRounds, kinds, r.toNat_nrepeat]
  exact .cons (fun _ _ h => h) (.cons (ofKind_fence _) (hloop _))

/-- The kinds of the calls that are made in these rounds. -/
theorem map_isFence {Rs : List (Round (windows 2 cap))} {bs : List Bool}
    (h : List.Forall₂ OfKind Rs bs) : ∀ {ops : List Coll},
    List.Forall₂ (fun R op => R.allowed i op) Rs ops → ops.map Coll.isFence = bs := by
  induction h with
  | nil =>
    rintro ops ⟨⟩
    rfl
  | cons hkind _ ih =>
    rintro ops (_ | ⟨hop, hops⟩)
    rw [List.map_cons, hkind _ _ hop, ih hops]

/-- **Sessions of `mpi2.c` with fences**, whatever the network does: both ranks return the results
    of their runs, having made a window and been through the same fences in each of them, and no
    message is left.  A rank's checks report nothing exactly where in every run the other rank puts
    at least once and has the same byte order, or the host is big-endian and the run one of a
    byte. -/
theorem fence_session (cap : ℕ∞) (order : Fin 2 → ByteOrder) (useGet async : Fin 2 → Bool)
    (runs : List Run) :
    Completes (windows 2 cap) (sessionStart order useGet async runs) (fun i a =>
      PointToPoint.Answered runs a.1 ∧ (a.2 = [] ↔ ∀ r ∈ runs,
        if r.nrepeat = 0 ∨ useGet (1 - i) = true then order i = .big ∧ r.size ≤ 8
        else order (1 - i) = order i)) ∧
    ∀ c, Steps (windows 2 cap) (sessionStart order useGet async runs) c →
      Stuck (windows 2 cap) c → ∀ i, (c.party i).done.map Coll.isFence = runs.flatMap kinds ∧
        ∀ j : Fin 2, c.mail (i, j) = [] := by
  have hkeeps : ∀ i, Keeps (N := windows 2 cap) nowhere
      (fun a => PointToPoint.Answered runs a.1 ∧ a.2 = runs.flatMap (runReports order useGet i)) i
      (rank order useGet async runs i) (script (acts cap order useGet runs) i) := keeps_process runs
  constructor
  · refine Choreo.completes fun i => wp_mono ?_ (hkeeps i)
    rintro a s ⟨hnil, hrs, hms⟩
    refine ⟨hnil, hrs, ?_⟩
    rw [hms]
    exact runReports_eq_nil_iff runs
  · intro c hc hstuck i
    refine ⟨?_, fun j => Choreo.delivered blocked_nowhere hkeeps hc hstuck i j⟩
    have hrounds := done_rounds blocked_nowhere hkeeps hc hstuck i
    rw [allRounds_acts] at hrounds
    refine map_isFence ?_ hrounds
    refine List.rel_flatMap (R := Eq) (List.forall₂_eq_eq_eq ▸ rfl) ?_
    rintro r _ rfl
    exact kinds_runRounds r

end sessions

end NetPipe.Fence
