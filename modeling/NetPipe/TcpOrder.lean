/-
  The order of a TCP session: ranks of its bytes, and what comes before what in its scripts.

  1. **Ranks.**  The rank of a byte is its run and its phase in the run: 0 for the header, 1 for
     the synchronisation string, `2 + 2 j` and `3 + 2 j` for the two messages of iteration `j`.
     Each piece of a script spans the interval of its phase, and the pieces are put together with
     the rules of `Lib.Span` (`spans_iter`, `spans_loop`, `spans_session`).  What comes behind the
     runs is one more piece (`spans_ending`).

  2. **Room.**  Bytes of one rank are those of one message, but for the synchronisation strings, of
     which one goes either way.  So next to a byte that is put the other side has at most six bytes
     of the same rank to send (`countP_full`, `ofSync_of_rank`).

  3. `timely` — a session is in order by these ranks as soon as both streams have room for six
     bytes.  This is what `Script.Plan.Timely` asks for, and all that completion rests on.
-/
import NetPipe.TcpPlan

namespace NetPipe.Tcp

open Memory Process Duplex

/-! ## Ranks -/

/-- The place of a call in its run. -/
def phase (s : Side) (st : Stamp Pos Site) : Nat :=
  match st.site, s with
  | .rpt, _ => 0
  | .time, _ => 0
  | .sync, _ => 1
  | .data, .left => 2 + 2 * st.pos.iter
  | .data, .right => 3 + 2 * st.pos.iter

/-- The rank of a byte that `s` writes. -/
def rank (s : Side) (x : Cell Pos Site) : ℕ ×ₗ ℕ := toLex (x.stamp.pos.run, phase s x.stamp)

/-- The level of putting (`b = 0`) or getting (`b = 1`) in phase `f` of run `i`. -/
def lev (i f b : Nat) : (ℕ ×ₗ ℕ) ×ₗ ℕ := toLex (toLex (i, f), b)

theorem lev_le {i f b i' f' b' : Nat} :
    lev i f b ≤ lev i' f' b' ↔ i < i' ∨ i = i' ∧ (f < f' ∨ f = f' ∧ b ≤ b') := by
  simp only [lev, Prod.Lex.toLex_le_toLex, Prod.Lex.toLex_lt_toLex, toLex_inj, Prod.mk.injEq]
  omega

section spans

theorem spans_put (s : Side) (p : Pos) (site : Site) (bs : List UInt8) :
    Spans rank s (lev p.run (phase s ⟨p, site⟩) 0) (lev p.run (phase s ⟨p, site⟩) 0)
      (putMsg ⟨p, site⟩ bs) :=
  .put fun _ => rfl

theorem spans_got (s : Side) (p : Pos) (site : Site) (bs : List UInt8) :
    Spans rank s (lev p.run (phase s.other ⟨p, site⟩) 1)
      (lev p.run (phase s.other ⟨p, site⟩) 1) (gotMsg ⟨p, site⟩ bs) :=
  .got fun _ => rfl

/-- Marks and reports have no level of their own. -/
theorem spans_quiet (s : Side) {l : List TcpAct} (h : ∀ a ∈ l, ∃ q e, a = .did q e)
    (m : (ℕ ×ₗ ℕ) ×ₗ ℕ) : Spans rank s m m l := by
  refine .quiet ?_
  intro a ha
  obtain ⟨q, e, rfl⟩ := h a ha
  rfl

theorem spans_did (s : Side) (q : Pos) (k : Mark) (m : (ℕ ×ₗ ℕ) ×ₗ ℕ) :
    Spans rank s m m [did q k] :=
  spans_quiet s (by simp [did]) m

theorem spans_head (s : Side) (i : Nat) (size nrepeat : UInt32) :
    Spans rank s (lev i 0 0) (lev i 0 1) (headScript s ⟨i, 0⟩ size nrepeat) := by
  cases s with
  | left =>
    exact ((spans_put .left ⟨i, 0⟩ .rpt _).append (spans_put .left ⟨i, 0⟩ .rpt _) le_rfl).weaken
      le_rfl (lev_le.mpr (by simp [phase]))
  | right =>
    exact ((spans_got .right ⟨i, 0⟩ .rpt _).append (spans_got .right ⟨i, 0⟩ .rpt _)
      le_rfl).weaken (lev_le.mpr (by simp [phase])) le_rfl

theorem spans_sync (s : Side) (i : Nat) :
    Spans rank s (lev i 1 0) (lev i 1 1) (syncScript ⟨i, 0⟩) :=
  (spans_put s ⟨i, 0⟩ .sync _).append (spans_got s ⟨i, 0⟩ .sync _)
    (lev_le.mpr (by simp [phase]))

/-- `SendData` and `RecvData`, in their phases. -/
theorem spans_send (s : Side) (p : Pos) (own : List UInt8) :
    Spans rank s (lev p.run (phase s ⟨p, .data⟩) 0) (lev p.run (phase s ⟨p, .data⟩) 0)
      (sendScript p own) :=
  (spans_did s p (.sending own) _).append (spans_put s p .data own) le_rfl

theorem spans_recv (s : Side) (p : Pos) (peer : List UInt8) :
    Spans rank s (lev p.run (phase s.other ⟨p, .data⟩) 1)
      (lev p.run (phase s.other ⟨p, .data⟩) 1) (recvScript p peer) :=
  (spans_got s p .data peer).append (spans_did s p (.received peer) _) le_rfl

theorem spans_iter (s : Side) (i j : Nat) (own peer : List UInt8) :
    Spans rank s (lev i (2 + 2 * j) 0) (lev i (3 + 2 * j) 1) (iterScript s ⟨i, j⟩ own peer) := by
  have hsend := spans_send s ⟨i, j⟩ own
  have hrecv := spans_recv s ⟨i, j⟩ peer
  have hmark := spans_did s ⟨i, j⟩ .iterated (lev i (3 + 2 * j) 1)
  cases s with
  | left =>
    exact (hsend.append hrecv (lev_le.mpr (by simp [phase, Side.other]))).append hmark le_rfl
  | right =>
    exact ((hrecv.append hsend (lev_le.mpr (by simp [phase, Side.other]))).append hmark
      (lev_le.mpr (by simp [phase]))).weaken (lev_le.mpr (by simp [phase, Side.other])) le_rfl

/-- The timed loop, by induction on the iterations. -/
theorem spans_loop (s : Side) (i : Nat) (own peer : List UInt8) (k : Nat) :
    ∀ j, Spans rank s (lev i (2 + 2 * j) 0) (lev i (2 + 2 * (j + k)) 0)
      (loopScript s i own peer j k) := by
  induction k with
  | zero => exact fun j => .quiet (by simp [loopScript])
  | succ k ih =>
    intro j
    rw [loopScript, List.range'_succ, List.flatMap_cons]
    have := (spans_iter s i j own peer).append (ih (j + 1)) (lev_le.mpr (by omega))
    rwa [Nat.add_right_comm] at this

/-- One run, up to the next. -/
theorem spans_exchange (async : Bool) (s : Side) (i : Nat) (size nrepeat : UInt32)
    (own peer : List UInt8) (ms : List Mismatch) :
    Spans rank s (lev i 0 0) (lev (i + 1) 0 0)
      (exchangeScript async s i size nrepeat own peer ms) := by
  refine (spans_head s i _ _).append ((spans_quiet s prepScript_quiet (lev i 1 0)).append
    ((spans_sync s i).append ((spans_did s ⟨i, 0⟩ .timedLoop (lev i 2 0)).append
      ((spans_loop s i _ _ _ 0).append (spans_quiet s closeScript_quiet (lev (i + 1) 0 0)) ?_)
      ?_) ?_) ?_) ?_ <;> exact lev_le.mpr (by omega)

/-- A session, by induction on its runs. -/
theorem spans_session (H : Hosts) (s : Side) (runs : List Run) :
    ∀ i, Spans rank s (lev i 0 0) (lev (i + runs.length) 0 0) (sessionScript H s i runs) := by
  induction runs with
  | nil => exact fun i => .quiet (by simp [sessionScript])
  | cons r runs ih =>
    intro i
    rw [sessionScript, runScript_eq, List.length_cons, ← Nat.add_assoc, Nat.add_right_comm]
    exact (spans_exchange _ s i _ _ _ _ _).append (ih (i + 1)) le_rfl

/-- Bytes that are never read, seen as if they were. -/
theorem map_tail_stamped (st : Stamp Pos Site) (bs : List UInt8) :
    ((stamped st bs).map fun x => (.got x.stamp x : TcpAct)) = gotMsg st bs := by
  simp [gotMsg, stamped]

/-- The ending, with what will not be read of it. -/
theorem spans_ending (H : Hosts) (s : Side) (i : Nat) (e : Ending) :
    Spans rank s (lev i 0 0) (lev i 1 1)
      (e.script H i s ++ (e.tail i s.other).map fun x => .got x.stamp x) := by
  have hnil : Spans rank s (lev i 0 0) (lev i 1 1) ([] : List TcpAct) :=
    (spans_quiet s (by simp) (lev i 0 0)).weaken le_rfl (lev_le.mpr (by omega))
  cases e with
  | done => exact hnil
  | refused =>
    cases s with
    | left =>
      exact (spans_did .left ⟨i, 0⟩ .returned (lev i 0 0)).weaken le_rfl
        (lev_le.mpr (by omega))
    | right => exact hnil
  | zero k =>
    cases s with
    | left =>
      have hput := (spans_put .left ⟨i, 0⟩ .sync syncMe).weaken le_rfl
        (show _ ≤ lev i 1 1 from lev_le.mpr (by simp [phase]))
      have := (spans_head .left i 0 k).append ((spans_quiet .left (@prepScript_quiet
        (H.asyncReceive .left) ⟨i, 0⟩ 0 k) (lev i 1 0)).append hput
        (lev_le.mpr (by simp [phase]))) (lev_le.mpr (by omega))
      simpa [Ending.script, Ending.tail, Side.other] using this
    | right =>
      rw [Side.other, Ending.script, Ending.tail, map_tail_stamped]
      exact ((spans_head .right i 0 k).append (spans_did .right ⟨i, 0⟩ .returned (lev i 0 1))
        le_rfl).append (spans_got .right ⟨i, 0⟩ .sync syncMe) (lev_le.mpr
          (by simp [phase]))

end spans

/-! ## Room -/

/-- The calls `s` writes from in run `i`. -/
def Sent (s : Side) (i : Nat) (x : Cell Pos Site) : Prop :=
  (s = .left ∧ x.stamp = ⟨⟨i, 0⟩, .rpt⟩) ∨ x.stamp = ⟨⟨i, 0⟩, .sync⟩ ∨
    ∃ j, x.stamp = ⟨⟨i, j⟩, .data⟩

theorem sent_of_wire {s : Side} {i : Nat} {size nrepeat : UInt32} {own : List UInt8}
    {x : Cell Pos Site} (hx : x ∈ exchangeWire s i size nrepeat own) : Sent s i x := by
  simp only [exchangeWire, List.mem_append, List.mem_flatMap] at hx
  rcases hx with hx | hx | ⟨j, -, hx⟩
  · split at hx
    · rename_i hs
      rcases List.mem_append.mp hx with hx | hx
      · exact Or.inl ⟨hs, mem_stamped hx⟩
      · exact Or.inl ⟨hs, mem_stamped hx⟩
    · cases hx
  · exact Or.inr (Or.inl (mem_stamped hx))
  · exact Or.inr (Or.inr ⟨j, mem_stamped hx⟩)

theorem Sent.run {s : Side} {i : Nat} {x : Cell Pos Site} (h : Sent s i x) :
    x.stamp.pos.run = i := by
  rcases h with ⟨-, h⟩ | h | ⟨j, h⟩ <;> rw [h]

/-- Whether a byte is of the synchronisation string of run `i`. -/
def ofSync (i : Nat) (x : Cell Pos Site) : Bool := x.stamp = ⟨⟨i, 0⟩, .sync⟩

theorem countP_stamped (i : Nat) (st : Stamp Pos Site) (bs : List UInt8) :
    (stamped st bs).countP (ofSync i) = if st = ⟨⟨i, 0⟩, .sync⟩ then bs.length else 0 := by
  split
  · rename_i h
    rw [List.countP_eq_length.mpr, stamped_length]
    exact fun x hx => by simp [ofSync, mem_stamped hx, h]
  · rename_i h
    rw [List.countP_eq_zero]
    exact fun x hx => by simp [ofSync, mem_stamped hx, h]

/-- A run has six bytes of synchronisation in each direction. -/
theorem countP_wire (s : Side) (i i' : Nat) (size nrepeat : UInt32) (own : List UInt8) :
    (exchangeWire s i' size nrepeat own).countP (ofSync i) = if i' = i then 6 else 0 := by
  have hdata : ((List.range' 0 nrepeat.toNat).flatMap fun j =>
      stamped ⟨⟨i', j⟩, .data⟩ own).countP (ofSync i) = 0 := by
    rw [List.countP_eq_zero]
    intro x hx
    obtain ⟨j, -, hx⟩ := List.mem_flatMap.mp hx
    simp [ofSync, mem_stamped hx]
  cases s <;> simp [exchangeWire, countP_stamped, hdata, syncMe]

theorem countP_session (H : Hosts) (s : Side) (j : Nat) (runs : List Run) :
    ∀ i, (puts (sessionScript H s i runs)).countP (ofSync j) =
      if i ≤ j ∧ j < i + runs.length then 6 else 0 := by
  induction runs with
  | nil =>
    intro i
    rw [if_neg (by simp only [List.length_nil]; omega)]
    rfl
  | cons r runs ih =>
    intro i
    rw [sessionScript, puts_append, List.countP_append, puts_runScript, wire_eq, countP_wire, ih,
      List.length_cons]
    split_ifs <;> omega

theorem sent_session {H : Hosts} {s : Side} {x : Cell Pos Site} (runs : List Run) :
    ∀ i, x ∈ puts (sessionScript H s i runs) → ∃ j, Sent s j x := by
  induction runs with
  | nil => exact fun i h => absurd h List.not_mem_nil
  | cons r runs ih =>
    intro i h
    rw [sessionScript, puts_append, puts_runScript, wire_eq] at h
    rcases List.mem_append.mp h with h | h
    · exact ⟨i, sent_of_wire h⟩
    · exact ih (i + 1) h

variable {H : Hosts} {runs : List Run} {e : Ending}

/-- What the ending puts. -/
theorem puts_ending (H : Hosts) (i : Nat) (e : Ending) (s : Side) :
    puts (e.script H i s) = match e, s with
      | .zero k, .left => stamped ⟨⟨i, 0⟩, .rpt⟩ (toBytes .big 0) ++
          stamped ⟨⟨i, 0⟩, .rpt⟩ (toBytes .big k) ++ stamped ⟨⟨i, 0⟩, .sync⟩ syncMe
      | _, _ => [] := by
  cases e <;> cases s <;>
    simp [Ending.script, headScript, did, (puts_quiet prepScript_quiet).1]

theorem sent_full {s : Side} {x : Cell Pos Site} (hx : x ∈ puts ((sessionPlan H runs e).full s)) :
    ∃ j, Sent s j x := by
  have hx' : x ∈ puts (sessionScript H s 0 runs ++ e.script H runs.length s) := hx
  rw [puts_append, List.mem_append] at hx'
  rcases hx' with hx' | hx'
  · exact sent_session runs 0 hx'
  · rw [puts_ending] at hx'
    cases e with
    | done => cases s <;> cases hx'
    | refused => cases s <;> cases hx'
    | zero k =>
      cases s with
      | right => cases hx'
      | left =>
        rcases List.mem_append.mp hx' with hx' | hx'
        · rcases List.mem_append.mp hx' with hx' | hx'
          · exact ⟨_, Or.inl ⟨rfl, mem_stamped hx'⟩⟩
          · exact ⟨_, Or.inl ⟨rfl, mem_stamped hx'⟩⟩
        · exact ⟨_, Or.inr (Or.inl (mem_stamped hx'))⟩

theorem countP_full (j : Nat) (s : Side) :
    (puts ((sessionPlan H runs e).full s)).countP (ofSync j) ≤ 6 := by
  show (puts (sessionScript H s 0 runs ++ e.script H runs.length s)).countP (ofSync j) ≤ 6
  rw [puts_append, List.countP_append, countP_session, puts_ending]
  have hend : ∀ (l : List (Cell Pos Site)), l = [] → l.countP (ofSync j) = 0 := by
    rintro l rfl
    rfl
  cases e with
  | done => cases s <;> (rw [hend _ rfl]; split_ifs <;> omega)
  | refused => cases s <;> (rw [hend _ rfl]; split_ifs <;> omega)
  | zero k =>
    cases s with
    | right => rw [hend _ rfl]; split_ifs <;> omega
    | left =>
      simp only [List.countP_append, countP_stamped, Stamp.mk.injEq, reduceCtorEq, and_false,
        if_false, Pos.mk.injEq, and_true, syncMe, List.length_cons, List.length_nil]
      split_ifs <;> omega

/-- Bytes of the same rank in the two directions are of the synchronisation of one run. -/
theorem ofSync_of_rank {s : Side} {x y : Cell Pos Site} {i j : Nat} (hx : Sent s i x)
    (hy : Sent s.other j y) (h : rank s.other y = rank s x) : ofSync i y := by
  obtain ⟨hrun, hphase⟩ : y.stamp.pos.run = x.stamp.pos.run ∧
      phase s.other y.stamp = phase s x.stamp := by
    simpa [rank] using h
  rw [hx.run, hy.run] at hrun
  subst hrun
  rcases hy with ⟨hs, hy⟩ | hy | ⟨k, hy⟩ <;> rcases hx with ⟨hs', hx⟩ | hx | ⟨k', hx⟩ <;>
    rw [hx, hy] at hphase <;> cases s <;>
    simp_all [phase, Side.other, ofSync] <;> omega

/-- **A session is in order** as soon as both streams have room for six bytes: its scripts span
    the ranks from bottom to top, and the only bytes of one rank in both directions are those of
    two synchronisation strings. -/
theorem timely {D : Discipline Site} (hcap : ∀ s, 6 ≤ D.cap s) :
    (sessionPlan H runs e).Timely D rank where
  ordered s := by
    have h := (spans_session H s runs 0).append (spans_ending H s runs.length e)
      (lev_le.mpr (by omega))
    rw [← List.append_assoc] at h
    exact h.sorted
  window s x hx := by
    obtain ⟨i, hx⟩ := sent_full hx
    refine le_trans (Nat.cast_le.mpr ?_) (hcap s.other)
    rw [Plan.gots_whole, ← List.countP_eq_length_filter]
    refine le_trans (List.countP_mono_left fun y hy h => ?_) (countP_full i s.other)
    obtain ⟨j, hy⟩ := sent_full hy
    exact ofSync_of_rank hx hy (by simpa using h)
  tail_cap s := by
    refine le_trans (Nat.cast_le.mpr ?_) (hcap s)
    cases e <;> cases s <;> simp [sessionPlan, Ending.tail, syncMe]
  cap_pos s := le_trans (by decide) (hcap s)

end NetPipe.Tcp
