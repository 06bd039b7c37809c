/-
  `ibv.c`: receives that an event thread reports through one flag.

  The thread polls the completion queue and sets `receive_complete` for every completion, waiting
  before that until the previous one has been taken note of.  `RecvData` waits for the flag.  It is
  set back by `PrepareToReceive`, which `run_iters` calls once ahead of the loop if at all, and by
  `RecvData` itself, in prepost-burst mode only.

  1. **The two threads** (`Step`), a run being one call of `run_iters` from some state of the flag,
     of the event thread and of the receive queue on.  Only a posted receive can complete, and the
     one place a run posts from is `PrepareToReceive`; that it posts first and clears the flag then
     is two steps.

  2. **Where receives are counted** (`Counted`).  The load-bearing invariant gives every completion
     retrieved in the run one of three places: a receive that has set back the flag, the flag, the
     hand of the thread.  So `RecvData` cannot get ahead as long as each one sets back the flag it
     has seen, or there is one only.

  3. **Where no completion can come** (`Silent`): the flag stays clear, and `RecvData` does not
     return at all.

  4. **Everywhere else** a run can get ahead of the completions (`exists_ahead`): by a flag or a
     completion from before the run, or by taking the first completion for the second one as well.
-/
import Mathlib.Logic.Relation

namespace NetPipe.Ibv

/-! ## The two threads -/

/-- Where the event thread is. -/
inductive Pc where
  /-- `ibv_get_cq_event`. -/
  | event
  /-- `ibv_poll_cq`, in `event_handler`. -/
  | poll
  /-- `if(receive_complete == 1)`; a completion has been retrieved. -/
  | check
  /-- `while(receive_complete != 0)`. -/
  | spin
  /-- `receive_complete = 1`. -/
  | set
  deriving DecidableEq, Repr

/-- The thread has retrieved a completion and not reported it yet. -/
def Pc.holding : Pc → Bool
  | .event | .poll => false
  | .check | .spin | .set => true

/-- Where the main thread is. -/
inductive Main where
  /-- `PrepareToReceive`, where it is called. -/
  | prepare
  /-- In `PrepareToReceive`, behind `ibv_post_recv`. -/
  | posted
  /-- `n` iterations to go; with one to go, the loop at the beginning of `RecvData`. -/
  | recv (n : Nat)
  /-- Behind that loop, with `n` iterations to go after this one. -/
  | clear (n : Nat)
  /-- The process is over. -/
  | exited
  deriving DecidableEq, Repr

/-- What a run depends on. -/
structure Run where
  asyncReceive : Bool
  preburst : Bool
  nrepeat : Nat
  deriving DecidableEq, Repr

/-- Both threads, the flag, and what is counted in a run. -/
structure State where
  receiveComplete : Int
  /-- `none` where the event thread is over. -/
  handler : Option Pc
  main : Main
  /-- Receives that have been posted, and whose completion has not been retrieved. -/
  posted : Nat
  /-- Completions retrieved by `event_handler`. -/
  retrieved : Nat
  /-- Calls of `RecvData` that have returned. -/
  returned : Nat
  deriving DecidableEq, Repr

/-- A run about to begin. -/
def start (flag : Int) (pc : Option Pc) (posted : Nat) : State := ⟨flag, pc, .prepare, posted, 0, 0⟩

/-- One step of either thread. -/
inductive Step (r : Run) (s : State) : State → Prop where
  /-- An event; `event_handler` is called. -/
  | event : s.handler = some .event → s.main ≠ .exited →
      Step r s { s with handler := some .poll }
  /-- Failed to get CQ event. -/
  | noEvent : s.handler = some .event → s.main ≠ .exited → Step r s { s with handler := none }
  /-- Empty completion queue; the next notification is requested. -/
  | empty : s.handler = some .poll → s.main ≠ .exited →
      Step r s { s with handler := some .event }
  /-- Error in event_handler. -/
  | error : s.handler = some .poll → s.main ≠ .exited →
      Step r s { s with handler := none, main := .exited }
  /-- Retrieved work completion, of the receive posted first. -/
  | retrieved {m} : s.handler = some .poll → s.main ≠ .exited → s.posted = m + 1 →
      Step r s { s with handler := some .check, posted := m, retrieved := s.retrieved + 1 }
  | check : s.handler = some .check → s.main ≠ .exited →
      Step r s { s with handler := some (if s.receiveComplete = 1 then .spin else .set) }
  | spin : s.handler = some .spin → s.main ≠ .exited →
      Step r s { s with handler := some (if s.receiveComplete ≠ 0 then .spin else .set) }
  | set : s.handler = some .set → s.main ≠ .exited →
      Step r s { s with handler := some .poll, receiveComplete := 1 }
  /-- `ibv_post_recv`. -/
  | post : s.main = .prepare → r.asyncReceive = true →
      Step r s { s with main := .posted, posted := s.posted + 1 }
  /-- Error posting recv request. -/
  | notPosted : s.main = .prepare → r.asyncReceive = true →
      Step r s { s with handler := none, main := .exited }
  /-- `receive_complete = 0`, and `PrepareToReceive` returns. -/
  | prepared : s.main = .posted →
      Step r s { s with main := .recv r.nrepeat, receiveComplete := 0 }
  /-- `PrepareToReceive` is not called. -/
  | unprepared : s.main = .prepare → r.asyncReceive = false →
      Step r s { s with main := .recv r.nrepeat }
  /-- `while( receive_complete == 0 )`. -/
  | recv {n} : s.main = .recv (n + 1) →
      Step r s { s with main := if s.receiveComplete = 0 then .recv (n + 1) else .clear n }
  /-- `if( p->preburst ) receive_complete = 0`, and `RecvData` returns. -/
  | clear {n} : s.main = .clear n →
      Step r s { s with
        main := .recv n
        receiveComplete := if r.preburst then 0 else s.receiveComplete
        returned := s.returned + 1 }

/-- Any number of steps. -/
abbrev Steps (r : Run) : State → State → Prop := Relation.ReflTransGen (Step r)

/-! ## Completions and receives -/

/-- The completion the event thread has not reported yet. -/
def State.held (s : State) : Nat := (s.handler.any Pc.holding).toNat

/-- The completion the flag stands for. -/
def State.flagged (s : State) : Nat := if s.receiveComplete = 0 then 0 else 1

section counted

variable {r : Run} {s s' : State}

/-- What a step of the event thread does to the counts, and what the main thread sees of it. -/
structure Handled (s s' : State) : Prop where
  main : s'.main = s.main
  returned : s'.returned = s.returned
  retrieved : s.retrieved ≤ s'.retrieved
  flagged : s.flagged ≤ s'.flagged
  held : s'.held + s.retrieved ≤ s.held + s'.retrieved
  total : s'.held + s'.flagged + s.retrieved ≤ s.held + s.flagged + s'.retrieved

theorem held_eq {pc : Pc} (h : s.handler = some pc) : s.held = pc.holding.toNat := by
  rw [State.held, h]
  rfl

theorem flagged_le : s.flagged ≤ 1 := by
  rw [State.flagged]
  split <;> omega

/-- A step that leaves the flag alone. -/
theorem Handled.of_same (pc' : Option Pc) (posted' retrieved' : Nat)
    (hle : s.retrieved ≤ retrieved')
    (hheld : (pc'.any Pc.holding).toNat + s.retrieved ≤ s.held + retrieved') :
    Handled s { s with handler := pc', posted := posted', retrieved := retrieved' } := by
  refine ⟨rfl, rfl, hle, Nat.le_refl _, hheld, ?_⟩
  show (pc'.any Pc.holding).toNat + s.flagged + s.retrieved ≤ s.held + s.flagged + retrieved'
  omega

/-- **Everything a step can do.** -/
theorem Step.cases (h : Step r s s') :
    Handled s s' ∨
    s'.main = .exited ∧ s'.returned = s.returned ∧ s'.retrieved = s.retrieved ∨
    (s.main = .prepare ∧ r.asyncReceive = true ∧
      s' = { s with main := .posted, posted := s.posted + 1 }) ∨
    ((s.main = .posted ∧ s'.receiveComplete = 0 ∨
        s.main = .prepare ∧ r.asyncReceive = false ∧ s'.receiveComplete = s.receiveComplete) ∧
      s' = { s with main := .recv r.nrepeat, receiveComplete := s'.receiveComplete }) ∨
    (∃ n, s.main = .recv (n + 1) ∧
      s' = { s with main := if s.receiveComplete = 0 then .recv (n + 1) else .clear n }) ∨
    ∃ n, s.main = .clear n ∧
      s' = { s with
        main := .recv n
        receiveComplete := if r.preburst then 0 else s.receiveComplete
        returned := s.returned + 1 } := by
  cases h with
  | event hh =>
    refine Or.inl (.of_same _ _ _ (Nat.le_refl _) ?_)
    rw [held_eq hh]
    exact Nat.le_refl _
  | noEvent hh =>
    refine Or.inl (.of_same _ _ _ (Nat.le_refl _) ?_)
    rw [held_eq hh]
    exact Nat.le_refl _
  | empty hh =>
    refine Or.inl (.of_same _ _ _ (Nat.le_refl _) ?_)
    rw [held_eq hh]
    exact Nat.le_refl _
  | error hh => exact Or.inr (Or.inl ⟨rfl, rfl, rfl⟩)
  | retrieved hh =>
    refine Or.inl (.of_same _ _ _ (Nat.le_succ _) ?_)
    rw [held_eq hh]
    show 1 + s.retrieved ≤ 0 + (s.retrieved + 1)
    omega
  | check hh =>
    refine Or.inl (.of_same _ _ _ (Nat.le_refl _) ?_)
    rw [held_eq hh]
    split <;> exact Nat.le_refl _
  | spin hh =>
    refine Or.inl (.of_same _ _ _ (Nat.le_refl _) ?_)
    rw [held_eq hh]
    split <;> exact Nat.le_refl _
  | set hh =>
    -- the flag takes over from the thread
    have hheld := held_eq hh
    refine Or.inl ⟨rfl, rfl, Nat.le_refl _, flagged_le, ?_, ?_⟩
    · rw [hheld]
      show 0 + s.retrieved ≤ 1 + s.retrieved
      omega
    · rw [hheld]
      show 0 + 1 + s.retrieved ≤ 1 + s.flagged + s.retrieved
      omega
  | post hm ha => exact Or.inr (Or.inr (Or.inl ⟨hm, ha, rfl⟩))
  | notPosted hm ha => exact Or.inr (Or.inl ⟨rfl, rfl, rfl⟩)
  | prepared hm => exact Or.inr (Or.inr (Or.inr (Or.inl ⟨Or.inl ⟨hm, rfl⟩, rfl⟩)))
  | unprepared hm ha => exact Or.inr (Or.inr (Or.inr (Or.inl ⟨Or.inr ⟨hm, ha, rfl⟩, rfl⟩)))
  | recv hm => exact Or.inr (Or.inr (Or.inr (Or.inr (Or.inl ⟨_, hm, rfl⟩))))
  | clear hm => exact Or.inr (Or.inr (Or.inr (Or.inr (Or.inr ⟨_, hm, rfl⟩))))

/-- What keeps the receives behind the completions, with `n` iterations to go: the completions
    stand for the receives that have set back the flag, the flag and what the thread holds; and
    where the flag is not set back there is one receive, which has seen it. -/
structure Owed (r : Run) (s : State) (n : Nat) : Prop where
  counted : (if r.preburst then s.returned else 0) + s.held + s.flagged ≤ s.retrieved
  once : r.preburst = false → s.returned + n ≤ 1 ∧ s.returned ≤ s.flagged

/-- **The invariant**, by where the main thread is. -/
def Counted (r : Run) (s : State) : Prop :=
  match s.main with
  | .prepare => s.returned = 0 ∧
      s.held + (if r.asyncReceive then 0 else s.flagged) ≤ s.retrieved
  | .posted => s.returned = 0 ∧ s.held ≤ s.retrieved
  | .recv n => Owed r s n
  | .clear n => s.flagged = 1 ∧ Owed r s (n + 1)
  | .exited => s.returned ≤ s.retrieved

theorem Owed.le {n : Nat} (h : Owed r s n) : s.returned ≤ s.retrieved := by
  have hcounted := h.counted
  cases hp : r.preburst with
  | true =>
    rw [hp, if_pos rfl] at hcounted
    omega
  | false =>
    rw [hp, if_neg Bool.false_ne_true] at hcounted
    have honce := h.once hp
    omega

theorem Counted.le (h : Counted r s) : s.returned ≤ s.retrieved := by
  unfold Counted at h
  split at h
  · omega
  · omega
  · exact h.le
  · exact h.2.le
  · exact h

/-- A step of the event thread. -/
theorem Owed.handled {n : Nat} (h : Owed r s n) (hs : Handled s s') : Owed r s' n := by
  have hcounted := h.counted
  have htotal := hs.total
  have hflag := hs.flagged
  refine ⟨?_, ?_⟩
  · rw [hs.returned]
    omega
  · intro hp
    have honce := h.once hp
    rw [hs.returned]
    omega

/-- `RecvData` returns: it has seen the flag, and sets it back or is the only one. -/
theorem Owed.returns {n : Nat} (h : Owed r s (n + 1)) (hflag : s.flagged = 1) :
    Owed r { s with
      main := .recv n
      receiveComplete := if r.preburst then 0 else s.receiveComplete
      returned := s.returned + 1 } n := by
  have hcounted := h.counted
  cases hp : r.preburst with
  | true =>
    rw [hp, if_pos rfl] at hcounted
    refine ⟨?_, fun hp' => absurd (hp.symm.trans hp') (by decide)⟩
    rw [hp, if_pos rfl]
    show s.returned + 1 + s.held + 0 ≤ s.retrieved
    omega
  | false =>
    obtain ⟨honce, -⟩ := h.once hp
    rw [hp, if_neg Bool.false_ne_true] at hcounted
    refine ⟨?_, fun _ => ⟨?_, ?_⟩⟩
    · rw [hp, if_neg Bool.false_ne_true]
      exact hcounted
    · show s.returned + 1 + n ≤ 1
      omega
    · show s.returned + 1 ≤ s.flagged
      omega

/-- A step of the event thread, wherever the main thread is. -/
theorem Counted.handled (h : Counted r s) (hs : Handled s s') : Counted r s' := by
  have hretr := hs.retrieved
  have htotal := hs.total
  have hheld := hs.held
  unfold Counted at h ⊢
  rw [hs.main]
  split at h
  · refine ⟨hs.returned.trans h.1, ?_⟩
    have hcounted := h.2
    -- the flag counts unless it is going to be cleared
    split at hcounted
    · rw [if_pos ‹_›]
      omega
    · rw [if_neg ‹_›]
      omega
  · exact ⟨hs.returned.trans h.1, by omega⟩
  · exact h.handled hs
  · exact ⟨Nat.le_antisymm flagged_le (h.1 ▸ hs.flagged), h.2.handled hs⟩
  · rw [hs.returned]
    omega

/-- The loop begins, with the flag clear or counting as it did. -/
theorem Counted.begins (h : Counted r s) (hr : r.preburst = true ∨ r.nrepeat ≤ 1) {flag : Int}
    (hm : s.main = .posted ∧ flag = 0 ∨
      s.main = .prepare ∧ r.asyncReceive = false ∧ flag = s.receiveComplete) :
    Owed r { s with main := .recv r.nrepeat, receiveComplete := flag } r.nrepeat := by
  have hzero : s.returned = 0 ∧ s.held + (if flag = 0 then 0 else 1) ≤ s.retrieved := by
    unfold Counted at h
    rcases hm with ⟨hm, rfl⟩ | ⟨hm, ha, rfl⟩
    · rw [hm] at h
      exact h
    · rw [hm, ha] at h
      exact h
  obtain ⟨hzero, hcounted⟩ := hzero
  refine ⟨?_, fun hp => ⟨?_, ?_⟩⟩
  · show (if r.preburst then s.returned else 0) + s.held + (if flag = 0 then 0 else 1) ≤ s.retrieved
    rw [hzero, ite_self, Nat.zero_add]
    exact hcounted
  · have hone := hr.resolve_left (Bool.eq_false_iff.mp hp)
    show s.returned + r.nrepeat ≤ 1
    omega
  · exact hzero ▸ Nat.zero_le _

/-- One step, by what it does. -/
theorem Counted.step (h : Counted r s) (hr : r.preburst = true ∨ r.nrepeat ≤ 1)
    (hs : Step r s s') : Counted r s' := by
  have hle := h.le
  rcases hs.cases with hs | ⟨hm', hret, hretr⟩ | ⟨hm, ha, rfl⟩ | ⟨hm, heq⟩ | ⟨n, hm, rfl⟩ |
    ⟨n, hm, rfl⟩
  · exact h.handled hs
  · -- the process exits
    unfold Counted
    rw [hm', hret, hretr]
    exact hle
  · -- a receive is posted: the flag is going to be cleared, and does not count before either
    rw [Counted, hm] at h
    obtain ⟨hzero, hcounted⟩ := h
    rw [if_pos ha] at hcounted
    exact ⟨hzero, hcounted⟩
  · rw [heq]
    exact h.begins hr hm
  · -- the flag is tested
    have howed : Owed r s (n + 1) := by
      rw [Counted, hm] at h
      exact h
    by_cases hflag : s.receiveComplete = 0
    · rw [if_pos hflag]
      exact ⟨howed.counted, howed.once⟩
    · rw [if_neg hflag]
      exact ⟨if_neg hflag, howed.counted, howed.once⟩
  · rw [Counted, hm] at h
    obtain ⟨hflag, howed⟩ := h
    exact howed.returns hflag

theorem Counted.steps (h : Counted r s) (hr : r.preburst = true ∨ r.nrepeat ≤ 1)
    (hs : Steps r s s') : Counted r s' := by
  induction hs with
  | refl => exact h
  | tail _ hstep ih => exact ih.step hr hstep

variable {flag : Int} {pc : Option Pc} {posted : Nat}

/-- A run that begins with the flag clear, or cleared, and with nothing held. -/
theorem counted_start (hflag : r.asyncReceive = true ∨ flag = 0)
    (hpc : pc.any Pc.holding = false) : Counted r (start flag pc posted) := by
  refine ⟨rfl, ?_⟩
  show (pc.any Pc.holding).toNat +
    (if r.asyncReceive then 0 else if flag = 0 then 0 else 1) ≤ 0
  rw [hpc]
  rcases hflag with ha | rfl
  · rw [ha]
    exact Nat.le_refl 0
  · simp

/-! ## Runs no completion can come in -/

/-- **The invariant** of such a run: the flag is clear where `RecvData` looks at it, and there is
    no way to set it. -/
structure Silent (r : Run) (s : State) : Prop where
  returned : s.returned = 0
  handler : s.handler = none ∨ r.asyncReceive = false ∧ s.held = 0 ∧ s.posted = 0
  flag : s.receiveComplete = 0 ∨ r.asyncReceive = true ∧ ∀ n, s.main ≠ .recv n
  main : ∀ n, s.main ≠ .clear n

/-- No completion is under way, and none can be. -/
theorem silent_start (hflag : r.asyncReceive = true ∨ flag = 0)
    (hpc : pc.any Pc.holding = false)
    (hsilent : pc = none ∨ r.asyncReceive = false ∧ posted = 0) :
    Silent r (start flag pc posted) where
  returned := rfl
  handler := hsilent.imp id fun ⟨ha, hzero⟩ => ⟨ha, congrArg Bool.toNat hpc, hzero⟩
  flag := hflag.symm.imp id fun ha => ⟨ha, fun n => by simp [start]⟩
  main n := by simp [start]

/-- A step that leaves flag and main thread alone, by a thread that holds nothing. -/
theorem Silent.idle (h : Silent r s) (pc : Pc) {pc' : Option Pc} (hh : s.handler = some pc)
    (hpc' : pc'.any Pc.holding = false) : Silent r { s with handler := pc' } := by
  refine ⟨h.returned, Or.inr ?_, h.flag, h.main⟩
  rcases h.handler with hnone | ⟨ha, -, hzero⟩
  · cases hnone.symm.trans hh
  · exact ⟨ha, congrArg Bool.toNat hpc', hzero⟩

theorem Silent.step (h : Silent r s) (hs : Step r s s') : Silent r s' := by
  have hheld : ∀ pc, s.handler = some pc → pc.holding = false := by
    intro pc hh
    rcases h.handler with hnone | ⟨-, hheld, -⟩
    · cases hnone.symm.trans hh
    · rw [held_eq hh] at hheld
      simpa using hheld
  cases hs with
  | event hh _ => exact h.idle _ hh rfl
  | noEvent hh _ => exact h.idle _ hh rfl
  | empty hh _ => exact h.idle _ hh rfl
  | error hh _ => exact ⟨h.returned, Or.inl rfl, h.flag.imp id (fun h => ⟨h.1, by simp⟩), by simp⟩
  | retrieved hh _ hposted =>
    -- there is nothing to be retrieved
    rcases h.handler with hnone | ⟨-, -, hzero⟩
    · cases hnone.symm.trans hh
    · cases hzero.symm.trans hposted
  | check hh _ => exact absurd (hheld _ hh) (by decide)
  | spin hh _ => exact absurd (hheld _ hh) (by decide)
  | set hh _ => exact absurd (hheld _ hh) (by decide)
  | post hm ha =>
    refine ⟨h.returned, Or.inl ?_, Or.inr ⟨ha, by simp⟩, by simp⟩
    rcases h.handler with hnone | ⟨ha', -⟩
    · exact hnone
    · cases ha.symm.trans ha'
  | notPosted hm ha => exact ⟨h.returned, Or.inl rfl, Or.inr ⟨ha, by simp⟩, by simp⟩
  | prepared hm => exact ⟨h.returned, h.handler, Or.inl rfl, by simp⟩
  | unprepared hm ha =>
    refine ⟨h.returned, h.handler, Or.inl ?_, by simp⟩
    rcases h.flag with hflag | ⟨ha', -⟩
    · exact hflag
    · cases ha.symm.trans ha'
  | @recv n hm =>
    -- `RecvData` goes on waiting
    have hflag : s.receiveComplete = 0 := h.flag.resolve_right fun hne => hne.2 _ hm
    rw [if_pos hflag]
    exact ⟨h.returned, h.handler, Or.inl hflag, by simp⟩
  | clear hm => exact absurd hm (h.main _)

theorem Silent.steps (h : Silent r s) (hs : Steps r s s') : Silent r s' := by
  induction hs with
  | refl => exact h
  | tail _ hstep ih => exact ih.step hstep

/-! ## The receives of a run -/

/-- The receives that have returned and those to come, in all, are those of the run. -/
def InRange (r : Run) (s : State) : Prop :=
  s.returned + (match s.main with
    | .prepare => 0
    | .posted => 0
    | .recv n => n
    | .clear n => n + 1
    | .exited => 0) ≤ r.nrepeat ∧ (s.main = .prepare ∨ s.main = .posted → s.returned = 0)

theorem InRange.le (h : InRange r s) : s.returned ≤ r.nrepeat :=
  Nat.le_trans (Nat.le_add_right ..) h.1

theorem InRange.step (h : InRange r s) (hs : Step r s s') : InRange r s' := by
  have hle := h.le
  rcases hs.cases with hs | ⟨hm', hret, -⟩ | ⟨hm, -, rfl⟩ | ⟨hm, heq⟩ | ⟨n, hm, rfl⟩ | ⟨n, hm, rfl⟩
  · unfold InRange at h ⊢
    rw [hs.main, hs.returned]
    exact h
  · unfold InRange
    rw [hm', hret]
    exact ⟨hle, by simp⟩
  · exact ⟨hle, fun _ => h.2 (Or.inl hm)⟩
  · rw [heq]
    refine ⟨?_, by simp⟩
    show s.returned + r.nrepeat ≤ r.nrepeat
    have hzero := h.2 (hm.symm.imp And.left And.left)
    omega
  · have hrange := h.1
    rw [hm] at hrange
    by_cases hflag : s.receiveComplete = 0
    · rw [if_pos hflag]
      exact ⟨hrange, by simp⟩
    · rw [if_neg hflag]
      exact ⟨hrange, by simp⟩
  · have hrange := h.1
    rw [hm] at hrange
    refine ⟨?_, by simp⟩
    show s.returned + 1 + n ≤ r.nrepeat
    dsimp only at hrange
    omega

theorem InRange.steps (h : InRange r s) (hs : Steps r s s') : InRange r s' := by
  induction hs with
  | refl => exact h
  | tail _ hstep ih => exact ih.step hstep

end counted

/-! ## Runs that get ahead -/

section ahead

variable {r : Run} {s : State}

/-- What the thread holds is reported, once the flag is clear. -/
theorem exists_reported {pc : Pc} (hh : s.handler = some pc) (hpc : pc.holding = true)
    (hm : s.main ≠ .exited) (hflag : s.receiveComplete = 0) :
    Steps r s { s with handler := some .poll, receiveComplete := 1 } := by
  have hset : ∀ {s : State}, s.handler = some .set → s.main ≠ .exited →
      Steps r s { s with handler := some .poll, receiveComplete := 1 } :=
    fun hh hm => .single (.set hh hm)
  cases pc with
  | event => cases hpc
  | poll => cases hpc
  | check =>
    refine .head (.check hh hm) ?_
    rw [hflag]
    exact hset rfl hm
  | spin =>
    refine .head (.spin hh hm) ?_
    rw [hflag]
    exact hset rfl hm
  | set => exact hset hh hm

/-- A completion is retrieved by a thread that holds none. -/
theorem exists_retrieved {pc : Pc} {m : Nat} (hh : s.handler = some pc) (hpc : pc.holding = false)
    (hm : s.main ≠ .exited) (hposted : s.posted = m + 1) :
    Steps r s { s with handler := some .check, posted := m, retrieved := s.retrieved + 1 } := by
  cases pc with
  | event => exact .head (.event hh hm) (.single (.retrieved rfl hm hposted))
  | poll => exact .single (.retrieved hh hm hposted)
  | check => cases hpc
  | spin => cases hpc
  | set => cases hpc

/-- A receive, where the flag is set. -/
theorem received {n : Nat} (hm : s.main = .recv (n + 1)) (hflag : s.receiveComplete ≠ 0) :
    Steps r s { s with
      main := .recv n
      receiveComplete := if r.preburst then 0 else s.receiveComplete
      returned := s.returned + 1 } := by
  refine .head (.recv hm) ?_
  rw [if_neg hflag]
  exact .single (.clear rfl)

/-- The loop begins. -/
theorem begun (r : Run) (flag : Int) (pc : Option Pc) (posted : Nat) :
    Steps r (start flag pc posted) ⟨if r.asyncReceive then 0 else flag, pc, .recv r.nrepeat,
      if r.asyncReceive then posted + 1 else posted, 0, 0⟩ := by
  cases ha : r.asyncReceive with
  | true => exact .head (.post rfl ha) (.single (.prepared rfl))
  | false => exact .single (.unprepared rfl ha)

/-- One receive too many, where the flag is set and all completions have been received. -/
theorem exists_ahead_of_set {n : Nat} (hm : s.main = .recv (n + 1)) (hflag : s.receiveComplete ≠ 0)
    (hle : s.retrieved ≤ s.returned) : ∃ s', Steps r s s' ∧ s'.retrieved < s'.returned :=
  ⟨_, received hm hflag, Nat.lt_succ_of_le hle⟩

/-- A completion of before the run is taken for the first one. -/
theorem exists_ahead_of_held {n : Nat} {pc : Pc} (hm : s.main = .recv (n + 1))
    (hflag : s.receiveComplete = 0) (hh : s.handler = some pc) (hpc : pc.holding = true)
    (hle : s.retrieved ≤ s.returned) : ∃ s', Steps r s s' ∧ s'.retrieved < s'.returned := by
  have hexited : s.main ≠ .exited := by simp [hm]
  obtain ⟨s', hsteps, hlt⟩ := exists_ahead_of_set (r := r)
    (s := { s with handler := some .poll, receiveComplete := 1 }) hm Int.one_ne_zero hle
  exact ⟨s', (exists_reported hh hpc hexited hflag).trans hsteps, hlt⟩

/-- The first completion is taken for the second one, too. -/
theorem exists_ahead_of_two {n m : Nat} {pc : Pc} (hp : r.preburst = false)
    (hm : s.main = .recv (n + 2)) (hflag : s.receiveComplete = 0) (hh : s.handler = some pc)
    (hpc : pc.holding = false) (hposted : s.posted = m + 1) (heq : s.retrieved = s.returned) :
    ∃ s', Steps r s s' ∧ s'.retrieved < s'.returned := by
  have hexited : s.main ≠ .exited := by simp [hm]
  have hretr : Steps r s _ := exists_retrieved hh hpc hexited hposted
  have hset : Steps r { s with handler := some .check, posted := m, retrieved := s.retrieved + 1 }
      _ := exists_reported rfl rfl hexited hflag
  have hrecv := received (r := r) (s := { s with
    handler := some .poll, posted := m, retrieved := s.retrieved + 1, receiveComplete := 1 }) hm
    Int.one_ne_zero
  rw [hp, if_neg Bool.false_ne_true] at hrecv
  obtain ⟨s', hsteps, hlt⟩ := exists_ahead_of_set (r := r) (s := { s with
    handler := some .poll, posted := m, retrieved := s.retrieved + 1, receiveComplete := 1
    main := .recv (n + 1), returned := s.returned + 1 }) rfl Int.one_ne_zero (by simp [heq])
  exact ⟨s', hretr.trans (hset.trans (hrecv.trans hsteps)), hlt⟩

/-- **Every other run** can get ahead of the completions. -/
theorem exists_ahead {flag : Int} {pc : Option Pc} {posted : Nat} (hn : r.nrepeat ≠ 0)
    (hcond : ¬ ((r.asyncReceive = true ∨ flag = 0) ∧ pc.any Pc.holding = false ∧
      (r.preburst = true ∨ r.nrepeat ≤ 1 ∨ pc = none ∨ r.asyncReceive = false ∧ posted = 0))) :
    ∃ s, Steps r (start flag pc posted) s ∧ s.retrieved < s.returned := by
  obtain ⟨n, hn⟩ := Nat.exists_eq_succ_of_ne_zero hn
  have hbegun := begun r flag pc posted
  rw [hn] at hbegun
  by_cases hflag : r.asyncReceive = true ∨ flag = 0
  · have hclear : (if r.asyncReceive then 0 else flag) = 0 := by
      rcases hflag with ha | hz
      · rw [if_pos ha]
      · rw [hz, ite_self]
    rw [hclear] at hbegun
    cases pc with
    | none => exact absurd ⟨hflag, rfl, Or.inr (Or.inr (Or.inl rfl))⟩ hcond
    | some pc =>
      cases hpc : pc.holding with
      | true =>
        obtain ⟨s, hsteps, hlt⟩ := exists_ahead_of_held (r := r)
          (s := ⟨0, some pc, .recv (n + 1), _, 0, 0⟩) rfl rfl rfl hpc (Nat.le_refl 0)
        exact ⟨s, hbegun.trans hsteps, hlt⟩
      | false =>
        -- two receives, which leave the flag alone, and one that is posted
        have hrest : ¬ (r.preburst = true ∨ r.nrepeat ≤ 1 ∨ some pc = none ∨
            r.asyncReceive = false ∧ posted = 0) := fun h => hcond ⟨hflag, hpc, h⟩
        simp only [not_or, reduceCtorEq, not_false_eq_true, true_and] at hrest
        obtain ⟨hp, hlt, hposted⟩ := hrest
        obtain ⟨n, rfl⟩ : ∃ m, n = m + 1 := ⟨n - 1, by omega⟩
        obtain ⟨m, hm⟩ : ∃ m, (if r.asyncReceive then posted + 1 else posted) = m + 1 := by
          cases ha : r.asyncReceive with
          | true => exact ⟨posted, rfl⟩
          | false => exact Nat.exists_eq_succ_of_ne_zero fun hzero => hposted ⟨ha, hzero⟩
        obtain ⟨s, hsteps, hlt⟩ := exists_ahead_of_two (r := r)
          (s := ⟨0, some pc, .recv (n + 2), _, 0, 0⟩) (Bool.eq_false_iff.mpr hp) rfl rfl rfl hpc hm
          rfl
        exact ⟨s, hbegun.trans hsteps, hlt⟩
  · -- the flag of before the run is still set
    obtain ⟨ha, hz⟩ := not_or.mp hflag
    rw [if_neg ha] at hbegun
    obtain ⟨s, hsteps, hlt⟩ := exists_ahead_of_set (r := r)
        (s := ⟨flag, pc, .recv (n + 1), _, 0, 0⟩) rfl hz (Nat.le_refl 0)
    exact ⟨s, hbegun.trans hsteps, hlt⟩

end ahead

/-- **Receives are counted** where the flag stands for nothing at the start, the thread holds
    nothing, and `RecvData` sets back the flag, is called once, or has no completion to see: the
    thread is over, or no receive is outstanding. -/
theorem receives_counted_iff (r : Run) (flag : Int) (pc : Option Pc) (posted : Nat) :
    (∀ s, Steps r (start flag pc posted) s → s.returned ≤ s.retrieved) ↔
      r.nrepeat = 0 ∨ (r.asyncReceive = true ∨ flag = 0) ∧ pc.any Pc.holding = false ∧
        (r.preburst = true ∨ r.nrepeat ≤ 1 ∨ pc = none ∨
          r.asyncReceive = false ∧ posted = 0) := by
  constructor
  · intro hall
    by_cases hn : r.nrepeat = 0
    · exact Or.inl hn
    refine Or.inr (Decidable.byContradiction ?_)
    intro hcond
    obtain ⟨s, hsteps, hlt⟩ := exists_ahead hn hcond
    exact absurd (hall s hsteps) (Nat.not_le.mpr hlt)
  · rintro hcond s hs
    rcases hcond with hn | ⟨hflag, hpc, hp | hone | hsilent⟩
    · have hrange : InRange r (start flag pc posted) := ⟨Nat.zero_le _, fun _ => rfl⟩
      have hle := (hrange.steps hs).le
      omega
    · exact ((counted_start hflag hpc).steps (Or.inl hp) hs).le
    · exact ((counted_start hflag hpc).steps (Or.inr hone) hs).le
    · have hzero := ((silent_start hflag hpc hsilent).steps hs).returned
      omega

/-- The first run of a process, with two receives: the second one returns at once. -/
theorem receives_miscounted :
    ¬ ∀ (r : Run) (s : State), Steps r (start 0 (some .event) 0) s → s.returned ≤ s.retrieved := by
  intro hall
  obtain ⟨s, hsteps, hlt⟩ := @exists_ahead ⟨true, false, 2⟩ 0 (some .event) 0 (by decide)
    (by decide)
  exact absurd (hall _ s hsteps) (Nat.not_le.mpr hlt)

end NetPipe.Ibv
