/-
  Two stream-connected programs, one of which may be over before the other.

  `Lib.Duplex` has no end of a stream: a party that has returned just does nothing any more.  That
  is right for a call that returns into a process that goes on.  Where the process itself ends,
  its end of the connection is closed, and the other one gets to know (`Loss`): a `read` answers 0
  once the stream is used up, or an error where bytes were left unread at the other end, and a
  `write` fails or falls short.

  1. `ClosingStep` — a step of `Lib.Duplex`, or a loss.  It goes down like a step, so executions are
     finite here too (`exists_closed`).

  2. `LeavesAt` — a program that leaves the process, with this status, at every call from this site
     that finds the stream used up.  It is a property of the program's tree, kept by whatever the
     party does (`steps_leavesAt`).

  3. **What a loss can hit** (`Inv.loss`).  Let both parties keep to a plan (`Lib.Script`) that
     leaves nothing in the streams.  The load-bearing step: a party that is over has its script
     behind it, so by the flow of the streams there is nothing the other one has still to put or to
     get.  Hence no write is pending and no byte unread, and what the loss hits is a read that was
     to wait for ever.  Before that moment the execution is one of `Lib.Duplex`.
-/
import NetPipe.Lib.Script

namespace Duplex

open Process

variable {π σ Ev α : Type}

/-! ## Steps with closed ends -/

/-- The process of the party is over: it has returned with a result that is final, left,
    or crashed. -/
def Party.Over (final : α → Prop) (p : Party π σ Ev α) : Prop :=
  (∃ a, p.Returned a ∧ final a) ∨ p.Aborted

section closing

variable (D : Discipline σ) (adv : Ev → π → π) (final : α → Prop)

/-- What becomes of a call where the process across is over. -/
inductive Loss : Config π σ Ev α → Config π σ Ev α → Prop where
  /-- The stream is used up, and nobody writes to it. -/
  | eof {c s site n k p l} : (c.party s.other).Over final →
      c.party s = ⟨.io (.read site n) k, 0, p, l⟩ → c.chan s.other = [] →
      Loss c ⟨Function.update c.party s ⟨k (some []), 0, p, l⟩, c.chan⟩
  /-- The process across has left bytes unread: the connection is reset. -/
  | reset {c s site n k p l} : (c.party s.other).Over final →
      c.party s = ⟨.io (.read site n) k, 0, p, l⟩ → c.chan s ≠ [] →
      Loss c ⟨Function.update c.party s ⟨k none, 0, p, l⟩, c.chan⟩
  /-- Nobody will read what is still to be queued. -/
  | broken {c s site bs k q p l} : (c.party s.other).Over final →
      c.party s = ⟨.io (.write site bs) k, q, p, l⟩ → q < bs.length →
      Loss c ⟨Function.update c.party s ⟨k (if q = 0 then none else some q), 0, p, l⟩, c.chan⟩

/-- One step of either party, or a loss. -/
def ClosingStep (c c' : Config π σ Ev α) : Prop := Step D adv c c' ∨ Loss final c c'

/-- Any number of steps. -/
abbrev ClosingSteps : Config π σ Ev α → Config π σ Ev α → Prop :=
  Relation.ReflTransGen (ClosingStep D adv final)

/-- No step is possible. -/
def Closed (c : Config π σ Ev α) : Prop := ∀ c', ¬ ClosingStep D adv final c c'

variable {D adv final}

theorem Closed.stuck {c : Config π σ Ev α} (h : Closed D adv final c) : Stuck D adv c :=
  fun c' hc' => h c' (Or.inl hc')

/-- Losses go down, too. -/
theorem Loss.below {c c' : Config π σ Ev α} (h : Loss final c c') :
    ∃ s p', Party.Below p' (c.party s) ∧ c'.party = Function.update c.party s p' := by
  cases h with
  | @eof s site n k p l _ hp _ =>
    refine ⟨s, _, ?_, rfl⟩
    rw [hp]
    exact Prod.Lex.left _ _ (.io _ k _)
  | @reset s site n k p l _ hp _ =>
    refine ⟨s, _, ?_, rfl⟩
    rw [hp]
    exact Prod.Lex.left _ _ (.io _ k _)
  | @broken s site bs k q p l _ hp _ =>
    refine ⟨s, _, ?_, rfl⟩
    rw [hp]
    exact Prod.Lex.left _ _ (.io _ k _)

theorem closing_wf : WellFounded fun c' c : Config π σ Ev α => ClosingStep D adv final c c' :=
  wf_of_below fun _ _ h => h.elim Step.below Loss.below

/-- A program that is not at a request makes no move. -/
theorem PStep.request {p p' : Party π σ Ev α} {m : Move π σ} (h : PStep D adv p m p') :
    ¬ p.Aborted ∧ ∀ a, ¬ p.Returned a := by
  cases h <;> simp [Party.Aborted, Party.Returned]

/-- Where both programs are through, nothing moves any more. -/
theorem closed_of_through {c : Config π σ Ev α}
    (h : ∀ s, (∃ a, (c.party s).Returned a) ∨ (c.party s).Aborted) : Closed D adv final c := by
  have hio : ∀ s o k, (c.party s).prog ≠ .io o k := by
    intro s o k hp
    rcases h s with ⟨a, ha⟩ | ⟨_, _, ha⟩ | ha <;> exact absurd (hp.symm.trans ha) (by simp)
  rintro c' (hstep | hloss)
  · obtain ⟨s, m, p', hp, -⟩ := step_cases hstep
    rcases h s with ⟨a, ha⟩ | ha
    · exact hp.request.2 a ha
    · exact hp.request.1 ha
  · cases hloss with
    | eof _ hp _ => exact hio _ _ _ (congrArg Party.prog hp)
    | reset _ hp _ => exact hio _ _ _ (congrArg Party.prog hp)
    | broken _ hp _ => exact hio _ _ _ (congrArg Party.prog hp)

/-- From everywhere some execution can be driven to its end. -/
theorem exists_closed (c : Config π σ Ev α) :
    ∃ c', ClosingSteps D adv final c c' ∧ Closed D adv final c' :=
  exists_last closing_wf c

end closing

/-! ## Programs that leave the process at the end of the stream -/

/-- At every call from `site` that finds the stream used up, the program leaves the process with
    this status. -/
def LeavesAt (site : σ) (code : Int) : Prog σ Ev α → Prop
  | .ret _ => True
  | .exit _ _ => True
  | .fault => True
  | .emit _ k => LeavesAt site code k
  | .malloc _ k => ∀ r, LeavesAt site code (k r)
  | .clock k => ∀ t, LeavesAt site code (k t)
  | .io (.write _ _) k => ∀ r, LeavesAt site code (k r)
  | .io (.read s _) k =>
    (s = site → ∃ msg, k (some []) = .exit code msg) ∧ ∀ r, LeavesAt site code (k r)

section leavesAt

variable {site : σ} {code : Int} {β : Type}

/-- Sequencing. -/
theorem LeavesAt.bind {p : Prog σ Ev α} {f : α → Prog σ Ev β} (h : LeavesAt site code p)
    (hf : ∀ a, LeavesAt site code (f a)) : LeavesAt site code (p.bind f) := by
  induction p with
  | ret a => exact hf a
  | exit c msg => trivial
  | fault => trivial
  | emit e k ih => exact ih h
  | malloc n k ih => exact fun r => ih r (h r)
  | clock k ih => exact fun t => ih t (h t)
  | io o k ih =>
    cases o with
    | write s bs => exact fun r => ih r (h r)
    | read s n =>
      refine ⟨fun hs => ?_, fun r => ih r (h.2 r)⟩
      obtain ⟨msg, hmsg⟩ := h.1 hs
      refine ⟨msg, ?_⟩
      show (k (some [])).bind f = .exit code msg
      rw [hmsg]
      rfl

/-- Plain data ask for nothing. -/
theorem leavesAt_ofOption (o : Option α) :
    LeavesAt site code (Proc.ofOption o : Prog σ Ev α) := by
  cases o <;> trivial

variable {D : Discipline σ} {adv : Ev → π → π}

theorem PStep.leavesAt {p p' : Party π σ Ev α} {m : Move π σ} (h : PStep D adv p m p')
    (hp : LeavesAt site code p.prog) : LeavesAt site code p'.prog := by
  cases h with
  | emit => exact hp
  | malloc _ => exact hp _
  | clock t => exact hp t
  | queue _ _ => exact hp
  | wrote _ => exact hp _
  | wroteShort _ _ _ => exact hp _
  | read _ _ => exact hp.2 _

/-- Whatever the parties do, a program that is such stays such. -/
theorem steps_leavesAt {c c' : Config π σ Ev α} {s : Side} (h : Steps D adv c c')
    (hc : LeavesAt site code (c.party s).prog) : LeavesAt site code (c'.party s).prog := by
  induction h with
  | refl => exact hc
  | tail _ hstep ih =>
    obtain ⟨t, m, p', hp, hparty, -, -⟩ := step_cases hstep
    rw [hparty]
    rcases Side.eq_or_eq_other t s with rfl | rfl
    · rw [Function.update_self]
      exact hp.leavesAt ih
    · rw [Function.update_of_ne (Side.other_ne t)]
      exact ih

end leavesAt

/-! ## What a loss can hit -/

section loss

variable {D : Discipline σ} {adv : Ev → π → π} {P : Plan π σ Ev} {Post : Side → α → Prop}
  {c c' : Config π σ Ev α} {script : Side → List (Act π σ Ev)} {final : α → Prop}

/-- A party that is over has its script behind it. -/
theorem Inv.ended (hi : Inv D adv P Post c script) (hD : ¬ D.allocFails) {s : Side}
    (h : (c.party s).Over final) :
    script s = [] ∧ ∃ a, (c.party s).Returned a ∧ Post s a ∧ final a := by
  rcases h with ⟨a, ha, hover⟩ | h
  · exact ⟨(hi.returned ha).1, a, ha, (hi.returned ha).2, hover⟩
  · exact absurd h (hi.not_aborted hD s)

/-- A party at a read, with nothing to get any more: it was to wait there. -/
theorem Fits.waits_of_gots {waits : Stamp π σ → Prop} {Post : α → Prop} {site : σ} {n q : Nat}
    {k : Option (List UInt8) → Prog σ Ev α} {p : π} {l s : List (Act π σ Ev)}
    (h : Fits D adv waits Post ⟨.io (.read site n) k, q, p, l⟩ s) (hs : gots s = []) :
    s = [] ∧ waits ⟨p, site⟩ := by
  rcases h.2 with h | ⟨hn, xs, rest, hlen, hxs, -⟩
  · exact h
  · have hs' : s = xs.map (.got ⟨p, site⟩) ++ rest := hxs
    rw [hs', gots_append, gots_map_got] at hs
    have hnil := (List.append_eq_nil_iff.mp hs).1
    rw [hnil] at hlen
    exact absurd hlen (by simp; omega)

/-- A party at a write that is not all queued has something to put. -/
theorem Fits.puts_ne_nil {waits : Stamp π σ → Prop} {Post : α → Prop} {site : σ}
    {bs : List UInt8} {q : Nat} {k : Option Nat → Prog σ Ev α} {p : π} {l s : List (Act π σ Ev)}
    (h : Fits D adv waits Post ⟨.io (.write site bs) k, q, p, l⟩ s) (hq : q < bs.length) :
    puts s ≠ [] := by
  obtain ⟨-, rest, hs, -, -⟩ := h
  intro hnil
  have hs' : s = (stamped ⟨p, site⟩ (bs.drop q)).map .put ++ rest := hs
  rw [hs', puts_append, puts_map_put] at hnil
  have hlen := congrArg List.length (List.append_eq_nil_iff.mp hnil).1
  rw [stamped_length, List.length_drop, List.length_nil] at hlen
  omega

/-- **What a loss can hit**: a read that was to wait for ever, when both scripts are behind and
    nothing is under way. -/
theorem Inv.loss (hi : Inv D adv P Post c script) (hD : ¬ D.allocFails)
    (htail : ∀ s, P.tail s = []) (h : Loss final c c') :
    ∃ s site n k p l a, c.party s = ⟨.io (.read site n) k, 0, p, l⟩ ∧
      c'.party = Function.update c.party s ⟨k (some []), 0, p, l⟩ ∧ P.waits s ⟨p, site⟩ ∧
      (c.party s.other).Returned a ∧ Post s.other a ∧ (∀ t, script t = []) ∧
      c'.chan = c.chan ∧ ∀ t, c.chan t = [] := by
  -- across from a party that is over nothing is left to put, and what it was sent has been read
  have hacross : ∀ s, script s.other = [] → c.chan s = [] ∧ puts (script s) = [] := by
    intro s hs
    have hflow := hi.flow s
    rw [hs, htail, gots_nil, List.append_nil] at hflow
    exact List.append_eq_nil_iff.mp hflow
  cases h with
  | @eof s site n k p l hover hp hempty =>
    obtain ⟨hother, a, ha, hpost, -⟩ := hi.ended hD hover
    have hfits := hi.fits s
    rw [hp] at hfits
    have hgots : gots (script s) = [] := by
      have hflow := hi.flow s.other
      rw [Side.other_other, hempty, hother, htail, puts_nil, List.append_nil,
        List.append_nil] at hflow
      exact hflow.symm
    obtain ⟨hscript, hwaits⟩ := hfits.waits_of_gots hgots
    refine ⟨s, site, n, k, p, l, a, hp, rfl, hwaits, ha, hpost, ?_, rfl, ?_⟩
    · intro t
      rcases Side.eq_or_eq_other s t with rfl | rfl
      · exact hscript
      · exact hother
    · intro t
      rcases Side.eq_or_eq_other s t with rfl | rfl
      · exact (hacross t hother).1
      · exact hempty
  | @reset s site n k p l hover hp hunread =>
    exact absurd (hacross s (hi.ended hD hover).1).1 hunread
  | @broken s site bs k q p l hover hp hq =>
    have hfits := hi.fits s
    rw [hp] at hfits
    exact absurd (hacross s (hi.ended hD hover).1).2 (hfits.puts_ne_nil hq)

end loss

end Duplex
