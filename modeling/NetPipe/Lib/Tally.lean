/-
  How many bytes a party has put and got when it returns, whoever is across.

  A script says what a program does with a partner that keeps to its own script.  Where the two do
  not fit together there is no plan to keep to, and less is wanted: that they cannot both come to
  their end.  For this it is enough to count.

  1. `tallyHandler` runs a program against every answer the streams can give and only counts the
     bytes.  What `wp` says of the counts at the end holds of the log of a party in any
     configuration (`tallied_steps`, `tally_returned`).

  2. The bytes one side has put are the bytes the other has got and those under way (`conserved`).
     So when both have returned, with streams that are used up, what the one has put in all is what
     the other has got in all; programs that always put more than is got cannot both return.
-/
import NetPipe.Lib.Script

namespace Duplex

open Process

variable {π σ Ev α : Type}

/-- The handler whose state is the number of bytes put and the number of bytes got. -/
def tallyHandler (Ev : Type) (D : Discipline σ) :
    Handler (StreamOp σ) StreamOp.Res Ev (Nat × Nat) where
  emit _ s Q := Q s
  alloc := D.alloc
  io
    | .write site bs, s, Q => Q (some bs.length) (s.1 + bs.length, s.2) ∧
        (D.short site → ∀ j, 0 < j → j < bs.length → Q (some j) (s.1 + j, s.2))
    | .read _ n, s, Q => ∀ bs, bs ≠ [] → bs.length ≤ n → Q (some bs) (s.1, s.2 + bs.length)
  exit _ _ _ := True
  fault _ := True
  emit_mono hQ h := hQ _ h
  io_mono := by
    intro o s Q Q' hQ h
    cases o with
    | write site bs => exact ⟨hQ _ _ h.1, fun hd j h0 hj => hQ _ _ (h.2 hd j h0 hj)⟩
    | read site n => exact fun bs hne hle => hQ _ _ (h bs hne hle)

variable {D : Discipline σ} {adv : Ev → π → π} {Q : α → Nat × Nat → Prop}

/-- Nothing is ever got back out of the tally. -/
theorem tally_mono {m : Nat} (p : Prog σ Ev α) :
    ∀ s, m ≤ s.2 → wp (tallyHandler Ev D) p (fun _ s => m ≤ s.2) s := by
  induction p with
  | ret a => exact fun s h => h
  | exit c msg => exact fun s h => trivial
  | fault => exact fun s h => trivial
  | emit e k ih => exact fun s h => ih s h
  | malloc n k ih => exact fun s h r _ => ih r s h
  | clock k ih => exact fun s h t => ih t s h
  | io o k ih =>
    intro s h
    cases o with
    | write site bs => exact ⟨ih _ _ h, fun _ j _ _ => ih _ _ h⟩
    | read site n => exact fun bs _ _ => ih _ _ (le_trans h (Nat.le_add_right _ _))

/-- A party on its way: the pending write counts as not yet begun, and what is queued of it already
    is in the log. -/
def Tallied (D : Discipline σ) (Q : α → Nat × Nat → Prop) (p : Party π σ Ev α) : Prop :=
  p.queued ≤ writeLen p.prog ∧ ∃ m, (puts p.log).length = m + p.queued ∧
    wp (tallyHandler Ev D) p.prog Q (m, (gots p.log).length)

/-- **Step lemma.**  Bytes that are queued count for the log at once, and for the handler when
    the write returns; the difference is `queued`. -/
theorem PStep.tallied {p p' : Party π σ Ev α} {m : Move π σ} (h : PStep D adv p m p')
    (hp : Tallied D Q p) : Tallied D Q p' := by
  obtain ⟨hq, n, hn, hw⟩ := hp
  cases h with
  | emit =>
    exact ⟨Nat.zero_le _, n, by simpa [puts] using hn, by simpa [gots, wp, tallyHandler] using hw⟩
  | malloc hr => exact ⟨Nat.zero_le _, n, hn, hw _ hr⟩
  | clock t => exact ⟨Nat.zero_le _, n, hn, hw t⟩
  | @queue site bs k q p l chunk rest hbs hne =>
    have hlen := congrArg List.length hbs
    simp only [List.length_drop, List.length_append] at hlen
    have hn' : (puts l).length = n + q := hn
    have hq' : q ≤ bs.length := hq
    refine ⟨?_, n, ?_, ?_⟩
    · have hpos : 0 < chunk.length := List.length_pos_iff.mpr hne
      simp only [writeLen]
      omega
    · simp only [puts_append, puts_map_put, List.length_append, stamped_length]
      omega
    · simpa using hw
  | @wrote site bs k p l q hq' =>
    subst hq'
    exact ⟨Nat.zero_le _, n + bs.length, hn, hw.1⟩
  | @wroteShort site bs k p l q hd h0 hlt =>
    exact ⟨Nat.zero_le _, n + q, hn, hw.2 hd q h0 hlt⟩
  | @read site k' k p l xs hne hle =>
    have := hw (xs.map Cell.byte) (by simpa using hne) (by simpa using hle)
    exact ⟨Nat.zero_le _, n, by simpa using hn, by simpa using this⟩

/-- **Run lemma.** -/
theorem tallied_steps {c₀ c : Config π σ Ev α} {s : Side} (h : Steps D adv c₀ c)
    (h₀ : Tallied D Q (c₀.party s)) : Tallied D Q (c.party s) := by
  induction h with
  | refl => exact h₀
  | tail _ hstep ih =>
    obtain ⟨t, m, p', hp, hparty, -⟩ := step_cases hstep
    rw [hparty]
    rcases Side.eq_or_eq_other t s with rfl | rfl
    · rw [Function.update_self]
      exact hp.tallied ih
    · rwa [Function.update_of_ne (Side.other_ne t)]

/-- What `wp` says of the counts is said of the log of a party that has returned. -/
theorem tally_returned {pos : π} {prog : Side → Prog σ Ev α} {c : Config π σ Ev α} {s : Side}
    (h : Steps D adv (.start pos prog) c) (hw : wp (tallyHandler Ev D) (prog s) Q (0, 0)) {a : α}
    (ha : (c.party s).Returned a) :
    Q a ((puts (c.party s).log).length, (gots (c.party s).log).length) := by
  obtain ⟨hq, m, hm, hQ⟩ := tallied_steps h ⟨Nat.zero_le _, 0, rfl, hw⟩
  rw [show (c.party s).prog = .ret a from ha] at hq hQ
  have hzero : (c.party s).queued = 0 := Nat.le_zero.mp hq
  rw [hm, hzero]
  exact hQ

/-- What a step appends to the log of a party. -/
theorem PStep.log {p p' : Party π σ Ev α} {m : Move π σ} (h : PStep D adv p m p') :
    ∃ l, p'.log = p.log ++ l ∧ puts l = m.outs ∧ gots l = m.inps := by
  cases h with
  | emit => exact ⟨_, rfl, rfl, rfl⟩
  | malloc => exact ⟨[], by simp, rfl, rfl⟩
  | clock => exact ⟨[], by simp, rfl, rfl⟩
  | queue => exact ⟨_, rfl, by simp [Move.outs], by simp [Move.inps]⟩
  | wrote => exact ⟨[], by simp, rfl, rfl⟩
  | wroteShort => exact ⟨[], by simp, rfl, rfl⟩
  | read => exact ⟨_, rfl, by simp [Move.outs], by simp [Move.inps]⟩

/-- **Conservation**: what one side has put, the other has got or it is under way.  This holds
    of any two programs, whether they fit together or not. -/
theorem conserved {pos : π} {prog : Side → Prog σ Ev α} {c : Config π σ Ev α}
    (h : Steps D adv (.start pos prog) c) (s : Side) :
    puts (c.party s).log = gots (c.party s.other).log ++ c.chan s := by
  induction h generalizing s with
  | refl => rfl
  | @tail c c' _ hstep ih =>
    obtain ⟨t, m, p', hp, hparty, hout, hinp⟩ := step_cases hstep
    obtain ⟨l, hlog, hputs, hgots⟩ := hp.log
    rw [hparty]
    rcases Side.eq_or_eq_other t s with rfl | rfl
    · rw [Function.update_self, Function.update_of_ne (Side.other_ne s), hlog, puts_append, ih,
        hputs, hout, List.append_assoc]
    · rw [Side.other_other, Function.update_self, Function.update_of_ne (Side.other_ne t), hlog,
        gots_append, hgots, ih t.other, hinp, Side.other_other, List.append_assoc]

end Duplex
