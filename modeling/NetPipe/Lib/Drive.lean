/-
  An executable scheduler for two stream-connected programs.

  The semantics of `Lib.Duplex` is a relation, and what is proved with it is about every execution.
  To show that something does happen takes one execution, and for programs of some length that is
  best computed: `Duo.drive` lets the left party run until it blocks, then the right one, and so
  on; writes queue everything at once, reads take all that is there, blocks are zeroed and the clock
  stands still.

  With room without limit in the streams every step of the scheduler is one of the semantics
  (`Party.next_sound`, `Duo.step_sound`), so a state computed by `drive` is a reachable one
  (`Duo.steps_drive`), whatever the programs are.
-/
import NetPipe.Lib.Duplex

namespace Duplex

open Process

variable {π σ Ev α : Type}

/-- Both parties and both streams, as plain data. -/
structure Duo (π σ Ev α : Type) where
  left : Party π σ Ev α
  right : Party π σ Ev α
  fromLeft : List (Cell π σ)
  fromRight : List (Cell π σ)

/-- The configuration. -/
def Duo.config (d : Duo π σ Ev α) : Config π σ Ev α where
  party
    | .left => d.left
    | .right => d.right
  chan
    | .left => d.fromLeft
    | .right => d.fromRight

variable (adv : Ev → π → π)

/-- The next step of a party to which `avail` is under way: the party afterwards, what it puts,
    and what it leaves. -/
def Party.next (p : Party π σ Ev α) (avail : List (Cell π σ)) :
    Option (Party π σ Ev α × List (Cell π σ) × List (Cell π σ)) :=
  match p with
  | ⟨.emit e k, 0, pos, l⟩ => some (⟨k, 0, adv e pos, l ++ [.did pos e]⟩, [], avail)
  | ⟨.malloc n k, 0, pos, l⟩ => some (⟨k (some (List.replicate n 0)), 0, pos, l⟩, [], avail)
  | ⟨.clock k, 0, pos, l⟩ => some (⟨k 0, 0, pos, l⟩, [], avail)
  | ⟨.io (.write site bs) k, q, pos, l⟩ =>
    if q = bs.length then some (⟨k (some q), 0, pos, l⟩, [], avail)
    else match bs.drop q with
      | [] => none
      | b :: rest =>
        let xs := stamped ⟨pos, site⟩ (b :: rest)
        some (⟨.io (.write site bs) k, q + (b :: rest).length, pos, l ++ xs.map .put⟩, xs, avail)
  | ⟨.io (.read site n) k, 0, pos, l⟩ =>
    match avail.take n with
    | [] => none
    | x :: xs =>
      some (⟨k (some ((x :: xs).map Cell.byte)), 0, pos,
        l ++ (x :: xs).map (.got ⟨pos, site⟩)⟩, [], avail.drop n)
  | _ => none

/-- One step of the left party, or, where it has none, of the right one. -/
def Duo.step (d : Duo π σ Ev α) : Option (Duo π σ Ev α) :=
  match d.left.next adv d.fromRight with
  | some (p, xs, rest) => some ⟨p, d.right, d.fromLeft ++ xs, rest⟩
  | none =>
    (d.right.next adv d.fromLeft).map fun r => ⟨d.left, r.1, r.2.2, d.fromRight ++ r.2.1⟩

/-- At most `n` steps. -/
def Duo.drive : Nat → Duo π σ Ev α → Duo π σ Ev α
  | 0, d => d
  | n + 1, d =>
    match d.step adv with
    | some d' => drive n d'
    | none => d

section sound

variable {adv} {D : Discipline σ}

/-- What `next` computes is a step of the party. -/
theorem Party.next_sound (halloc : ∀ n, D.alloc n (some (List.replicate n 0)))
    {p p' : Party π σ Ev α} {avail xs rest : List (Cell π σ)}
    (h : p.next adv avail = some (p', xs, rest)) :
    (PStep D adv p .tau p' ∧ xs = [] ∧ rest = avail) ∨
    (PStep D adv p (.out xs) p' ∧ rest = avail) ∨
    ∃ ys, PStep D adv p (.inp ys) p' ∧ avail = ys ++ rest ∧ xs = [] := by
  unfold Party.next at h
  split at h
  · cases h
    exact Or.inl ⟨.emit, rfl, rfl⟩
  · cases h
    exact Or.inl ⟨.malloc (halloc _), rfl, rfl⟩
  · cases h
    exact Or.inl ⟨.clock 0, rfl, rfl⟩
  · split at h
    · rename_i hq
      cases h
      exact Or.inl ⟨.wrote hq, rfl, rfl⟩
    · split at h
      · cases h
      · rename_i b bs hdrop
        cases h
        exact Or.inr (Or.inl ⟨.queue (hdrop.trans (List.append_nil _).symm) (by simp), rfl⟩)
  · split at h
    · cases h
    · rename_i n _ _ _ x ys htake
      cases h
      have hlen := congrArg List.length htake
      rw [List.length_take] at hlen
      refine Or.inr (Or.inr ⟨x :: ys, .read (by simp) (by omega), ?_, rfl⟩)
      rw [← htake, List.take_append_drop]
  · cases h

/-- What `step` computes is a step of the semantics, where the streams have room. -/
theorem Duo.step_sound (hcap : ∀ s, D.cap s = ⊤)
    (halloc : ∀ n, D.alloc n (some (List.replicate n 0))) {d d' : Duo π σ Ev α}
    (h : d.step adv = some d') : Step D adv d.config d'.config := by
  have hside : ∀ (s : Side) (p' : Party π σ Ev α) (xs rest : List (Cell π σ)),
      (d.config.party s).next adv (d.config.chan s.other) = some (p', xs, rest) →
      d'.config.party = Function.update d.config.party s p' →
      d'.config.chan = Function.update (Function.update d.config.chan s (d.config.chan s ++ xs))
        s.other rest → Step D adv d.config d'.config := by
    intro s p' xs rest hnext hparty hchan
    have hc : d'.config = ⟨d'.config.party, d'.config.chan⟩ := rfl
    have hne : s.other ≠ s := Side.other_ne s
    rw [hc, hparty, hchan]
    rcases Party.next_sound halloc hnext with ⟨hp, rfl, rfl⟩ | ⟨hp, rfl⟩ | ⟨ys, hp, hys, rfl⟩
    · rw [List.append_nil, Function.update_eq_self, Function.update_eq_self]
      exact .tau hp
    · rw [← Function.update_of_ne hne (d.config.chan s ++ xs) d.config.chan,
        Function.update_eq_self]
      exact .out hp (by rw [hcap]; exact le_top)
    · rw [List.append_nil, Function.update_eq_self]
      exact .inp hys hp
  unfold Duo.step at h
  split at h
  · rename_i p xs rest hnext
    cases h
    refine hside .left p xs rest hnext ?_ ?_ <;> funext s <;> cases s <;> rfl
  · obtain ⟨⟨p, xs, rest⟩, hnext, rfl⟩ := Option.map_eq_some_iff.mp h
    refine hside .right p xs rest hnext ?_ ?_ <;> funext s <;> cases s <;> rfl

/-- **Soundness.**  What `drive` computes is reachable. -/
theorem Duo.steps_drive (hcap : ∀ s, D.cap s = ⊤)
    (halloc : ∀ n, D.alloc n (some (List.replicate n 0))) (n : Nat) (d : Duo π σ Ev α) :
    Steps D adv d.config (d.drive adv n).config := by
  induction n generalizing d with
  | zero => exact .refl
  | succ n ih =>
    unfold Duo.drive
    split
    · rename_i d' h
      exact .head (Duo.step_sound hcap halloc h) (ih d')
    · exact .refl

end sound

end Duplex
