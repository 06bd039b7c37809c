/-
  Ranks of a script, piece by piece.

  `Plan.Timely` asks for an order between any two acts of a script.  Scripts are put together from
  messages, so the order is checked the same way: the `level` of an act is the rank of its byte,
  with getting a byte of some rank above putting one of the same rank, and `Spans lo hi l` says
  that the levels along `l` do not decrease and lie between `lo` and `hi`.

  The load-bearing rule is `Spans.append`: pieces that follow one another and span adjacent
  intervals span the two together.  So a script of any number of messages is ordered once each
  message, put or got, spans the interval its place in the script gives it (`Spans.put`,
  `Spans.got`), and acts that move no byte fit in anywhere (`Spans.quiet`).

  The other thing read off scripts is what comes before what: a prefix of a script that holds an act
  of some piece holds all pieces before it (`mem_of_prefix`).
-/
import NetPipe.Lib.Script
import Mathlib.Data.Prod.Lex

namespace Duplex

variable {π σ Ev : Type}

/-! ## Order of acts -/

/-- What lies in `u` comes first: a prefix of `u ++ v` that holds something not in `u` holds all
    of `u`. -/
theorem mem_of_prefix {α : Type} {l u v : List α} {a b : α} (hl : l <+: u ++ v) (hb : b ∈ l)
    (hbu : b ∉ u) (ha : a ∈ u) : a ∈ l := by
  rcases List.prefix_or_prefix_of_prefix hl (List.prefix_append u v) with h | h
  · exact absurd (h.subset hb) hbu
  · exact h.subset ha

/-- The position of the call an act belongs to. -/
def Act.pos : Act π σ Ev → π
  | .put x => x.stamp.pos
  | .got call _ => call.pos
  | .did p _ => p

/-! ## Spans -/

section spans

variable {K : Type} [LinearOrder K] (rank : Side → Cell π σ → K) (s : Side)

/-- The rank of the byte of an act, and whether it is got. -/
def Act.level : Act π σ Ev → Option (K ×ₗ Nat)
  | .put x => some (toLex (rank s x, 0))
  | .got _ x => some (toLex (rank s.other x, 1))
  | .did _ _ => none

/-- The levels along `l` do not decrease, and lie between `lo` and `hi`.  The bounds are what makes
    it compose: two pieces are in order if the one's upper bound is at most the other's lower. -/
structure Spans (lo hi : K ×ₗ Nat) (l : List (Act π σ Ev)) : Prop where
  le : lo ≤ hi
  sorted : l.Pairwise (Before rank s)
  within : ∀ a ∈ l, ∀ u, a.level rank s = some u → lo ≤ u ∧ u ≤ hi

variable {rank s} {lo hi lo' hi' : K ×ₗ Nat} {l m : List (Act π σ Ev)}

/-- `Before` is the order of levels. -/
theorem before_of_level {a b : Act π σ Ev}
    (h : ∀ u v, a.level rank s = some u → b.level rank s = some v → u ≤ v) :
    Before rank s a b := by
  cases a with
  | did p e => trivial
  | put x =>
    cases b with
    | did p e => trivial
    | put y => simpa [Before, Prod.Lex.toLex_le_toLex, ← le_iff_lt_or_eq] using h _ _ rfl rfl
    | got call y => simpa [Before, Prod.Lex.toLex_le_toLex, ← le_iff_lt_or_eq] using h _ _ rfl rfl
  | got call x =>
    cases b with
    | did p e => trivial
    | put y => simpa [Before, Prod.Lex.toLex_le_toLex] using h _ _ rfl rfl
    | got call y => simpa [Before, Prod.Lex.toLex_le_toLex, ← le_iff_lt_or_eq] using h _ _ rfl rfl

/-- **Composition.**  Across the seam every level on the left is at most every level on the
    right, both being bounded by what is between them. -/
theorem Spans.append (hl : Spans rank s lo hi l) (hm : Spans rank s lo' hi' m) (h : hi ≤ lo') :
    Spans rank s lo hi' (l ++ m) where
  le := hl.le.trans (h.trans hm.le)
  sorted := by
    refine List.pairwise_append.mpr ⟨hl.sorted, hm.sorted, ?_⟩
    intro a ha b hb
    refine before_of_level ?_
    intro u v hu hv
    exact (hl.within a ha u hu).2.trans (h.trans (hm.within b hb v hv).1)
  within := by
    intro a ha u hu
    rcases List.mem_append.mp ha with ha | ha
    · have := hl.within a ha u hu
      exact ⟨this.1, this.2.trans (h.trans hm.le)⟩
    · have := hm.within a ha u hu
      exact ⟨hl.le.trans (h.trans this.1), this.2⟩

theorem Spans.weaken (hl : Spans rank s lo hi l) (hlo : lo' ≤ lo) (hhi : hi ≤ hi') :
    Spans rank s lo' hi' l where
  le := hlo.trans (hl.le.trans hhi)
  sorted := hl.sorted
  within a ha u hu := ⟨hlo.trans (hl.within a ha u hu).1, (hl.within a ha u hu).2.trans hhi⟩

/-- Acts all of one level. -/
theorem Spans.const (h : ∀ a ∈ l, ∀ u, a.level rank s = some u → u = lo) :
    Spans rank s lo lo l where
  le := le_rfl
  sorted := by
    refine List.Pairwise.imp_of_mem (R := fun _ _ => True) (fun ha hb _ => ?_)
      (List.pairwise_of_forall fun _ _ => trivial)
    exact before_of_level fun u v hu hv => (h _ ha u hu ▸ h _ hb v hv ▸ le_rfl)
  within a ha u hu := ⟨(h a ha u hu).ge, (h a ha u hu).le⟩

/-- The bytes of one message, moved by acts of one level. -/
theorem Spans.message {act : Cell π σ → Act π σ Ev} {st : Stamp π σ} {bs : List UInt8}
    (h : ∀ b, (act ⟨b, st⟩).level rank s = some lo) :
    Spans rank s lo lo ((stamped st bs).map act) := by
  refine .const ?_
  intro a ha u hu
  obtain ⟨x, hx, rfl⟩ := List.mem_map.mp ha
  obtain ⟨b, -, rfl⟩ := List.mem_map.mp hx
  rw [h] at hu
  injection hu with hu
  exact hu.symm

/-- A message put. -/
theorem Spans.put {st : Stamp π σ} {bs : List UInt8} {k : K}
    (h : ∀ b, rank s ⟨b, st⟩ = k) :
    Spans rank s (toLex (k, 0)) (toLex (k, 0)) ((stamped st bs).map (.put : _ → Act π σ Ev)) :=
  .message fun b => by rw [Act.level, h]

/-- A message got. -/
theorem Spans.got {call st : Stamp π σ} {bs : List UInt8} {k : K}
    (h : ∀ b, rank s.other ⟨b, st⟩ = k) :
    Spans rank s (toLex (k, 1)) (toLex (k, 1))
      ((stamped st bs).map (.got call : _ → Act π σ Ev)) :=
  .message fun b => by rw [Act.level, h]

/-- Acts that move no byte. -/
theorem Spans.quiet (h : ∀ a ∈ l, a.level rank s = none) : Spans rank s lo lo l :=
  .const fun a ha u hu => by rw [h a ha] at hu; cases hu

end spans

end Duplex
