/-
  Copies between memory ranges that do not meet.

  Memory is a function of its addresses, and an address an element of any additive group with a 1:
  the words of a machine, which wrap round, as well as the integers.

  1. **`memcpy`** copies `n` cells, and is undefined where the two ranges meet.  What it leaves is
     `Copied`, two facts: the cells that are copied, and the frame.  They determine the memory
     afterwards (`memcpy_eq_some`), so no proof has to look at how a copy is made.

  2. **Adjoining copies** one after the other are one copy (`Copied.trans`).  The load-bearing step
     is that the first of them leaves the source of the second one alone (`Copied.source`), the two
     ranges being apart.  So a copy made in any number of parts, from the first cell on, is one
     `memcpy` (`copies_chunks`).
-/
import Mathlib.Algebra.Order.Ring.Int

namespace Copy

variable {A β : Type} [AddCommGroupWithOne A]

/-! ## One copy -/

/-- The `n` cells from `d` on and those from `s` on have none in common. -/
def Apart (d s : A) (n : Nat) : Prop := ∀ i < n, ∀ j < n, d + i ≠ s + j

instance [DecidableEq A] (d s : A) (n : Nat) : Decidable (Apart d s n) :=
  inferInstanceAs (Decidable (∀ i < n, ∀ j < n, d + (i : A) ≠ s + j))

/-- `memcpy(d, s, n)`. -/
def memcpy [DecidableEq A] (m : A → β) (d s : A) (n : Nat) : Option (A → β) :=
  if Apart d s n then some fun a => if ∃ i < n, a = d + i then m (s + (a - d)) else m a
  else none

/-- `m'` is `m` with the `n` cells from `s` on copied to those from `d` on: the cells that are
    copied to, and the frame. -/
structure Copied (m m' : A → β) (d s : A) (n : Nat) : Prop where
  copied : ∀ i < n, m' (d + i) = m (s + i)
  unchanged : ∀ a, (∀ i < n, a ≠ d + i) → m' a = m a

section one

variable {m m' m₁ m₂ : A → β} {d s : A} {n i j : Nat}

theorem Apart.mono (h : Apart d s n) (hin : i ≤ n) : Apart d s i :=
  fun x hx y hy => h x (by omega) y (by omega)

/-- The part of two ranges behind the first `i` cells. -/
theorem Apart.behind (h : Apart d s (i + j)) : Apart (d + i) (s + i) j := by
  intro x hx y hy
  rw [add_assoc, add_assoc, ← Nat.cast_add, ← Nat.cast_add]
  exact h (i + x) (by omega) (i + y) (by omega)

/-- What a copy leaves is determined by it. -/
theorem Copied.unique (h₁ : Copied m m₁ d s n) (h₂ : Copied m m₂ d s n) : m₁ = m₂ := by
  funext a
  by_cases ha : ∃ i < n, a = d + i
  · obtain ⟨i, hi, rfl⟩ := ha
    rw [h₁.copied i hi, h₂.copied i hi]
  · have hout : ∀ i < n, a ≠ d + i := fun i hi he => ha ⟨i, hi, he⟩
    rw [h₁.unchanged a hout, h₂.unchanged a hout]

theorem Apart.exists_memcpy [DecidableEq A] (h : Apart d s n) (m : A → β) :
    ∃ m', memcpy m d s n = some m' := by
  unfold memcpy
  rw [if_pos h]
  exact ⟨_, rfl⟩

/-- **`memcpy`** is defined where the ranges are apart, and copies. -/
theorem memcpy_eq_some [DecidableEq A] :
    memcpy m d s n = some m' ↔ Apart d s n ∧ Copied m m' d s n := by
  have hcopied : Copied m (fun a => if ∃ i < n, a = d + i then m (s + (a - d)) else m a) d s n := by
    constructor
    · intro i hi
      rw [if_pos ⟨i, hi, rfl⟩, add_sub_cancel_left]
    · intro a ha
      rw [if_neg]
      rintro ⟨i, hi, he⟩
      exact ha i hi he
  unfold memcpy
  by_cases h : Apart d s n
  · rw [if_pos h, Option.some_inj]
    constructor
    · rintro rfl
      exact ⟨h, hcopied⟩
    · rintro ⟨-, hm'⟩
      exact hcopied.unique hm'
  · rw [if_neg h]
    constructor
    · intro hnone
      cases hnone
    · rintro ⟨hap, -⟩
      exact absurd hap h

theorem Copied.zero : Copied m m d s 0 := by
  constructor
  · intro i hi
    omega
  · intro a _
    rfl

/-- The source is still there. -/
theorem Copied.source (h : Copied m m' d s i) (hap : Apart d s n) (hin : i ≤ n) {j : Nat}
    (hj : j < n) : m' (s + j) = m (s + j) :=
  h.unchanged _ fun x hx => (hap x (by omega) j hj).symm

/-- **Adjoining copies** are one copy: the first one has left the source of the second as it
    was, and the second one leaves what the first has copied. -/
theorem Copied.trans (h₁ : Copied m m₁ d s i) (h₂ : Copied m₁ m₂ (d + i) (s + i) j)
    (hap : Apart d s (i + j)) : Copied m m₂ d s (i + j) := by
  have hsecond : ∀ y < j, m₂ (d + ((i + y : Nat) : A)) = m (s + ((i + y : Nat) : A)) := by
    intro y hy
    have := h₂.copied y hy
    rw [add_assoc, add_assoc, ← Nat.cast_add] at this
    rw [this]
    exact h₁.source hap (by omega) (by omega)
  constructor
  · intro x hx
    by_cases hagain : ∃ y < j, d + (x : A) = d + ((i + y : Nat) : A)
    · -- this cell is written by the second copy, possibly after the addresses have wrapped round
      obtain ⟨y, hy, he⟩ := hagain
      have hxy : (x : A) = ((i + y : Nat) : A) := add_left_cancel he
      rw [hxy]
      exact hsecond y hy
    · have hxi : x < i := by
        by_contra hle
        exact hagain ⟨x - i, by omega, by rw [show i + (x - i) = x by omega]⟩
      rw [h₂.unchanged _ fun y hy he => hagain ⟨y, hy, by rw [he, add_assoc, ← Nat.cast_add]⟩]
      exact h₁.copied x hxi
  · intro a ha
    rw [h₂.unchanged a fun y hy => ?_, h₁.unchanged a fun x hx => ha x (by omega)]
    rw [add_assoc, ← Nat.cast_add]
    exact ha (i + y) (by omega)

end one

/-! ## Copies in parts -/

/-- A call of `memcpy`. -/
structure Call (A : Type) where
  dest : A
  src : A
  n : Nat
  deriving DecidableEq, Repr

/-- The calls one after the other. -/
def copies [DecidableEq A] : List (Call A) → (A → β) → Option (A → β)
  | [], m => some m
  | c :: cs, m => (memcpy m c.dest c.src c.n).bind (copies cs)

/-- Adjoining parts of these lengths, from `d` and `s` on. -/
def chunks (d s : A) : List Nat → List (Call A)
  | [] => []
  | n :: ns => ⟨d, s, n⟩ :: chunks (d + n) (s + n) ns

/-- **A copy in parts** is one copy. -/
theorem copies_chunks [DecidableEq A] {ns : List Nat} :
    ∀ {d s : A} {m : A → β}, Apart d s ns.sum →
      copies (chunks d s ns) m = memcpy m d s ns.sum := by
  induction ns with
  | nil =>
    intro d s m h
    exact (memcpy_eq_some.mpr ⟨h, .zero⟩).symm
  | cons n ns ih =>
    intro d s m h
    rw [List.sum_cons] at h
    obtain ⟨m₁, hm₁⟩ := (h.mono (Nat.le_add_right n _)).exists_memcpy m
    obtain ⟨m₂, hm₂⟩ := h.behind.exists_memcpy m₁
    rw [chunks, copies, hm₁, Option.bind_some, ih h.behind, hm₂, List.sum_cons]
    symm
    exact memcpy_eq_some.mpr
      ⟨h, (memcpy_eq_some.mp hm₁).2.trans (memcpy_eq_some.mp hm₂).2 h⟩

end Copy
