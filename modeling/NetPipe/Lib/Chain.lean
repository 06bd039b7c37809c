/-
  Singly linked lists in memory.

  Memory is what the `next` field of a node holds, by the node's address; 0 is the null pointer.
  `Chain next a l` says that the nodes reached from `a` are `l`, and that the last one has no
  successor.

  1. **One list** (`Chain.unique`, `Chain.nodup`).  The nodes are determined by the memory, so none
     is reached twice: a list that ends is not cyclic.  Nothing has to be assumed for this, nor kept
     as an invariant.

  2. **What happens to other nodes** does not matter (`Chain.congr`), which is the frame rule here.

  3. **The changes.**  A node is put in front (`Chain.push`), the front one is taken off
     (`Chain.tail`), and the successor of a node is skipped (`Chain.skip`).
-/
import Mathlib.Data.List.Nodup
import Mathlib.Logic.Function.Basic

namespace Chains

/-- From `a`, following `next`, the nodes are `l`.  There is a derivation for lists that end, and
    for no others. -/
inductive Chain (next : Nat → Option Nat) : Nat → List Nat → Prop where
  | nil : Chain next 0 []
  | cons {a b : Nat} {l : List Nat} : a ≠ 0 → next a = some b → Chain next b l →
      Chain next a (a :: l)

variable {next next' : Nat → Option Nat} {a b : Nat} {l l' : List Nat}

/-- A list starts at its first node. -/
theorem Chain.head (h : Chain next a l) : a = l.headD 0 := by
  cases h with
  | nil => rfl
  | cons _ _ _ => rfl

theorem Chain.ne_zero (h : Chain next a (b :: l)) : b ≠ 0 := by
  cases h with
  | cons ha _ _ => exact ha

/-- The successor of the first node. -/
theorem Chain.tail (h : Chain next a (b :: l)) : next b = some (l.headD 0) ∧
    Chain next (l.headD 0) l := by
  cases h with
  | cons _ hb hl => exact ⟨hl.head ▸ hb, hl.head ▸ hl⟩

/-- The memory determines the list. -/
theorem Chain.unique (h : Chain next a l) : ∀ {l'}, Chain next a l' → l = l' := by
  induction h with
  | nil =>
    intro l' h'
    cases h' with
    | nil => rfl
    | cons ha _ _ => exact absurd rfl ha
  | cons ha hb _ ih =>
    intro l' h'
    cases h' with
    | nil => exact absurd rfl ha
    | cons _ hb' hl' =>
      rw [Option.some.inj (hb.symm.trans hb')] at ih
      rw [ih hl']

/-- From one of its nodes on, a list is a list. -/
theorem Chain.suffix {pre post : List Nat} (h : Chain next a (pre ++ b :: post)) :
    Chain next b (b :: post) := by
  induction pre generalizing a with
  | nil =>
    have ha : a = b := h.head
    rwa [← ha] at h ⊢
  | cons c pre ih => exact ih h.tail.2

/-- **A list is not cyclic**: were a node reached twice, the lists from its two places on would be
    the same, and of different lengths. -/
theorem Chain.nodup (h : Chain next a l) : l.Nodup := by
  induction h with
  | nil => exact List.nodup_nil
  | @cons a b l ha hb hl ih =>
    refine List.nodup_cons.mpr ⟨fun hmem => ?_, ih⟩
    obtain ⟨pre, post, rfl⟩ := List.append_of_mem hmem
    have hlen := congrArg List.length ((Chain.cons ha hb hl).unique hl.suffix)
    simp only [List.length_cons, List.length_append] at hlen
    omega

/-- A list is not affected by what happens to other nodes. -/
theorem Chain.congr (h : Chain next a l) (hnext : ∀ x ∈ l, next' x = next x) :
    Chain next' a l := by
  induction h with
  | nil => exact .nil
  | cons ha hb _ ih =>
    rw [List.forall_mem_cons] at hnext
    exact .cons ha (hnext.1.trans hb) (ih hnext.2)

/-- A new node in front. -/
theorem Chain.push (h : Chain next a l) (hb : b ≠ 0) (hmem : b ∉ l) :
    Chain (Function.update next b (some a)) b (b :: l) := by
  refine .cons hb (Function.update_self ..) (h.congr ?_)
  intro x hx
  rw [Function.update_of_ne]
  rintro rfl
  exact hmem hx

/-- The successor of `b` skipped. -/
theorem Chain.skip {c : Nat} {pre post : List Nat} (h : Chain next a (pre ++ b :: c :: post)) :
    Chain (Function.update next b (some (post.headD 0))) a (pre ++ b :: post) := by
  have hnodup := h.nodup
  induction pre generalizing a with
  | nil =>
    have ha : a = b := h.head
    subst ha
    obtain ⟨-, hc⟩ := h.tail
    refine .cons h.ne_zero (Function.update_self ..) (hc.tail.2.congr ?_)
    intro x hx
    rw [Function.update_of_ne]
    rintro rfl
    exact (List.nodup_cons.mp hnodup).1 (List.mem_cons_of_mem _ hx)
  | cons d pre ih =>
    have ha : a = d := h.head
    subst ha
    rw [List.cons_append] at h hnodup
    obtain ⟨hd, hrest⟩ := h.tail
    obtain ⟨hmem, hnodup⟩ := List.nodup_cons.mp hnodup
    have hne : a ≠ b := by
      rintro rfl
      exact hmem (by simp)
    have hchain := ih hrest hnodup
    have hhead : (pre ++ b :: c :: post).headD 0 = (pre ++ b :: post).headD 0 := by
      cases pre <;> rfl
    rw [hhead] at hd hchain
    exact .cons h.ne_zero ((Function.update_of_ne hne _ _).trans hd) hchain

end Chains
