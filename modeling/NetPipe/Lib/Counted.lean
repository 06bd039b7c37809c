/-
  Two processing elements with one-sided communication that is counted.

  A put copies words of a PE's memory into the other one's, as in `Lib.OneSided`, but says when:
  the origin counter of the PE that issues it goes up once the words have been copied out of its
  memory, and the target counter of the other one once all of them have been stored there.  A
  program waits for its counters, and not for what is in memory.

  * The words are copied out at some moment after the put is issued, and stored in any order.
  * Puts of one PE overtake each other on their way, unless the network is `ordered`.
  * A counter says how many, not which: with two puts on their way, the first to be counted may be
    the second.

  1. **At one PE or between the two** (`Own`, `Step`).  Nearly everything that happens does so at
     one PE (`Own`), its inbox included; only words that leave change both.  `Step.cases_at` says
     this once, from either side.

  2. **Every run comes to an end** (`wellFounded_step`): an instruction, a put in memory and a word
     on its way are each good for a number of steps, and every step uses one up.
-/
import Mathlib.Algebra.BigOperators.Group.List.Basic
import NetPipe.Lib.OneSided
import NetPipe.Lib.Process

namespace Counted

open OneSided (other_other ne_other eq_or_eq_other)
open scoped OneSided

variable {Loc Val : Type}

/-- One instruction of a PE. -/
inductive Instr (Loc Val : Type) where
  /-- `*l = v`. -/
  | store (l : Loc) (v : Val)
  /-- The word at `l` is handed to the caller. -/
  | read (l : Loc)
  /-- Words of one's own memory copied to these of the other PE. -/
  | put (ws : List (Loc × Loc))
  /-- Wait until the origin counter is at least one, and take one off. -/
  | waitOrigin
  /-- Wait until the target counter is at least one. -/
  | poll
  /-- The same, and take one off. -/
  | waitTarget

/-- A PE. -/
structure Pe (Loc Val : Type) where
  mem : Loc → Val
  todo : List (Instr Loc Val)
  /-- What the caller has been handed. -/
  got : List Val
  /-- Puts issued whose words are still in memory. -/
  leaving : List (List (Loc × Loc))
  origin : Nat
  /-- Puts of the other PE on their way, with the words not stored yet. -/
  inbox : List (List (Loc × Val))
  target : Nat

/-- A PE about to run a program. -/
def Pe.start (mem : Loc → Val) (todo : List (Instr Loc Val)) : Pe Loc Val :=
  ⟨mem, todo, [], [], 0, [], 0⟩

/-- The words of a put, with their values. -/
def Pe.payload (p : Pe Loc Val) (ws : List (Loc × Loc)) : List (Loc × Val) :=
  ws.map fun w => (w.2, p.mem w.1)

/-- Both PEs; the other one of `x` is `1 - x`. -/
abbrev Config (Loc Val : Type) := Fin 2 → Pe Loc Val

variable [DecidableEq Loc]

/-- What happens at a PE: it executes an instruction, or something is stored in its memory. -/
inductive Own (ordered : Bool) (p : Pe Loc Val) : Pe Loc Val → Prop where
  | store {l v rest} : p.todo = .store l v :: rest →
      Own ordered p { p with mem := Function.update p.mem l v, todo := rest }
  | read {l rest} : p.todo = .read l :: rest →
      Own ordered p { p with todo := rest, got := p.got ++ [p.mem l] }
  | put {ws rest} : p.todo = .put ws :: rest →
      Own ordered p { p with todo := rest, leaving := p.leaving ++ [ws] }
  | waitOrigin {n rest} : p.todo = .waitOrigin :: rest → p.origin = n + 1 →
      Own ordered p { p with todo := rest, origin := n }
  | poll {rest} : p.todo = .poll :: rest → 0 < p.target → Own ordered p { p with todo := rest }
  | waitTarget {n rest} : p.todo = .waitTarget :: rest → p.target = n + 1 →
      Own ordered p { p with todo := rest, target := n }
  | word {before w₁ l v w₂ behind} : p.inbox = before ++ (w₁ ++ (l, v) :: w₂) :: behind →
      (ordered = true → before = []) →
      Own ordered p { p with
        mem := Function.update p.mem l v, inbox := before ++ (w₁ ++ w₂) :: behind }
  | count {before behind} : p.inbox = before ++ [] :: behind → (ordered = true → before = []) →
      Own ordered p { p with inbox := before ++ behind, target := p.target + 1 }

/-- One step: at a PE, or words leave one for the other. -/
inductive Step (ordered : Bool) (c : Config Loc Val) : Config Loc Val → Prop where
  | own {x p'} : Own ordered (c x) p' → Step ordered c (Function.update c x p')
  | depart {x before ws behind} : (c x).leaving = before ++ ws :: behind →
      (ordered = true → before = []) →
      Step ordered c (Function.update
        (Function.update c x
          { c x with leaving := before ++ behind, origin := (c x).origin + 1 }) (1 - x)
        { c (1 - x) with inbox := (c (1 - x)).inbox ++ [(c x).payload ws] })

variable {ordered : Bool}

/-- Any number of steps. -/
abbrev Steps (ordered : Bool) : Config Loc Val → Config Loc Val → Prop :=
  Relation.ReflTransGen (Step ordered)

/-- No step is possible. -/
def Stuck (ordered : Bool) (c : Config Loc Val) : Prop := ∀ c', ¬ Step ordered c c'

/-- Both programs are done. -/
def Finished (c : Config Loc Val) : Prop := ∀ x, (c x).todo = []

/-! ## Steps at one of the two -/

/-- A word of the first put under way is stored. -/
theorem Own.word_first {p : Pe Loc Val} {u : Loc × Val} {ws : List (Loc × Val)}
    {behind : List (List (Loc × Val))} (hinbox : p.inbox = (u :: ws) :: behind) :
    Own ordered p { p with mem := Function.update p.mem u.1 u.2, inbox := ws :: behind } :=
  @Own.word _ _ _ ordered p [] [] u.1 u.2 ws behind hinbox fun _ => rfl

/-- The first put under way is counted. -/
theorem Own.count_first {p : Pe Loc Val} {behind : List (List (Loc × Val))}
    (hinbox : p.inbox = [] :: behind) :
    Own ordered p { p with inbox := behind, target := p.target + 1 } :=
  @Own.count _ _ _ ordered p [] behind hinbox fun _ => rfl

section pair

variable {p p' q q' : Pe Loc Val}

/-- The words of the first put that has been issued leave. -/
theorem depart_first {c : Config Loc Val} {x : Fin 2} {ws : List (Loc × Loc)}
    {behind : List (List (Loc × Loc))} (hleaving : (c x).leaving = ws :: behind) :
    ∃ c', Step ordered c c' :=
  ⟨_, @Step.depart _ _ _ ordered c x [] ws behind hleaving fun _ => rfl⟩

omit [DecidableEq Loc] in
theorem update_pair_zero : Function.update ![p, q] 0 p' = ![p', q] :=
  funext (Fin.forall_fin_two.mpr ⟨rfl, rfl⟩)

omit [DecidableEq Loc] in
theorem update_pair_one : Function.update ![p, q] 1 q' = ![p, q'] :=
  funext (Fin.forall_fin_two.mpr ⟨rfl, rfl⟩)

theorem Own.step_zero (h : Own ordered p p') : Step ordered ![p, q] ![p', q] := by
  have hstep := Step.own (c := ![p, q]) (x := 0) h
  rwa [update_pair_zero] at hstep

theorem Own.step_one (h : Own ordered q q') : Step ordered ![p, q] ![p, q'] := by
  have hstep := Step.own (c := ![p, q]) (x := 1) h
  rwa [update_pair_one] at hstep

/-- The words of the one put under way leave PE 0. -/
theorem depart_zero {ws : List (Loc × Loc)} (hleaving : p.leaving = [ws]) :
    Step ordered ![p, q] ![{ p with leaving := [], origin := p.origin + 1 },
      { q with inbox := q.inbox ++ [p.payload ws] }] := by
  have hstep := @Step.depart _ _ _ ordered ![p, q] 0 [] ws [] hleaving fun _ => rfl
  rw [update_pair_zero] at hstep
  exact Eq.mp (congrArg (Step ordered ![p, q]) update_pair_one) hstep

/-- Steps at PE 1 alone. -/
theorem steps_one (h : Relation.ReflTransGen (Own ordered) q q') :
    Steps ordered ![p, q] ![p, q'] := by
  induction h with
  | refl => exact .refl
  | tail _ hstep ih => exact ih.tail hstep.step_one

end pair

/-- What a step does, seen from PE `x`. -/
theorem Step.cases_at {c c' : Config Loc Val} (h : Step ordered c c') (x : Fin 2) :
    (Own ordered (c x) (c' x) ∧ c' (1 - x) = c (1 - x)) ∨
    (Own ordered (c (1 - x)) (c' (1 - x)) ∧ c' x = c x) ∨
    (∃ before ws behind, (c x).leaving = before ++ ws :: behind ∧
      c' x = { c x with leaving := before ++ behind, origin := (c x).origin + 1 } ∧
      c' (1 - x) = { c (1 - x) with inbox := (c (1 - x)).inbox ++ [(c x).payload ws] }) ∨
    (c (1 - x)).leaving ≠ [] := by
  cases h with
  | @own z p' hs =>
    rcases eq_or_eq_other x z with rfl | rfl
    · exact Or.inl ⟨by rwa [Function.update_self], Function.update_of_ne (ne_other z).symm ..⟩
    · refine Or.inr (Or.inl ⟨by rwa [Function.update_self], ?_⟩)
      exact Function.update_of_ne (ne_other x) ..
  | @depart z before ws behind hleaving _ =>
    rcases eq_or_eq_other x z with rfl | rfl
    · refine Or.inr (Or.inr (Or.inl ⟨before, ws, behind, hleaving, ?_, Function.update_self ..⟩))
      rw [Function.update_of_ne (ne_other z), Function.update_self]
    · exact Or.inr (Or.inr (Or.inr (by simp [hleaving])))

/-! ## Every run comes to an end -/

/-- The steps an instruction is good for. -/
def Instr.weight : Instr Loc Val → Nat
  | .put ws => ws.length + 4
  | _ => 1

/-- The steps there are to come at a PE. -/
def Pe.weight (p : Pe Loc Val) : Nat :=
  (p.todo.map Instr.weight).sum + (p.leaving.map fun ws => ws.length + 3).sum +
    (p.inbox.map fun ws => ws.length + 1).sum

theorem Own.weight_lt {p p' : Pe Loc Val} (h : Own ordered p p') : p'.weight < p.weight := by
  cases h with
  | store htodo | read htodo | poll htodo | waitOrigin htodo | waitTarget htodo =>
    simp only [Pe.weight, htodo, List.map_cons, List.sum_cons, Instr.weight]
    omega
  | put htodo =>
    simp only [Pe.weight, htodo, List.map_cons, List.map_append, List.sum_cons, List.sum_append,
      List.map_nil, List.sum_nil, Instr.weight]
    omega
  | word hinbox =>
    simp only [Pe.weight, hinbox, List.map_cons, List.map_append, List.sum_cons, List.sum_append,
      List.length_append, List.length_cons]
    omega
  | count hinbox =>
    simp only [Pe.weight, hinbox, List.map_cons, List.map_append, List.sum_cons, List.sum_append,
      List.length_nil]
    omega

theorem Step.weight_lt {c c' : Config Loc Val} (h : Step ordered c c') :
    (c' 0).weight + (c' 1).weight < (c 0).weight + (c 1).weight := by
  have hsum : ∀ (d : Config Loc Val) (x : Fin 2),
      (d 0).weight + (d 1).weight = (d x).weight + (d (1 - x)).weight := by
    intro d x
    rcases show x = 0 ∨ x = 1 by omega with rfl | rfl
    · rfl
    · exact Nat.add_comm ..
  cases h with
  | @own x p' h =>
    have hlt := h.weight_lt
    rw [hsum _ x, hsum c x, Function.update_self, Function.update_of_ne (ne_other x).symm]
    omega
  | @depart x before ws behind hleaving _ =>
    rw [hsum _ x, hsum c x, Function.update_self, Function.update_of_ne (ne_other x),
      Function.update_self]
    simp only [Pe.weight, hleaving, List.map_cons, List.map_append, List.sum_cons, List.sum_append,
      List.map_nil, List.sum_nil, Pe.payload, List.length_map]
    omega

/-- **Every run comes to an end**: the weights of the two PEs go down in all with every step,
    also where words leave the one for the other. -/
theorem wellFounded_step : WellFounded fun c' c : Config Loc Val => Step ordered c c' :=
  Subrelation.wf Step.weight_lt
    (measure fun c : Config Loc Val => (c 0).weight + (c 1).weight).wf

/-- Every run from here comes to an end, with both programs done and `Post`. -/
structure Completes (ordered : Bool) (c₀ : Config Loc Val) (Post : Config Loc Val → Prop) :
    Prop where
  finished : ∀ c, Steps ordered c₀ c → Stuck ordered c → Finished c ∧ Post c
  finite : ∀ f : Nat → Config Loc Val, f 0 = c₀ → ¬ ∀ k, Step ordered (f k) (f (k + 1))

theorem Completes.of_stuck {c₀ : Config Loc Val} {Post : Config Loc Val → Prop}
    (h : ∀ c, Steps ordered c₀ c → Stuck ordered c → Finished c ∧ Post c) :
    Completes ordered c₀ Post :=
  ⟨h, fun f _ => Process.not_infinite wellFounded_step f⟩

end Counted
