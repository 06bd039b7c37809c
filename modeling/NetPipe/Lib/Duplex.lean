/-
  Two sequential programs joined by two reliable byte streams.

  Each party is a `Proc` over blocking `read` and `write` calls.  A write queues its bytes in
  pieces, as room in the stream allows, and returns when all are queued (or earlier, at call sites
  where short writes are allowed); a read returns any positive number of the bytes present.  Steps
  of the parties interleave freely.

  1. **What cannot be seen.**  Every byte carries the `Stamp` of the call that wrote it, every party
     keeps a `log` of the bytes it put, the bytes it got (each with the stamp of the call that got
     it) and its events.  The programs have no access to either.  What is said of a run is said of
     the two logs: who read what, written by which call, before or behind which event.

  2. **Steps** (`PStep`, `Step`).  A party's step says what it does to the streams (`Move`), so that
     most facts are proved of one party, with the streams put back in afterwards.

  3. **Every execution is finite** (`Step.below`, `no_infinite_run`), whatever the programs are: a
     step leaves one party with a smaller program, or with fewer bytes of its pending write still to
     queue.  So to show that a session completes it is enough to look at the configurations in which
     no step is possible (`Completes.of_stuck`), and there always is one to look at
     (`exists_stuck`).

  There is no end of a stream here; `Lib.Closing` adds it.
-/
import NetPipe.Lib.Process
import Mathlib.Data.ENat.Basic
import Mathlib.Order.GameAdd

namespace Duplex

open Process

/-- The stream calls; `site` names the place in the program the call is made from. -/
inductive StreamOp (σ : Type) where
  | write (site : σ) (bs : List UInt8)
  | read (site : σ) (n : Nat)

/-- `write` answers the number of bytes taken, `read` the bytes delivered (none at the end of the
    stream); `none` is an error. -/
@[reducible] def StreamOp.Res {σ : Type} : StreamOp σ → Type
  | .write _ _ => Option Nat
  | .read _ _ => Option (List UInt8)

/-- Programs over the stream calls. -/
abbrev Prog (σ Ev α : Type) := Proc (StreamOp σ) StreamOp.Res Ev α

/-- The two ends. -/
inductive Side where
  | left
  | right
  deriving DecidableEq, Repr

/-- The end across. -/
def Side.other : Side → Side
  | .left => .right
  | .right => .left

@[simp] theorem Side.other_other (s : Side) : s.other.other = s := by cases s <;> rfl

theorem Side.other_ne (s : Side) : s.other ≠ s := by cases s <;> decide

theorem Side.eq_or_eq_other (s t : Side) : t = s ∨ t = s.other := by
  cases s <;> cases t <;> simp [Side.other]

/-- Which call of a party: its position in the run and its call site. -/
structure Stamp (π σ : Type) where
  pos : π
  site : σ
  deriving DecidableEq, Repr

/-- A byte in a stream, with the stamp of the call that wrote it. -/
structure Cell (π σ : Type) where
  byte : UInt8
  stamp : Stamp π σ
  deriving DecidableEq, Repr

/-- The bytes `bs`, as the call `st` queues them. -/
def stamped {π σ : Type} (st : Stamp π σ) (bs : List UInt8) : List (Cell π σ) :=
  bs.map fun b => ⟨b, st⟩

/-- One entry of a party's log. -/
inductive Act (π σ Ev : Type) where
  /-- The party queued this byte. -/
  | put (x : Cell π σ)
  /-- The call `call` of the party took this byte off the stream. -/
  | got (call : Stamp π σ) (x : Cell π σ)
  /-- The party emitted an event. -/
  | did (p : π) (e : Ev)
  deriving DecidableEq, Repr

section logs

variable {π σ Ev : Type}

/-- The bytes put, in order. -/
def puts : List (Act π σ Ev) → List (Cell π σ)
  | [] => []
  | .put x :: l => x :: puts l
  | .got _ _ :: l => puts l
  | .did _ _ :: l => puts l

/-- The bytes got, in order. -/
def gots : List (Act π σ Ev) → List (Cell π σ)
  | [] => []
  | .put _ :: l => gots l
  | .got _ x :: l => x :: gots l
  | .did _ _ :: l => gots l

@[simp] theorem puts_nil : puts ([] : List (Act π σ Ev)) = [] := rfl
@[simp] theorem gots_nil : gots ([] : List (Act π σ Ev)) = [] := rfl

@[simp] theorem puts_append (l m : List (Act π σ Ev)) : puts (l ++ m) = puts l ++ puts m := by
  induction l with
  | nil => rfl
  | cons a l ih => cases a <;> simp [puts, ih]

@[simp] theorem gots_append (l m : List (Act π σ Ev)) : gots (l ++ m) = gots l ++ gots m := by
  induction l with
  | nil => rfl
  | cons a l ih => cases a <;> simp [gots, ih]

@[simp] theorem puts_map_put (xs : List (Cell π σ)) :
    puts (xs.map (.put : Cell π σ → Act π σ Ev)) = xs := by
  induction xs with
  | nil => rfl
  | cons x xs ih => simp [puts, ih]

@[simp] theorem gots_map_put (xs : List (Cell π σ)) :
    gots (xs.map (.put : Cell π σ → Act π σ Ev)) = [] := by
  induction xs with
  | nil => rfl
  | cons x xs ih => simp [gots, ih]

@[simp] theorem puts_map_got (st : Stamp π σ) (xs : List (Cell π σ)) :
    puts (xs.map (.got st : Cell π σ → Act π σ Ev)) = [] := by
  induction xs with
  | nil => rfl
  | cons x xs ih => simp [puts, ih]

@[simp] theorem gots_map_got (st : Stamp π σ) (xs : List (Cell π σ)) :
    gots (xs.map (.got st : Cell π σ → Act π σ Ev)) = xs := by
  induction xs with
  | nil => rfl
  | cons x xs ih => simp [gots, ih]

theorem mem_puts {x : Cell π σ} {l : List (Act π σ Ev)} : x ∈ puts l ↔ .put x ∈ l := by
  induction l with
  | nil => simp
  | cons a l ih => cases a <;> simp [puts, ih]

theorem mem_gots {x : Cell π σ} {l : List (Act π σ Ev)} :
    x ∈ gots l ↔ ∃ call, .got call x ∈ l := by
  induction l with
  | nil => simp
  | cons a l ih => cases a <;> simp [gots, ih, exists_or]

@[simp] theorem stamped_length (st : Stamp π σ) (bs : List UInt8) :
    (stamped st bs).length = bs.length := by simp [stamped]

@[simp] theorem stamped_append (st : Stamp π σ) (bs cs : List UInt8) :
    stamped st (bs ++ cs) = stamped st bs ++ stamped st cs := by simp [stamped]

@[simp] theorem stamped_bytes (st : Stamp π σ) (bs : List UInt8) :
    (stamped st bs).map Cell.byte = bs := by simp [stamped, Function.comp_def]

@[simp] theorem stamped_nil (st : Stamp π σ) : stamped st [] = [] := rfl

theorem stamped_take (st : Stamp π σ) (bs : List UInt8) (n : Nat) :
    (stamped st bs).take n = stamped st (bs.take n) := by simp [stamped, List.map_take]

theorem stamped_drop (st : Stamp π σ) (bs : List UInt8) (n : Nat) :
    (stamped st bs).drop n = stamped st (bs.drop n) := by simp [stamped, List.map_drop]

theorem mem_stamped {x : Cell π σ} {st : Stamp π σ} {bs : List UInt8} (h : x ∈ stamped st bs) :
    x.stamp = st := by
  obtain ⟨b, -, rfl⟩ := List.mem_map.mp h
  rfl

end logs

/-! ## The parties and the streams -/

/-- What the environment may do: the room in each stream, the call sites whose writes may be
    short, whether allocation may fail. -/
structure Discipline (σ : Type) where
  cap : Side → ℕ∞
  short : σ → Prop
  allocFails : Prop

/-- The answers `malloc n` may give. -/
def Discipline.alloc {σ : Type} (D : Discipline σ) (n : Nat) (r : Option (List UInt8)) : Prop :=
  (∃ bs, r = some bs ∧ bs.length = n) ∨ (D.allocFails ∧ r = none)

/-- A party: the program it has yet to run, the number of bytes of its pending write that are
    already queued, its position and its log.  The last two are for us only; no step depends on
    them. -/
structure Party (π σ Ev α : Type) where
  prog : Prog σ Ev α
  queued : Nat
  pos : π
  log : List (Act π σ Ev)

/-- What a party's step does to the streams. -/
inductive Move (π σ : Type) where
  | tau
  | out (xs : List (Cell π σ))
  | inp (xs : List (Cell π σ))

section step

variable {π σ Ev α : Type} (D : Discipline σ) (adv : Ev → π → π)

/-- The steps of one party; `adv` says how an event moves its position. -/
inductive PStep : Party π σ Ev α → Move π σ → Party π σ Ev α → Prop where
  | emit {e k p l} : PStep ⟨.emit e k, 0, p, l⟩ .tau ⟨k, 0, adv e p, l ++ [.did p e]⟩
  | malloc {n k p l r} : D.alloc n r → PStep ⟨.malloc n k, 0, p, l⟩ .tau ⟨k r, 0, p, l⟩
  | clock {k p l} (t) : PStep ⟨.clock k, 0, p, l⟩ .tau ⟨k t, 0, p, l⟩
  | queue {site bs k q p l chunk rest} : bs.drop q = chunk ++ rest → chunk ≠ [] →
      PStep ⟨.io (.write site bs) k, q, p, l⟩ (.out (stamped ⟨p, site⟩ chunk))
        ⟨.io (.write site bs) k, q + chunk.length, p, l ++ (stamped ⟨p, site⟩ chunk).map .put⟩
  | wrote {site bs k p l q} : q = bs.length →
      PStep ⟨.io (.write site bs) k, q, p, l⟩ .tau ⟨k (some q), 0, p, l⟩
  | wroteShort {site bs k p l q} : D.short site → 0 < q → q < bs.length →
      PStep ⟨.io (.write site bs) k, q, p, l⟩ .tau ⟨k (some q), 0, p, l⟩
  | read {site n k p l xs} : xs ≠ [] → xs.length ≤ n →
      PStep ⟨.io (.read site n) k, 0, p, l⟩ (.inp xs)
        ⟨k (some (xs.map Cell.byte)), 0, p, l ++ xs.map (.got ⟨p, site⟩)⟩

/-- The two parties and the bytes under way; `chan s` holds what `s` wrote and the end across has
    not read yet. -/
structure Config (π σ Ev α : Type) where
  party : Side → Party π σ Ev α
  chan : Side → List (Cell π σ)

/-- One step of either party. -/
inductive Step : Config π σ Ev α → Config π σ Ev α → Prop where
  | tau {c s p'} : PStep D adv (c.party s) .tau p' →
      Step c ⟨Function.update c.party s p', c.chan⟩
  | out {c s xs p'} : PStep D adv (c.party s) (.out xs) p' →
      ((c.chan s ++ xs).length : ℕ∞) ≤ D.cap s →
      Step c ⟨Function.update c.party s p', Function.update c.chan s (c.chan s ++ xs)⟩
  | inp {c s xs rest p'} : c.chan s.other = xs ++ rest → PStep D adv (c.party s) (.inp xs) p' →
      Step c ⟨Function.update c.party s p', Function.update c.chan s.other rest⟩

/-- Any number of steps. -/
abbrev Steps : Config π σ Ev α → Config π σ Ev α → Prop := Relation.ReflTransGen (Step D adv)

/-- No step is possible. -/
def Stuck (c : Config π σ Ev α) : Prop := ∀ c', ¬ Step D adv c c'

/-- Both programs at their first instruction, nothing under way. -/
def Config.start (p : π) (prog : Side → Prog σ Ev α) : Config π σ Ev α where
  party s := ⟨prog s, 0, p, []⟩
  chan _ := []

/-- The party has returned `a`. -/
def Party.Returned (p : Party π σ Ev α) (a : α) : Prop := p.prog = .ret a

/-- The party has left the process or run into undefined behaviour. -/
def Party.Aborted (p : Party π σ Ev α) : Prop := (∃ c msg, p.prog = .exit c msg) ∨ p.prog = .fault

end step

/-! ## Every execution is finite -/

section termination

variable {π σ Ev α : Type} {D : Discipline σ} {adv : Ev → π → π}

/-- Length of the write a program is at. -/
def writeLen : Prog σ Ev α → Nat
  | .io (.write _ bs) _ => bs.length
  | _ => 0

/-- A party has less to do: its program moved to a child, or more of its pending write is
    queued. -/
def Party.Below : Party π σ Ev α → Party π σ Ev α → Prop :=
  InvImage (Prod.Lex Proc.Child (· < ·)) fun p => (p.prog, writeLen p.prog - p.queued)

theorem Party.below_wf : WellFounded (@Party.Below π σ Ev α) :=
  InvImage.wf _ (Proc.child_wf.prod_lex Nat.lt_wfRel.wf)

/-- Every step of a party leaves it less to do. -/
theorem PStep.below {p p' : Party π σ Ev α} {m : Move π σ} (h : PStep D adv p m p') :
    p'.Below p := by
  cases h with
  | emit => exact Prod.Lex.left _ _ (.emit ..)
  | malloc => exact Prod.Lex.left _ _ (.malloc ..)
  | clock t => exact Prod.Lex.left _ _ (.clock ..)
  | @queue site bs k q p l chunk rest hbs hne =>
    refine Prod.Lex.right _ ?_
    have hlen := congrArg List.length hbs
    have hpos : 0 < chunk.length := List.length_pos_iff.mpr hne
    simp only [List.length_drop, List.length_append] at hlen
    simp only [writeLen]
    omega
  | @wrote _ _ k => exact Prod.Lex.left _ _ (.io _ k _)
  | @wroteShort _ _ k => exact Prod.Lex.left _ _ (.io _ k _)
  | @read _ _ k => exact Prod.Lex.left _ _ (.io _ k _)

/-- A relation whose steps let one party go on and leave the other alone is well founded,
    backwards: it is part of the game sum of the two parties' orders. -/
theorem wf_of_below {R : Config π σ Ev α → Config π σ Ev α → Prop}
    (hR : ∀ c c', R c c' →
      ∃ s p', Party.Below p' (c.party s) ∧ c'.party = Function.update c.party s p') :
    WellFounded fun c' c => R c c' := by
  have hwf := InvImage.wf (fun c : Config π σ Ev α => (c.party .left, c.party .right))
    ((@Party.below_wf π σ Ev α).prod_gameAdd Party.below_wf)
  refine Subrelation.wf ?_ hwf
  intro c' c h
  obtain ⟨s, p', hp', hc'⟩ := hR c c' h
  show Prod.GameAdd Party.Below Party.Below (c'.party .left, c'.party .right)
    (c.party .left, c.party .right)
  rw [hc']
  cases s with
  | left => exact Prod.GameAdd.fst (by simpa using hp')
  | right => exact Prod.GameAdd.snd (by simpa using hp')

/-- Steps go down. -/
theorem Step.below {c c' : Config π σ Ev α} (h : Step D adv c c') :
    ∃ s p', Party.Below p' (c.party s) ∧ c'.party = Function.update c.party s p' := by
  cases h with
  | tau hp => exact ⟨_, _, hp.below, rfl⟩
  | out hp _ => exact ⟨_, _, hp.below, rfl⟩
  | inp _ hp => exact ⟨_, _, hp.below, rfl⟩

theorem step_wf : WellFounded fun c' c : Config π σ Ev α => Step D adv c c' :=
  wf_of_below fun _ _ => Step.below

/-- **Termination.**  No execution goes on for ever. -/
theorem no_infinite_run (f : Nat → Config π σ Ev α) : ¬ ∀ n, Step D adv (f n) (f (n + 1)) :=
  not_infinite step_wf f

/-- From everywhere some execution can be driven to its end. -/
theorem exists_stuck (c : Config π σ Ev α) : ∃ c', Steps D adv c c' ∧ Stuck D adv c' :=
  exists_last step_wf c

/-- Both parties are bound to return, with `Post`: as long as one has not there is a step, no
    execution is infinite, and where one ends both have returned. -/
structure Completes (D : Discipline σ) (adv : Ev → π → π) (c₀ : Config π σ Ev α)
    (Post : Side → α → Prop) : Prop where
  progress : ∀ c, Steps D adv c₀ c → (∃ s, ¬ ∃ a, (c.party s).Returned a) →
    ∃ c', Step D adv c c'
  finite : ∀ f : Nat → Config π σ Ev α, f 0 = c₀ → ¬ ∀ n, Step D adv (f n) (f (n + 1))
  returned : ∀ c, Steps D adv c₀ c → Stuck D adv c → ∀ s, ∃ a, (c.party s).Returned a ∧ Post s a

/-- It is enough to look at the configurations without a step. -/
theorem Completes.of_stuck {c₀ : Config π σ Ev α} {Post : Side → α → Prop}
    (h : ∀ c, Steps D adv c₀ c → Stuck D adv c → ∀ s, ∃ a, (c.party s).Returned a ∧ Post s a) :
    Completes D adv c₀ Post where
  progress c hc hnot := by
    obtain ⟨s, hs⟩ := hnot
    by_contra hstuck
    obtain ⟨a, ha, -⟩ := h c hc (not_exists.mp hstuck) s
    exact hs ⟨a, ha⟩
  finite f _ := no_infinite_run f
  returned := h

end termination

end Duplex
