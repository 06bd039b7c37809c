/-
  Ranks that pass messages and meet in collectives.

  `n` programs run side by side.  A rank sends a message to another one, receives one by source
  and tag, or calls a collective, which all ranks have to call.

  * A message is under way from the moment its send is issued; when the send returns is up to the
    network (`cap`: with 0 it returns when all messages to that rank have been received, with `⊤`
    at once).  So one definition covers standard, synchronous and buffered sends.
  * A receive gets the first message of its source with its tag; messages with other tags may
    overtake this one, those with the same tag may not.
  * A rank is in its `m`-th collective from the call until it goes on, and it can go on when every
    rank has made its `m`-th call; `complete` says with which result.  Calls that do not fit
    together never complete.

  Everything between two such requests is local.  Each step leaves one rank less to do
  (`Step.below`, `step_wf`), so there are no infinite executions, however many ranks there are: the
  ranks in order make a lexicographic product of the orders of their programs.  As for two parties
  in `Lib.Duplex`, "all ranks are bound to return" (`Completes`) therefore comes down to the
  configurations without a step (`Completes.of_stuck`).
-/
import Mathlib.Data.DFinsupp.WellFounded
import Mathlib.Data.ENat.Basic
import NetPipe.Lib.Process

namespace Ranks

open Process

/-- What a rank asks of the message-passing library.  Ranks go by their numbers. -/
inductive RankOp (Msg Coll : Type) where
  | send (dest tag : Int) (msg : Msg)
  | recv (source tag : Int)
  | coll (c : Coll)

/-- What it is answered. -/
def RankOp.Res {Msg Coll : Type} (CRes : Coll → Type) : RankOp Msg Coll → Type
  | .send .. => Unit
  | .recv .. => Msg
  | .coll c => CRes c

/-- A program of one rank. -/
abbrev RankProg (Msg : Type) {Coll : Type} (CRes : Coll → Type) (Ev α : Type) :=
  Proc (RankOp Msg Coll) (RankOp.Res CRes) Ev α

/-- The network of `n` ranks: how many messages to one rank may be under way when a send returns,
    and the results of a collective, from the calls of all ranks and one's own. -/
structure Network (n : Nat) (Coll : Type) (CRes : Coll → Type) where
  cap : ℕ∞
  complete : (Fin n → Coll) → Fin n → (c : Coll) → CRes c → Prop

/-- One rank: the rest of its program, whether the send it is at has been issued, and the
    collectives behind it. -/
structure Party (Msg : Type) {Coll : Type} (CRes : Coll → Type) (Ev α : Type) where
  prog : RankProg Msg CRes Ev α
  issued : Bool
  done : List Coll

section semantics

variable {n : Nat} {Msg Coll : Type} {CRes : Coll → Type} {Ev α : Type}

/-- The collective a program is in. -/
def inside : RankProg Msg CRes Ev α → List Coll
  | .io (.coll c) _ => [c]
  | _ => []

/-- The collectives a rank has called, in order. -/
def Party.calls (p : Party Msg CRes Ev α) : List Coll := p.done ++ inside p.prog

/-- The rank has returned `a`. -/
def Party.Returned (p : Party Msg CRes Ev α) (a : α) : Prop := p.prog = .ret a

/-- All ranks, and the messages under way by source and destination, with their tags. -/
structure Config (n : Nat) (Msg : Type) {Coll : Type} (CRes : Coll → Type) (Ev α : Type) where
  party : Fin n → Party Msg CRes Ev α
  mail : Int × Int → List (Int × Msg)

/-- All programs at their first instruction, nothing under way. -/
def Config.start (prog : Fin n → RankProg Msg CRes Ev α) : Config n Msg CRes Ev α where
  party i := ⟨prog i, false, []⟩
  mail _ := []

/-- The configuration once rank `i` has become `p`. -/
def Config.set (c : Config n Msg CRes Ev α) (i : Fin n) (p : Party Msg CRes Ev α) :
    Config n Msg CRes Ev α :=
  { c with party := Function.update c.party i p }

@[simp] theorem Config.set_mail (c : Config n Msg CRes Ev α) (i : Fin n)
    (p : Party Msg CRes Ev α) : (c.set i p).mail = c.mail := rfl

/-- The configuration with these messages under way from `a` to `b`. -/
def Config.post (c : Config n Msg CRes Ev α) (a b : Int) (ms : List (Int × Msg)) :
    Config n Msg CRes Ev α :=
  { c with mail := Function.update c.mail (a, b) ms }

variable (N : Network n Coll CRes)

/-- One step of one rank. -/
inductive Step : Config n Msg CRes Ev α → Config n Msg CRes Ev α → Prop where
  | emit {c i e k l} : c.party i = ⟨.emit e k, false, l⟩ → Step c (c.set i ⟨k, false, l⟩)
  | malloc {c i m k l bs} : c.party i = ⟨.malloc m k, false, l⟩ → bs.length = m →
      Step c (c.set i ⟨k (some bs), false, l⟩)
  | clock {c i k l} (t : Nat) : c.party i = ⟨.clock k, false, l⟩ →
      Step c (c.set i ⟨k t, false, l⟩)
  | issue {c i dest tag msg k l} : c.party i = ⟨.io (.send dest tag msg) k, false, l⟩ →
      Step c ((c.set i ⟨.io (.send dest tag msg) k, true, l⟩).post i dest
        (c.mail (i, dest) ++ [(tag, msg)]))
  | sent {c i dest tag msg k l} : c.party i = ⟨.io (.send dest tag msg) k, true, l⟩ →
      ((c.mail (i, dest)).length : ℕ∞) ≤ N.cap → Step c (c.set i ⟨k (), false, l⟩)
  | recv {c i source tag msg k l before behind} :
      c.party i = ⟨.io (.recv source tag) k, false, l⟩ →
      c.mail (source, i) = before ++ (tag, msg) :: behind → (∀ m ∈ before, m.1 ≠ tag) →
      Step c ((c.set i ⟨k msg, false, l⟩).post source i (before ++ behind))
  | coll {c i o k l ops r} : c.party i = ⟨.io (.coll o) k, false, l⟩ →
      (∀ j, (c.party j).calls[l.length]? = some (ops j)) → N.complete ops i o r →
      Step c (c.set i ⟨k r, false, l ++ [o]⟩)

/-- Any number of steps. -/
abbrev Steps : Config n Msg CRes Ev α → Config n Msg CRes Ev α → Prop :=
  Relation.ReflTransGen (Step N)

/-- No step is possible. -/
def Stuck (c : Config n Msg CRes Ev α) : Prop := ∀ c', ¬ Step N c c'

end semantics

/-! ## Every execution is finite -/

section termination

variable {n : Nat} {Msg Coll : Type} {CRes : Coll → Type} {Ev α : Type} {N : Network n Coll CRes}

/-- A rank has less to do: its program moved to a child, or its send is issued. -/
def Party.Below : Party Msg CRes Ev α → Party Msg CRes Ev α → Prop :=
  InvImage (Prod.Lex Proc.Child (· < ·)) fun p => (p.prog, (!p.issued).toNat)

theorem Party.below_wf : WellFounded (@Party.Below Msg Coll CRes Ev α) :=
  InvImage.wf _ (Proc.child_wf.prod_lex Nat.lt_wfRel.wf)

/-- A step leaves one rank less to do, and the others alone.  Mail does not count: what is sent
    makes the sender's program shorter, and no program longer. -/
theorem Step.below {c c' : Config n Msg CRes Ev α} (h : Step N c c') :
    ∃ i p, p.Below (c.party i) ∧ c'.party = Function.update c.party i p := by
  cases h with
  | @emit i e k l hp => exact ⟨i, _, hp ▸ Prod.Lex.left _ _ (.emit ..), rfl⟩
  | @malloc i m k l bs hp _ => exact ⟨i, _, hp ▸ Prod.Lex.left _ _ (.malloc ..), rfl⟩
  | @clock i k l t hp => exact ⟨i, _, hp ▸ Prod.Lex.left _ _ (.clock ..), rfl⟩
  | @issue i dest tag msg k l hp => exact ⟨i, _, hp ▸ Prod.Lex.right _ Nat.zero_lt_one, rfl⟩
  | @sent i dest tag msg k l hp _ => exact ⟨i, _, hp ▸ Prod.Lex.left _ _ (.io _ k _), rfl⟩
  | @recv i source tag msg k l _ _ hp _ _ =>
    exact ⟨i, _, hp ▸ Prod.Lex.left _ _ (.io _ k _), rfl⟩
  | @coll i o k l _ _ hp _ _ => exact ⟨i, _, hp ▸ Prod.Lex.left _ _ (.io _ k _), rfl⟩

/-- The step relation, backwards, is well founded: the ranks in order make a lexicographic
    product, and a step decreases one component of it. -/
theorem step_wf : WellFounded fun c' c : Config n Msg CRes Ev α => Step N c c' := by
  have hwf := InvImage.wf (fun c : Config n Msg CRes Ev α => c.party)
    (Pi.Lex.wellFounded (· < ·) fun _ : Fin n => @Party.below_wf Msg Coll CRes Ev α)
  refine Subrelation.wf ?_ hwf
  intro c' c h
  obtain ⟨i, p, hbelow, hparty⟩ := h.below
  refine ⟨i, ?_, ?_⟩
  · intro j hj
    show c'.party j = c.party j
    rw [hparty, Function.update_of_ne (ne_of_lt hj)]
  · show (c'.party i).Below (c.party i)
    rw [hparty, Function.update_self]
    exact hbelow

/-- **Termination.**  No execution goes on for ever. -/
theorem no_infinite_run (f : Nat → Config n Msg CRes Ev α) : ¬ ∀ k, Step N (f k) (f (k + 1)) :=
  not_infinite step_wf f

/-- From everywhere some execution can be driven to its end. -/
theorem exists_stuck (c : Config n Msg CRes Ev α) : ∃ c', Steps N c c' ∧ Stuck N c' :=
  exists_last step_wf c

/-- All ranks are bound to return, with `Post`: as long as one has not there is a step, no
    execution is infinite, and where one ends all have returned. -/
structure Completes (N : Network n Coll CRes) (c₀ : Config n Msg CRes Ev α)
    (Post : Fin n → α → Prop) : Prop where
  progress : ∀ c, Steps N c₀ c → (∃ i, ¬ ∃ a, (c.party i).Returned a) → ∃ c', Step N c c'
  finite : ∀ f : Nat → Config n Msg CRes Ev α, f 0 = c₀ → ¬ ∀ k, Step N (f k) (f (k + 1))
  returned : ∀ c, Steps N c₀ c → Stuck N c → ∀ i, ∃ a, (c.party i).Returned a ∧ Post i a

/-- It is enough to look at the configurations without a step. -/
theorem Completes.of_stuck {c₀ : Config n Msg CRes Ev α} {Post : Fin n → α → Prop}
    (h : ∀ c, Steps N c₀ c → Stuck N c → ∀ i, ∃ a, (c.party i).Returned a ∧ Post i a) :
    Completes N c₀ Post where
  progress c hc hnot := by
    obtain ⟨i, hi⟩ := hnot
    by_contra hstuck
    obtain ⟨a, ha, -⟩ := h c hc (not_exists.mp hstuck) i
    exact hi ⟨a, ha⟩
  finite f _ := no_infinite_run f
  returned := h

end termination

end Ranks
