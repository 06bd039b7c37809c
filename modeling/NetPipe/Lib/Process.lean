/-
  Sequential programs as trees of system calls, with a weakest-precondition calculus.

  A C program that talks to the outside world is, between two system calls, a pure function of
  the answers it has had so far.  `Proc` records exactly that: a program either returns, leaves
  the process, runs into undefined behaviour, or issues one request and goes on with the answer.
  The operations `Op` and the type `Res o` of their answers are parameters; memory allocation,
  the clock and emitted events are common to all programs and have constructors of their own.

  Two readings of a program are given, and every later semantics is one of the two.

  1. `Handler` / `wp` — a predicate transformer: the handler says, for each request in each
     state, what has to hold for the program to be fine whatever the answer.  `wp_bind` and
     `wp_mono` are the only rules the proofs about programs use.
  2. `Env` / `Exec` — a relation: an environment says which answers are possible, and `Exec`
     collects the outcomes.  `Exec.sound` reads `wp` back as a statement about every execution,
     `Exec.total` says that an environment that always answers has an execution to show.

  A `Proc` is a well-founded tree, so `Proc.Child` is well founded (`Proc.child_wf`): a scheduler
  that only ever moves to children stops.
-/
import Mathlib.Algebra.Order.Ring.Nat
import Mathlib.Logic.Relation
import Mathlib.Order.WellFounded

namespace Process

/-- A sequential program over the operations `Op`, with answers `Res`, emitting events `Ev`. -/
inductive Proc (Op : Type) (Res : Op → Type) (Ev α : Type) : Type where
  /-- The program returns `a`. -/
  | ret (a : α)
  /-- The program leaves the process with this status, `msg` being the last it prints. -/
  | exit (code : Int) (msg : String)
  /-- Undefined behaviour: an access outside the object it is made to. -/
  | fault
  /-- Something observable happens, with no answer to wait for. -/
  | emit (e : Ev) (k : Proc Op Res Ev α)
  /-- `malloc n`: `none` is the null pointer, `some bs` the (arbitrary) contents of the block. -/
  | malloc (n : Nat) (k : Option (List UInt8) → Proc Op Res Ev α)
  /-- The clock is read. -/
  | clock (k : Nat → Proc Op Res Ev α)
  /-- Operation `o` is issued. -/
  | io (o : Op) (k : Res o → Proc Op Res Ev α)

namespace Proc

variable {Op : Type} {Res : Op → Type} {Ev α β : Type}

/-- Sequencing. -/
def bind : Proc Op Res Ev α → (α → Proc Op Res Ev β) → Proc Op Res Ev β
  | ret a, f => f a
  | exit c msg, _ => exit c msg
  | fault, _ => fault
  | emit e k, f => emit e (k.bind f)
  | malloc n k, f => malloc n fun r => (k r).bind f
  | clock k, f => clock fun t => (k t).bind f
  | io o k, f => io o fun r => (k r).bind f

instance : Monad (Proc Op Res Ev) where
  pure := ret
  bind := bind

@[simp] theorem pure_eq (a : α) : (pure a : Proc Op Res Ev α) = ret a := rfl

@[simp] theorem bind_eq (p : Proc Op Res Ev α) (f : α → Proc Op Res Ev β) :
    p >>= f = p.bind f := rfl

/-- A computation on plain data that is undefined where it yields nothing. -/
def ofOption : Option α → Proc Op Res Ev α
  | some a => ret a
  | none => fault

/-! ## Programs are well-founded trees -/

/-- `Child p' p` — `p'` is what `p` becomes after one answer. -/
inductive Child : Proc Op Res Ev α → Proc Op Res Ev α → Prop where
  | emit (e k) : Child k (emit e k)
  | malloc (n k r) : Child (k r) (malloc n k)
  | clock (k t) : Child (k t) (clock k)
  | io (o k r) : Child (k r) (io o k)

/-- Every program is accessible — structural induction, one case per constructor. -/
theorem child_acc (p : Proc Op Res Ev α) : Acc Child p := by
  induction p with
  | ret a => exact ⟨_, fun _ h => by cases h⟩
  | exit c msg => exact ⟨_, fun _ h => by cases h⟩
  | fault => exact ⟨_, fun _ h => by cases h⟩
  | emit e k ih => exact ⟨_, fun _ h => by cases h; exact ih⟩
  | malloc n k ih => exact ⟨_, fun _ h => by cases h; exact ih _⟩
  | clock k ih => exact ⟨_, fun _ h => by cases h; exact ih _⟩
  | io o k ih => exact ⟨_, fun _ h => by cases h; exact ih _⟩

theorem child_wf : WellFounded (@Child Op Res Ev α) :=
  ⟨child_acc⟩

end Proc

/-! ## Weakest preconditions -/

/-- What each request demands of the state, for a program that goes on with `Q`.  `alloc n r`
    says which answers `malloc n` may give; `exit` and `fault` say when leaving the process and
    undefined behaviour are acceptable. -/
structure Handler (Op : Type) (Res : Op → Type) (Ev S : Type) where
  emit : Ev → S → (S → Prop) → Prop
  alloc : Nat → Option (List UInt8) → Prop
  io : (o : Op) → S → (Res o → S → Prop) → Prop
  exit : Int → String → S → Prop
  fault : S → Prop
  emit_mono : ∀ {e s} {Q Q' : S → Prop}, (∀ s, Q s → Q' s) → emit e s Q → emit e s Q'
  io_mono : ∀ {o s} {Q Q' : Res o → S → Prop}, (∀ r s, Q r s → Q' r s) → io o s Q → io o s Q'

section wp

variable {Op : Type} {Res : Op → Type} {Ev S α β : Type} (H : Handler Op Res Ev S)

/-- From `s`, the program is acceptable to `H` and can only return with `Q`. -/
def wp : Proc Op Res Ev α → (α → S → Prop) → S → Prop
  | .ret a, Q, s => Q a s
  | .exit c msg, _, s => H.exit c msg s
  | .fault, _, s => H.fault s
  | .emit e k, Q, s => H.emit e s fun s' => wp k Q s'
  | .malloc n k, Q, s => ∀ r, H.alloc n r → wp (k r) Q s
  | .clock k, Q, s => ∀ t, wp (k t) Q s
  | .io o k, Q, s => H.io o s fun r s' => wp (k r) Q s'

variable {H}

theorem wp_mono {p : Proc Op Res Ev α} {Q Q' : α → S → Prop} (hQ : ∀ a s, Q a s → Q' a s) :
    ∀ {s}, wp H p Q s → wp H p Q' s := by
  induction p with
  | ret a => exact hQ a _
  | exit c msg => exact id
  | fault => exact id
  | emit e k ih => exact H.emit_mono fun s h => ih h
  | malloc n k ih => exact fun h r hr => ih r (h r hr)
  | clock k ih => exact fun h t => ih t (h t)
  | io o k ih => exact H.io_mono fun r s h => ih r h

/-- **Sequencing rule**: a program that goes on as another one is fine where the first part is,
    with the rest being fine as its postcondition. -/
theorem wp_bind {p : Proc Op Res Ev α} {f : α → Proc Op Res Ev β} {Q : β → S → Prop} :
    ∀ {s}, wp H p (fun a s' => wp H (f a) Q s') s → wp H (p.bind f) Q s := by
  induction p with
  | ret a => exact id
  | exit c msg => exact id
  | fault => exact id
  | emit e k ih => exact H.emit_mono fun s h => ih h
  | malloc n k ih => exact fun h r hr => ih r (h r hr)
  | clock k ih => exact fun h t => ih t (h t)
  | io o k ih => exact H.io_mono fun r s h => ih r h

end wp

/-! ## Executions -/

/-- The answers an environment may give. -/
structure Env (Op : Type) (Res : Op → Type) (Ev S : Type) where
  emit : Ev → S → S
  alloc : Nat → Option (List UInt8) → Prop
  answer : (o : Op) → S → Res o → S → Prop

/-- How an execution ends. -/
inductive Outcome (α : Type) where
  | returned (a : α)
  | exited (code : Int) (msg : String)
  | faulted

section exec

variable {Op : Type} {Res : Op → Type} {Ev S α : Type}

/-- `Exec E p s out s'` — run in `E` from `s`, program `p` may end with `out` in `s'`. -/
inductive Exec (E : Env Op Res Ev S) : Proc Op Res Ev α → S → Outcome α → S → Prop where
  | ret {a s} : Exec E (.ret a) s (.returned a) s
  | exit {c msg s} : Exec E (.exit c msg) s (.exited c msg) s
  | fault {s} : Exec E .fault s .faulted s
  | emit {e k s out s'} : Exec E k (E.emit e s) out s' → Exec E (.emit e k) s out s'
  | malloc {n k r s out s'} : E.alloc n r → Exec E (k r) s out s' → Exec E (.malloc n k) s out s'
  | clock {k t s out s'} : Exec E (k t) s out s' → Exec E (.clock k) s out s'
  | io {o k r s s₁ out s'} : E.answer o s r s₁ → Exec E (k r) s₁ out s' →
      Exec E (.io o k) s out s'

/-- `H` accepts a request where it accepts every answer of `E`. -/
structure Handler.Demonic (H : Handler Op Res Ev S) (E : Env Op Res Ev S) : Prop where
  emit : ∀ {e s Q}, H.emit e s Q → Q (E.emit e s)
  alloc : ∀ {n r}, E.alloc n r → H.alloc n r
  io : ∀ {o s Q r s'}, H.io o s Q → E.answer o s r s' → Q r s'

/-- What `H` accepts as the end of a program that has to return with `Q`. -/
def Handler.Accepts (H : Handler Op Res Ev S) (Q : α → S → Prop) : Outcome α → S → Prop
  | .returned a, s => Q a s
  | .exited c msg, s => H.exit c msg s
  | .faulted, s => H.fault s

/-- **Soundness** for any demonic handler: what `wp` promises holds of every execution.  By
    induction on the execution, each step of which is a case the handler has provided for. -/
theorem Exec.accepted {H : Handler Op Res Ev S} {E : Env Op Res Ev S} (hH : H.Demonic E)
    {p : Proc Op Res Ev α} {Q : α → S → Prop} {s s' : S} {out : Outcome α}
    (h : Exec E p s out s') : wp H p Q s → H.Accepts Q out s' := by
  induction h with
  | ret => exact id
  | exit => exact id
  | fault => exact id
  | emit _ ih => exact fun hw => ih (hH.emit hw)
  | malloc hr _ ih => exact fun hw => ih (hw _ (hH.alloc hr))
  | clock _ ih => exact fun hw => ih (hw _)
  | io hr _ ih => exact fun hw => ih (hH.io hw hr)

/-- The demonic handler of an environment: every possible answer has to be acceptable.  `left`
    says which ways of leaving the process are, and `undefined` in which states undefined
    behaviour is; the three handlers below fix the two. -/
def Env.demon (E : Env Op Res Ev S) (left : Int → String → S → Prop) (undefined : S → Prop) :
    Handler Op Res Ev S where
  emit e s Q := Q (E.emit e s)
  alloc := E.alloc
  io o s Q := ∀ r s', E.answer o s r s' → Q r s'
  exit := left
  fault := undefined
  emit_mono hQ h := hQ _ h
  io_mono hQ h := fun r s' hr => hQ r s' (h r s' hr)

theorem Env.demonic (E : Env Op Res Ev S) {left : Int → String → S → Prop}
    {undefined : S → Prop} : (E.demon left undefined).Demonic E :=
  ⟨id, id, fun h hr => h _ _ hr⟩

/-- Leaving the process and undefined behaviour are acceptable where `bad` says so. -/
def Env.handler (E : Env Op Res Ev S) (bad : Prop) : Handler Op Res Ev S :=
  E.demon (fun _ _ _ => bad) fun _ => bad

/-- What a demonic handler accepts, it accepts with the execution that leads there: whatever is
    known of executions may be used where a program goes on. -/
theorem wp_exec {E : Env Op Res Ev S} {left : Int → String → S → Prop} {undefined : S → Prop}
    {p : Proc Op Res Ev α} {Q : α → S → Prop} : ∀ {s}, wp (E.demon left undefined) p Q s →
      wp (E.demon left undefined) p (fun a s' => Q a s' ∧ Exec E p s (.returned a) s') s := by
  induction p with
  | ret a => exact fun h => ⟨h, .ret⟩
  | exit c msg => exact id
  | fault => exact id
  | emit e k ih => exact fun h => wp_mono (fun _ _ hQ => ⟨hQ.1, .emit hQ.2⟩) (ih h)
  | malloc n k ih =>
    exact fun h r hr => wp_mono (fun _ _ hQ => ⟨hQ.1, .malloc hr hQ.2⟩) (ih r (h r hr))
  | clock k ih => exact fun h t => wp_mono (fun _ _ hQ => ⟨hQ.1, .clock hQ.2⟩) (ih t (h t))
  | io o k ih =>
    exact fun h r s' hr => wp_mono (fun _ _ hQ => ⟨hQ.1, .io hr hQ.2⟩) (ih r (h r s' hr))

/-- The outcome is a return that meets `Q`; any other one is acceptable where `bad` says so. -/
def Outcome.Meets (Q : α → Prop) (bad : Prop) : Outcome α → Prop
  | .returned a => Q a
  | _ => bad

/-- Soundness where the outcome alone decides. -/
theorem Exec.sound {E : Env Op Res Ev S} {bad : Prop} {p : Proc Op Res Ev α}
    {Q : α → S → Prop} {s s' : S} {out : Outcome α} (h : Exec E p s out s')
    (hw : wp (E.handler bad) p Q s) : out.Meets (Q · s') bad := by
  have hacc := h.accepted E.demonic hw
  cases out with
  | returned a => exact hacc
  | exited c msg => exact hacc
  | faulted => exact hacc

/-- The demonic handler where the state itself says whether the program may be left in it. -/
def Env.handlerOn (E : Env Op Res Ev S) (bad : S → Prop) : Handler Op Res Ev S :=
  E.demon (fun _ _ => bad) bad

/-- Soundness for a property of the state a program ends in, however it ends. -/
theorem Exec.sound_on {E : Env Op Res Ev S} {P : S → Prop} {p : Proc Op Res Ev α} {s s' : S}
    {out : Outcome α} (h : Exec E p s out s') (hw : wp (E.handlerOn P) p (fun _ => P) s) :
    P s' := by
  have hacc := h.accepted E.demonic hw
  cases out with
  | returned a => exact hacc
  | exited c msg => exact hacc
  | faulted => exact hacc

/-- The demonic handler where the process may be left in a state that meets `left`, and undefined
    behaviour is never acceptable. -/
def Env.strict (E : Env Op Res Ev S) (left : S → Prop) : Handler Op Res Ev S :=
  E.demon (fun _ _ => left) fun _ => False

/-- The program returns with `Q` or leaves the process in a state that meets `left`. -/
def Outcome.Ends (Q : α → S → Prop) (left : S → Prop) : Outcome α → S → Prop
  | .returned a, s => Q a s
  | .exited _ _, s => left s
  | .faulted, _ => False

/-- Soundness with undefined behaviour excluded. -/
theorem Exec.ends {E : Env Op Res Ev S} {left : S → Prop} {p : Proc Op Res Ev α}
    {Q : α → S → Prop} {s s' : S} {out : Outcome α} (h : Exec E p s out s')
    (hw : wp (E.strict left) p Q s) : out.Ends Q left s' := by
  have hacc := h.accepted E.demonic hw
  cases out with
  | returned a => exact hacc
  | exited c msg => exact hacc
  | faulted => exact hacc

/-- A return, where every other outcome is acceptable. -/
theorem Exec.returned {E : Env Op Res Ev S} {p : Proc Op Res Ev α} {a : α}
    {Q : α → S → Prop} {s s' : S} (h : Exec E p s (.returned a) s')
    (hw : wp (E.handler True) p Q s) : Q a s' :=
  h.sound hw

/-- Wherever it is started, the program does nothing undefined and returns with `Q` only. -/
def Env.Safely (E : Env Op Res Ev S) (p : Proc Op Res Ev α) (Q : α → Prop) : Prop :=
  ∀ s, wp (E.strict fun _ => True) p (fun a _ => Q a) s

section safely

variable {β : Type} {E : Env Op Res Ev S} {p : Proc Op Res Ev α} {P Q : α → Prop}

theorem Env.Safely.ret {a : α} (h : Q a) : E.Safely (.ret a) Q := fun _ => h

theorem Env.Safely.exit {code : Int} {msg : String} : E.Safely (.exit code msg) Q :=
  fun _ => trivial

theorem Env.Safely.emit {e : Ev} (h : E.Safely p Q) : E.Safely (.emit e p) Q := fun _ => h _

theorem Env.Safely.mono (h : E.Safely p P) (hQ : ∀ a, P a → Q a) : E.Safely p Q :=
  fun s => wp_mono (fun a _ => hQ a) (h s)

/-- Sequencing. -/
theorem Env.Safely.bind {Q : β → Prop} {f : α → Proc Op Res Ev β} (h : E.Safely p P)
    (hf : ∀ a, P a → E.Safely (f a) Q) : E.Safely (p.bind f) Q :=
  fun s => wp_bind (wp_mono (fun a s' ha => hf a ha s') (h s))

/-- What it says of an execution from a given state. -/
theorem Exec.safely {s s' : S} {out : Outcome α} (h : Exec E p s out s')
    (hw : wp (E.strict fun _ => True) p (fun a _ => Q a) s) :
    out ≠ .faulted ∧ ∀ a, out = .returned a → Q a := by
  have hends := h.ends hw
  cases out with
  | returned a => exact ⟨nofun, fun b hb => Outcome.returned.inj hb ▸ hends⟩
  | exited c msg => exact ⟨nofun, nofun⟩
  | faulted => exact hends.elim

end safely

/-- A program goes on where the one ahead of it has returned. -/
theorem Exec.bind {β : Type} {E : Env Op Res Ev S} {p : Proc Op Res Ev α}
    {f : α → Proc Op Res Ev β} {a : α} {s s₁ s' : S} {out : Outcome β}
    (h : Exec E p s (.returned a) s₁) (hf : Exec E (f a) s₁ out s') :
    Exec E (p.bind f) s out s' := by
  generalize hout : Outcome.returned a = out₁ at h
  induction h with
  | ret =>
    cases hout
    exact hf
  | exit => cases hout
  | fault => cases hout
  | emit _ ih => exact .emit (ih hf hout)
  | malloc hr _ ih => exact .malloc hr (ih hf hout)
  | clock _ ih => exact .clock (ih hf hout)
  | io hr _ ih => exact .io hr (ih hf hout)

/-- An environment that always has an answer lets every program come to an end. -/
theorem Exec.total {E : Env Op Res Ev S} (halloc : ∀ n, ∃ r, E.alloc n r)
    (hanswer : ∀ o s, ∃ r s', E.answer o s r s') (p : Proc Op Res Ev α) :
    ∀ s, ∃ out s', Exec E p s out s' := by
  induction p with
  | ret a => exact fun s => ⟨_, _, .ret⟩
  | exit c msg => exact fun s => ⟨_, _, .exit⟩
  | fault => exact fun s => ⟨_, _, .fault⟩
  | emit e k ih =>
    intro s
    obtain ⟨out, s', h⟩ := ih (E.emit e s)
    exact ⟨out, s', .emit h⟩
  | malloc n k ih =>
    intro s
    obtain ⟨r, hr⟩ := halloc n
    obtain ⟨out, s', h⟩ := ih r s
    exact ⟨out, s', .malloc hr h⟩
  | clock k ih =>
    intro s
    obtain ⟨out, s', h⟩ := ih 0 s
    exact ⟨out, s', .clock h⟩
  | io o k ih =>
    intro s
    obtain ⟨r, s₁, hr⟩ := hanswer o s
    obtain ⟨out, s', h⟩ := ih r s₁
    exact ⟨out, s', .io hr h⟩

/-- An execution stays one when the environment is allowed more answers. -/
theorem Exec.mono {E E' : Env Op Res Ev S} (hemit : E.emit = E'.emit)
    (halloc : ∀ n r, E.alloc n r → E'.alloc n r)
    (hanswer : ∀ o s r s', E.answer o s r s' → E'.answer o s r s')
    {p : Proc Op Res Ev α} {s s' : S} {out : Outcome α} (h : Exec E p s out s') :
    Exec E' p s out s' := by
  induction h with
  | ret => exact .ret
  | exit => exact .exit
  | fault => exact .fault
  | emit _ ih => exact .emit (hemit ▸ ih)
  | malloc hr _ ih => exact .malloc (halloc _ _ hr) ih
  | clock _ ih => exact .clock ih
  | io hr _ ih => exact .io (hanswer _ _ _ _ hr) ih

end exec

/-! ## What a program shows, kept to its end -/

section logged

variable {Op : Type} {Res : Op → Type} {Ev S α β : Type}

/-- The program, with what `f` picks of the events added to `l` and returned with the result. -/
def Proc.logged (f : Ev → Option β) : Proc Op Res Ev α → List β → Proc Op Res Ev (α × List β)
  | ret a, l => ret (a, l)
  | exit c msg, _ => exit c msg
  | fault, _ => fault
  | emit e k, l => emit e (k.logged f (l ++ (f e).toList))
  | malloc n k, l => malloc n fun r => (k r).logged f l
  | clock k, l => clock fun t => (k t).logged f l
  | io o k, l => io o fun r => (k r).logged f l

/-- The handler with the log beside its state. -/
def Handler.recording (H : Handler Op Res Ev S) (f : Ev → Option β) :
    Handler Op Res Ev (S × List β) where
  emit e s Q := H.emit e s.1 fun s' => Q (s', s.2 ++ (f e).toList)
  alloc := H.alloc
  io o s Q := H.io o s.1 fun r s' => Q r (s', s.2)
  exit c msg s := H.exit c msg s.1
  fault s := H.fault s.1
  emit_mono hQ h := H.emit_mono (fun _ h => hQ _ h) h
  io_mono hQ h := H.io_mono (fun _ _ h => hQ _ _ h) h

/-- What is proved with the log beside the state holds of the log that is returned. -/
theorem wp_logged {H : Handler Op Res Ev S} {f : Ev → Option β} {p : Proc Op Res Ev α}
    {Q : α × List β → S → Prop} :
    ∀ {s l}, wp (H.recording f) p (fun a s => Q (a, s.2) s.1) (s, l) → wp H (p.logged f l) Q s := by
  induction p with
  | ret a => exact id
  | exit c msg => exact id
  | fault => exact id
  | emit e k ih => exact H.emit_mono fun s h => ih h
  | malloc n k ih => exact fun h r hr => ih r (h r hr)
  | clock k ih => exact fun h t => ih t (h t)
  | io o k ih => exact H.io_mono fun r s h => ih r h

end logged

/-! ## Step relations that go down -/

section runs

variable {C : Type} {step : C → C → Prop} (hwf : WellFounded fun c' c => step c c')

include hwf

/-- No execution goes on for ever. -/
theorem not_infinite (f : Nat → C) : ¬ ∀ k, step (f k) (f (k + 1)) := fun h =>
  (wellFounded_iff_isEmpty_descending_chain.mp hwf).false ⟨f, h⟩

/-- From everywhere some execution can be driven to its end. -/
theorem exists_last (c : C) :
    ∃ c', Relation.ReflTransGen step c c' ∧ ∀ c'', ¬ step c' c'' := by
  induction c using hwf.induction with
  | _ c ih =>
    by_cases hc : ∀ c', ¬ step c c'
    · exact ⟨c, .refl, hc⟩
    · obtain ⟨c₁, h₁⟩ := not_forall_not.mp hc
      obtain ⟨c', hsteps, hlast⟩ := ih c₁ h₁
      exact ⟨c', .head h₁ hsteps, hlast⟩

end runs

end Process
