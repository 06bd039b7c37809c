/-
  `shmem.c` and `armci.c`: size and repeat count through one word of memory.

  PE 0 writes the value into PE 1's `pNrepeat` and then 1 into its `flag`; PE 1 waits for the flag,
  reads the value and sets the flag back.  Nothing tells PE 0 that this has happened, and
  `run_iters` sends two values.  The two modules do the same, `armci.c` finding the remote
  addresses in its registry; puts of one PE are stored in the order in which they are issued.

  1. **Where a run is** (`Shape`, `Shape.step`): `k` instructions of PE 0, `a` puts stored, `t`
     instructions of PE 1.  These three numbers say everything about programs and puts; a step
     raises one of them.

  2. **Timely runs** (`Timely`, `Good.step`).  The second flag is stored after PE 1 has set back
     the first one, and the second value after it has read the first one.  The load-bearing part
     of `Good` is when the flag of PE 1 is set: exactly where a value is waiting that has not been
     taken.  While a run is timely this is kept, and so the values are right.

  3. **Runs that are not** (`LostFlag.step`, `Overwritten.step`).  A flag set twice before it is
     set back is one flag, and PE 1 will wait for the other for ever; a value overwritten before
     it is read is lost.  Neither is ever made good, so the condition is exact
     (`mailbox_delivers`), and there are such runs for all values (`mailbox_loses`).
-/
import Mathlib.Tactic.IntervalCases
import NetPipe.Lib.OneSided

namespace NetPipe.Mailbox

open OneSided

/-! ## The program -/

/-- The words both PEs have. -/
inductive Var where
  | flag
  | pNrepeat
  deriving DecidableEq, Repr

abbrev Code := List (Instr Var UInt32)

/-- `Setup`: the flag of PE `ipe`. -/
def setup (ipe : Fin 2) (mem : Var → UInt32) : Var → UInt32 :=
  Function.update mem .flag (if ipe = 0 then 1 else 0)

/-- `SendRepeat(p, rpt)`. -/
def sendRepeat (rpt : UInt32) : Code :=
  [.store .pNrepeat rpt, .put [(.pNrepeat, .pNrepeat)], .put [(.flag, .flag)]]

/-- `RecvRepeat(p, rpt)`. -/
def recvRepeat (ipe nbor : UInt32) : Code :=
  [.await .flag ipe, .read .pNrepeat, .store .flag nbor]

/-- PE 0 sends two values, PE 1 receives two; what `pNrepeat` holds before is arbitrary. -/
def start (size nrepeat : UInt32) (mem₀ mem₁ : Var → UInt32) : Config Var UInt32 :=
  ![.start (setup 0 mem₀) (sendRepeat size ++ sendRepeat nrepeat),
    .start (setup 1 mem₁) (recvRepeat 1 0 ++ recvRepeat 1 0)]

/-! ## Where a run is -/

section runs

variable (size nrepeat : UInt32) (junk₀ junk₁ : UInt32)

/-- The puts among the first `k` instructions of PE 0. -/
def issued : Nat → Nat
  | 0 => 0
  | 1 => 0
  | 2 => 1
  | 3 => 2
  | 4 => 2
  | 5 => 3
  | _ => 4

/-- The puts of PE 0. -/
def posts : List (Nat × List (Var × UInt32)) :=
  [(0, [(.pNrepeat, size)]), (1, [(.flag, 1)]), (2, [(.pNrepeat, nrepeat)]), (3, [(.flag, 1)])]

/-- `pNrepeat` of PE 0 after `k` instructions. -/
def source (k : Nat) : UInt32 := if k = 0 then junk₀ else if k ≤ 3 then size else nrepeat

/-- `pNrepeat` of PE 1 when `a` puts are stored. -/
def slot (a : Nat) : UInt32 := if a = 0 then junk₁ else if a ≤ 2 then size else nrepeat

/-- PE 0 has executed `k` instructions. -/
structure Sender (p : Pe Var UInt32) (k : Nat) : Prop where
  le : k ≤ 6
  flag : p.mem .flag = 1
  source : p.mem .pNrepeat = source size nrepeat junk₀ k
  todo : p.todo = (sendRepeat size ++ sendRepeat nrepeat).drop k
  puts : p.puts = issued k
  inbox : p.inbox = []

/-- PE 1 has executed `t` instructions, and the first `a` of the puts that the first `k`
    instructions of PE 0 have issued are stored. -/
structure Receiver (p : Pe Var UInt32) (k a t : Nat) : Prop where
  le_issued : a ≤ issued k
  le : t ≤ 6
  slot : p.mem .pNrepeat = slot size nrepeat junk₁ a
  todo : p.todo = (recvRepeat 1 0 ++ recvRepeat 1 0).drop t
  got : p.got.length = (t + 1) / 3
  inbox : p.inbox = ((posts size nrepeat).take (issued k)).drop a
  arrived : p.arrived = List.range a

/-- Both. -/
structure Shape (c : Config Var UInt32) (k a t : Nat) : Prop where
  sender : Sender size nrepeat junk₀ (c 0) k
  receiver : Receiver size nrepeat junk₁ (c 1) k a t

variable {size nrepeat junk₀ junk₁} {p : Pe Var UInt32} {k a t : Nat}

theorem issued_le (k : Nat) : issued k ≤ 4 := by
  unfold issued
  split <;> omega

theorem Sender.store {l : Var} {v : UInt32} {rest : Code} (h : Sender size nrepeat junk₀ p k)
    (htodo : p.todo = .store l v :: rest) :
    k < 6 ∧ issued (k + 1) = issued k ∧
      Sender size nrepeat junk₀ { p.write l v with todo := rest } (k + 1) := by
  have hk := h.le
  have hdrop := h.todo.symm.trans htodo
  interval_cases k <;>
    simp only [sendRepeat, List.cons_append, List.nil_append, List.drop_succ_cons, List.drop_zero,
      List.drop_nil, List.cons.injEq, Instr.store.injEq, reduceCtorEq, false_and] at hdrop
  · obtain ⟨⟨rfl, rfl⟩, rfl⟩ := hdrop
    exact ⟨by omega, rfl, by omega, h.flag, rfl, rfl, h.puts, h.inbox⟩
  · obtain ⟨⟨rfl, rfl⟩, rfl⟩ := hdrop
    exact ⟨by omega, rfl, by omega, h.flag, rfl, rfl, h.puts, h.inbox⟩

theorem Sender.put {ws : List (Var × Var)} {rest : Code} (h : Sender size nrepeat junk₀ p k)
    (htodo : p.todo = .put ws :: rest) :
    k < 6 ∧ issued (k + 1) = issued k + 1 ∧
      (posts size nrepeat)[issued k]? = some (p.puts, p.payload ws) ∧
      Sender size nrepeat junk₀ { p with todo := rest, puts := p.puts + 1 } (k + 1) := by
  have hk := h.le
  have hdrop := h.todo.symm.trans htodo
  have hputs := h.puts
  have hflag := h.flag
  have hsource := h.source
  interval_cases k <;>
    simp only [sendRepeat, List.cons_append, List.nil_append, List.drop_succ_cons, List.drop_zero,
      List.drop_nil, List.cons.injEq, Instr.put.injEq, reduceCtorEq, false_and] at hdrop
  all_goals
    obtain ⟨rfl, rfl⟩ := hdrop
    refine ⟨by omega, rfl, ?_, by omega, hflag, hsource, rfl, ?_, h.inbox⟩
    · rw [hputs, Pe.payload]
      simp only [List.map_cons, List.map_nil, hflag, hsource]
      rfl
    · show p.puts + 1 = _
      rw [hputs]
      rfl

/-- PE 0 neither reads nor waits. -/
theorem Sender.acts (h : Sender size nrepeat junk₀ p k) {i : Instr Var UInt32} {rest : Code}
    (htodo : p.todo = i :: rest) : (∃ l v, i = .store l v) ∨ ∃ ws, i = .put ws := by
  have hk := h.le
  have hdrop := h.todo.symm.trans htodo
  interval_cases k <;>
    simp only [sendRepeat, List.cons_append, List.nil_append, List.drop_succ_cons, List.drop_zero,
      List.drop_nil, List.cons.injEq, reduceCtorEq] at hdrop
  all_goals
    obtain ⟨rfl, -⟩ := hdrop
    first
      | exact Or.inl ⟨_, _, rfl⟩
      | exact Or.inr ⟨_, rfl⟩

/-- Nor is it sent anything. -/
theorem Sender.nothing {before behind : List (Nat × List (Var × UInt32))}
    {post : Nat × List (Var × UInt32)} (h : Sender size nrepeat junk₀ p k) :
    p.inbox ≠ before ++ post :: behind := by
  rw [h.inbox]
  exact (List.append_ne_nil_of_right_ne_nil _ (List.cons_ne_nil _ _)).symm

theorem Receiver.await {l : Var} {v : UInt32} {rest : Code}
    (h : Receiver size nrepeat junk₁ p k a t) (htodo : p.todo = .await l v :: rest)
    (hmem : p.mem l = v) :
    t % 3 = 0 ∧ p.mem .flag = 1 ∧
      Receiver size nrepeat junk₁ { p with todo := rest } k a (t + 1) := by
  have ht := h.le
  have hdrop := h.todo.symm.trans htodo
  have hgot := h.got
  interval_cases t <;>
    simp only [recvRepeat, List.cons_append, List.nil_append, List.drop_succ_cons, List.drop_zero,
      List.drop_nil, List.cons.injEq, Instr.await.injEq, reduceCtorEq, false_and] at hdrop
  all_goals
    obtain ⟨⟨rfl, rfl⟩, rfl⟩ := hdrop
    exact ⟨rfl, hmem, h.le_issued, by omega, h.slot, rfl, hgot, h.inbox, h.arrived⟩

theorem Receiver.read {l : Var} {rest : Code} (h : Receiver size nrepeat junk₁ p k a t)
    (htodo : p.todo = .read l :: rest) :
    t % 3 = 1 ∧ p.mem l = Mailbox.slot size nrepeat junk₁ a ∧
      Receiver size nrepeat junk₁ { p with todo := rest, got := p.got ++ [p.mem l] } k a
        (t + 1) := by
  have ht := h.le
  have hdrop := h.todo.symm.trans htodo
  have hgot := h.got
  interval_cases t <;>
    simp only [recvRepeat, List.cons_append, List.nil_append, List.drop_succ_cons, List.drop_zero,
      List.drop_nil, List.cons.injEq, Instr.read.injEq, reduceCtorEq, false_and] at hdrop
  all_goals
    obtain ⟨rfl, rfl⟩ := hdrop
    refine ⟨rfl, h.slot, h.le_issued, by omega, h.slot, rfl, ?_, h.inbox, h.arrived⟩
    rw [List.length_append, hgot]
    rfl

theorem Receiver.store {l : Var} {v : UInt32} {rest : Code}
    (h : Receiver size nrepeat junk₁ p k a t) (htodo : p.todo = .store l v :: rest) :
    t % 3 = 2 ∧ l = .flag ∧ v = 0 ∧
      Receiver size nrepeat junk₁ { p.write l v with todo := rest } k a (t + 1) := by
  have ht := h.le
  have hdrop := h.todo.symm.trans htodo
  have hgot := h.got
  interval_cases t <;>
    simp only [recvRepeat, List.cons_append, List.nil_append, List.drop_succ_cons, List.drop_zero,
      List.drop_nil, List.cons.injEq, Instr.store.injEq, reduceCtorEq, false_and] at hdrop
  all_goals
    obtain ⟨⟨rfl, rfl⟩, rfl⟩ := hdrop
    exact ⟨rfl, rfl, rfl, h.le_issued, by omega, h.slot, rfl, hgot, h.inbox, h.arrived⟩

/-- PE 1 puts nothing. -/
theorem Receiver.not_put {ws : List (Var × Var)} {rest : Code}
    (h : Receiver size nrepeat junk₁ p k a t) : p.todo ≠ .put ws :: rest := by
  intro htodo
  have ht := h.le
  have hdrop := h.todo.symm.trans htodo
  interval_cases t <;>
    simp only [recvRepeat, List.cons_append, List.nil_append, List.drop_succ_cons, List.drop_zero,
      List.drop_nil, List.cons.injEq, reduceCtorEq, false_and] at hdrop

/-- PE 0 executes an instruction that is not a put. -/
theorem Receiver.quiet (h : Receiver size nrepeat junk₁ p k a t)
    (hk : issued (k + 1) = issued k) : Receiver size nrepeat junk₁ p (k + 1) a t :=
  ⟨hk ▸ h.le_issued, h.le, h.slot, h.todo, h.got, hk ▸ h.inbox, h.arrived⟩

/-- PE 0 issues a put. -/
theorem Receiver.post {post : Nat × List (Var × UInt32)}
    (h : Receiver size nrepeat junk₁ p k a t) (hk : issued (k + 1) = issued k + 1)
    (hpost : (posts size nrepeat)[issued k]? = some post) :
    Receiver size nrepeat junk₁ { p with inbox := p.inbox ++ [post] } (k + 1) a t := by
  have hle := h.le_issued
  have hlt : issued k < (posts size nrepeat).length := (List.getElem?_eq_some_iff.mp hpost).1
  refine ⟨by omega, h.le, h.slot, h.todo, h.got, ?_, h.arrived⟩
  show p.inbox ++ [post] = _
  rw [hk, List.take_add_one, hpost, Option.toList_some, List.drop_append_of_le_length, h.inbox]
  rw [List.length_take]
  omega

/-- The next put is stored. -/
theorem Receiver.last {before behind : List (Nat × List (Var × UInt32))} {num : Nat} {l : Var}
    {v : UInt32} (h : Receiver size nrepeat junk₁ p k a t)
    (hinbox : p.inbox = before ++ (num, [(l, v)]) :: behind) (hbefore : before = []) :
    a < issued k ∧ (a % 2 = 1 → l = .flag ∧ v = 1) ∧ (a % 2 = 0 → l = .pNrepeat) ∧
      Receiver size nrepeat junk₁
        { p.write l v with inbox := before ++ behind, arrived := p.arrived ++ [num] } k (a + 1)
        t := by
  subst hbefore
  have hle := issued_le k
  have hdrop := h.inbox.symm.trans hinbox
  rw [List.nil_append] at hdrop
  have hlt : a < issued k := by
    by_contra hge
    rw [List.drop_eq_nil_of_le (by rw [List.length_take]; omega)] at hdrop
    cases hdrop
  have hget : (posts size nrepeat)[a]? = some (num, [(l, v)]) := by
    have := congrArg (fun xs => xs[0]?) hdrop
    simpa [List.getElem?_drop, List.getElem?_take, hlt] using this
  have hrest : behind = ((posts size nrepeat).take (issued k)).drop (a + 1) := by
    rw [← List.drop_drop, hdrop]
    rfl
  have harrived : p.arrived ++ [num] = List.range (a + 1) := by
    have hnum : num = a := by
      have : a < 4 := by omega
      interval_cases a <;> cases hget <;> rfl
    rw [h.arrived, hnum, List.range_succ]
  have ha : a < 4 := by omega
  have hslot := h.slot
  interval_cases a <;> cases hget
  · exact ⟨hlt, by omega, fun _ => rfl, hlt, h.le, rfl, h.todo, h.got, hrest, harrived⟩
  · exact ⟨hlt, fun _ => ⟨rfl, rfl⟩, by omega, hlt, h.le, hslot, h.todo, h.got, hrest, harrived⟩
  · exact ⟨hlt, by omega, fun _ => rfl, hlt, h.le, rfl, h.todo, h.got, hrest, harrived⟩
  · exact ⟨hlt, fun _ => ⟨rfl, rfl⟩, by omega, hlt, h.le, hslot, h.todo, h.got, hrest, harrived⟩

/-- Every put is a single word. -/
theorem Receiver.singleWord {before behind : List (Nat × List (Var × UInt32))} {num : Nat}
    {ws : List (Var × UInt32)} (h : Receiver size nrepeat junk₁ p k a t)
    (hinbox : p.inbox = before ++ (num, ws) :: behind) : ws.length = 1 := by
  have hall : ∀ post ∈ posts size nrepeat, post.2.length = 1 := by
    simp [posts]
  have hdrop : (num, ws) ∈ ((posts size nrepeat).take (issued k)).drop a := by
    rw [← h.inbox, hinbox]
    exact List.mem_append_right _ List.mem_cons_self
  exact hall _ (List.mem_of_mem_take (List.mem_of_mem_drop hdrop))

variable {c c' : Config Var UInt32}

/-- **What a step does**: PE 0 executes an instruction, a put is stored, or PE 1 executes one.
    Puts of one PE are kept in order, so it is always the next one that is stored. -/
theorem Shape.step (h : Shape size nrepeat junk₀ junk₁ c k a t) (hs : Step true c c') :
    (k < 6 ∧ Shape size nrepeat junk₀ junk₁ c' (k + 1) a t ∧
      (c' 1).mem .flag = (c 1).mem .flag ∧ (c' 1).got = (c 1).got) ∨
    (a < issued k ∧ Shape size nrepeat junk₀ junk₁ c' k (a + 1) t ∧
      (c' 1).mem .flag = (if a % 2 = 1 then 1 else (c 1).mem .flag) ∧ (c' 1).got = (c 1).got) ∨
    (Shape size nrepeat junk₀ junk₁ c' k a (t + 1) ∧ (t % 3 = 0 → (c 1).mem .flag = 1) ∧
      (c' 1).mem .flag = (if t % 3 = 2 then 0 else (c 1).mem .flag) ∧
      (c' 1).got = if t % 3 = 1 then (c 1).got ++ [slot size nrepeat junk₁ a] else (c 1).got) := by
  obtain ⟨hsender, hreceiver⟩ := h
  obtain ⟨x, hs⟩ := hs
  cases hs with
  | @store l v rest htodo =>
    match x with
    | 0 =>
      obtain ⟨hk, hissued, hsender'⟩ := hsender.store htodo
      exact Or.inl ⟨hk, ⟨hsender', hreceiver.quiet hissued⟩, rfl, rfl⟩
    | 1 =>
      obtain ⟨ht, rfl, rfl, hreceiver'⟩ := hreceiver.store htodo
      refine Or.inr (Or.inr ⟨⟨hsender, hreceiver'⟩, by omega, ?_, ?_⟩)
      · rw [if_pos ht]
        rfl
      · rw [if_neg (by omega)]
        rfl
  | @read l rest htodo =>
    match x with
    | 0 =>
      rcases hsender.acts htodo with ⟨l, v, heq⟩ | ⟨ws, heq⟩
      · cases heq
      · cases heq
    | 1 =>
      obtain ⟨ht, hslot, hreceiver'⟩ := hreceiver.read htodo
      refine Or.inr (Or.inr ⟨⟨hsender, hreceiver'⟩, by omega, ?_, ?_⟩)
      · rw [if_neg (by omega)]
        rfl
      · rw [if_pos ht, ← hslot]
        rfl
  | @await l v rest htodo hmem =>
    match x with
    | 0 =>
      rcases hsender.acts htodo with ⟨l, v, heq⟩ | ⟨ws, heq⟩
      · cases heq
      · cases heq
    | 1 =>
      obtain ⟨ht, hflag, hreceiver'⟩ := hreceiver.await htodo hmem
      refine Or.inr (Or.inr ⟨⟨hsender, hreceiver'⟩, fun _ => hflag, ?_, ?_⟩)
      · rw [if_neg (by omega)]
        rfl
      · rw [if_neg (by omega)]
        rfl
  | @put ws rest htodo =>
    match x with
    | 0 =>
      obtain ⟨hk, hissued, hpost, hsender'⟩ := hsender.put htodo
      exact Or.inl ⟨hk, ⟨hsender', hreceiver.post hissued hpost⟩, rfl, rfl⟩
    | 1 => exact absurd htodo hreceiver.not_put
  | @word before num w₁ l v w₂ behind hinbox hw hbefore =>
    match x with
    | 0 => exact absurd hinbox hsender.nothing
    | 1 =>
      -- no part of a put is left after its first word
      have hlen := hreceiver.singleWord hinbox
      have hpos := List.length_pos_iff.mpr hw
      simp only [List.length_append, List.length_cons] at hlen
      omega
  | @last before num l v behind hinbox hbefore =>
    match x with
    | 0 => exact absurd hinbox hsender.nothing
    | 1 =>
      obtain ⟨ha, hodd, heven, hreceiver'⟩ := hreceiver.last hinbox (hbefore rfl)
      refine Or.inr (Or.inl ⟨ha, ⟨hsender, hreceiver'⟩, ?_, rfl⟩)
      rcases Nat.mod_two_eq_zero_or_one a with hmod | hmod
      · rw [if_neg (by omega), heven hmod]
        rfl
      · obtain ⟨rfl, rfl⟩ := hodd hmod
        rw [if_pos hmod]
        rfl

theorem Shape.exists_next (h : Shape size nrepeat junk₀ junk₁ c k a t) (hs : Step true c c') :
    ∃ k' a' t', Shape size nrepeat junk₀ junk₁ c' k' a' t' := by
  rcases h.step hs with ⟨-, h', -⟩ | ⟨-, h', -⟩ | ⟨h', -⟩
  · exact ⟨_, _, _, h'⟩
  · exact ⟨_, _, _, h'⟩
  · exact ⟨_, _, _, h'⟩

/-- A run starts with nothing executed. -/
theorem shape_start (size nrepeat : UInt32) (mem₀ mem₁ : Var → UInt32) :
    Shape size nrepeat (mem₀ .pNrepeat) (mem₁ .pNrepeat) (start size nrepeat mem₀ mem₁) 0 0 0 :=
  ⟨⟨by omega, rfl, rfl, rfl, rfl, rfl⟩, ⟨le_rfl, by omega, rfl, rfl, rfl, rfl, rfl⟩⟩

/-- What is left to do says where a run is. -/
theorem Shape.progress (h : Shape size nrepeat junk₀ junk₁ c k a t) :
    (c 1).arrived.length = a ∧ (c 1).todo.length = 6 - t := by
  rw [h.receiver.arrived, h.receiver.todo, List.length_range, List.length_drop]
  exact ⟨rfl, rfl⟩

/-! ## Timely runs -/

/-- The second flag is not stored before PE 1 has set back the first one, nor the second value
    before it has read the first one (which does not matter where they are the same). -/
def Timely (size nrepeat : UInt32) (c : Config Var UInt32) : Prop :=
  ((c 1).arrived.length = 4 → (c 1).todo.length ≤ 3) ∧
    (3 ≤ (c 1).arrived.length → (c 1).todo.length ≤ 4 ∨ size = nrepeat)

/-- Runs that are timely all along. -/
abbrev TimelySteps (size nrepeat : UInt32) : Config Var UInt32 → Config Var UInt32 → Prop :=
  Relation.ReflTransGen fun c c' => Step true c c' ∧ Timely size nrepeat c'

/-- In a timely run: the flag is set where a value is waiting, and the values are right.  The bounds
    relate the puts stored to the instructions of PE 1; the first two hold as it waits for the flag,
    the other two are timeliness, and together they say when the flag is set. -/
def Good (size nrepeat junk₀ junk₁ : UInt32) (c : Config Var UInt32) : Prop :=
  ∃ k a t, Shape size nrepeat junk₀ junk₁ c k a t ∧ (1 ≤ t → 2 ≤ a) ∧ (4 ≤ t → 4 ≤ a) ∧
    (a = 4 → 3 ≤ t) ∧ (3 ≤ a → 2 ≤ t ∨ size = nrepeat) ∧
    ((c 1).mem .flag = 1 ↔ (2 ≤ a ∧ t < 3) ∨ (a = 4 ∧ t < 6)) ∧
    (c 1).got = [size, nrepeat].take ((t + 1) / 3)

theorem good_start (mem₀ mem₁ : Var → UInt32) :
    Good size nrepeat (mem₀ .pNrepeat) (mem₁ .pNrepeat) (start size nrepeat mem₀ mem₁) := by
  have hflag : (start size nrepeat mem₀ mem₁ 1).mem .flag ≠ 1 :=
    show (0 : UInt32) ≠ 1 by decide
  exact ⟨0, 0, 0, shape_start .., by omega, by omega, by omega, by omega,
    ⟨fun h => absurd h hflag, by omega⟩, rfl⟩

/-- One step of a timely run. -/
theorem Good.step (h : Good size nrepeat junk₀ junk₁ c) (hs : Step true c c')
    (ht : Timely size nrepeat c') : Good size nrepeat junk₀ junk₁ c' := by
  obtain ⟨k, a, t, hshape, hwait₁, hwait₂, hflag₂, hvalue₂, hflag, hgot⟩ := h
  rcases hshape.step hs with ⟨-, hshape', hflag', hgot'⟩ | ⟨ha, hshape', hflag', hgot'⟩ |
    ⟨hshape', hawait, hflag', hgot'⟩
  · exact ⟨k + 1, a, t, hshape', hwait₁, hwait₂, hflag₂, hvalue₂, hflag' ▸ hflag, hgot'.trans hgot⟩
  · -- a put is stored: the step is timely, so the flag or the value before it has been used
    obtain ⟨harrived, htodo⟩ := hshape'.progress
    have hle := hshape'.receiver.le
    have hfour := issued_le k
    rw [Timely, harrived, htodo] at ht
    refine ⟨k, a + 1, t, hshape', by omega, by omega, by omega,
      fun h => (ht.2 h).imp_left (by omega), ?_, hgot'.trans hgot⟩
    rw [hflag']
    split
    · exact ⟨fun _ => by omega, fun _ => rfl⟩
    · rw [hflag]
      omega
  · -- PE 1 executes an instruction: past a wait its flag must have been stored
    have hle := hshape'.receiver.le
    have hfour : a ≤ 4 := hshape.receiver.le_issued.trans (issued_le k)
    have htwo : 1 ≤ t + 1 → 2 ≤ a := by
      intro _
      by_cases h0 : t = 0
      · have := hflag.mp (hawait (by omega))
        omega
      · exact hwait₁ (by omega)
    have hall : 4 ≤ t + 1 → 4 ≤ a := by
      intro _
      by_cases h3 : t = 3
      · have := hflag.mp (hawait (by omega))
        omega
      · exact hwait₂ (by omega)
    refine ⟨k, a, t + 1, hshape', htwo, hall, by omega,
      fun h => (hvalue₂ h).imp_left (by omega), ?_, ?_⟩
    · rw [hflag']
      split
      · exact ⟨fun h => absurd h (by decide), fun h => by omega⟩
      · rw [hflag]
        omega
    · rw [hgot', hgot]
      split
      · -- it reads: the first value the first time, the second one the second time
        have hread : t = 1 ∨ t = 4 := by omega
        rcases hread with rfl | rfl
        · have ha := hwait₁ le_rfl
          have hslot : slot size nrepeat junk₁ a = size := by
            rw [slot, if_neg (by omega)]
            split
            · rfl
            · rcases hvalue₂ (by omega) with h | h
              · omega
              · exact h.symm
          rw [hslot]
          rfl
        · have ha := hwait₂ le_rfl
          have hslot : slot size nrepeat junk₁ a = nrepeat := by
            rw [slot, if_neg (by omega), if_neg (by omega)]
          rw [hslot]
          rfl
      · rw [show (t + 1 + 1) / 3 = (t + 1) / 3 by omega]

/-- PE 0 never waits. -/
theorem Shape.next₀ (h : Shape size nrepeat junk₀ junk₁ c k a t) (hk : k < 6) :
    ∃ c', Step true c c' ∧ Shape size nrepeat junk₀ junk₁ c' (k + 1) a t := by
  obtain ⟨hsender, hreceiver⟩ := h
  have htodo := hsender.todo
  interval_cases k
  all_goals first
    | obtain ⟨-, hissued, hsender'⟩ := hsender.store htodo
      exact ⟨_, ⟨0, .store htodo⟩, hsender', hreceiver.quiet hissued⟩
    | obtain ⟨-, hissued, hpost, hsender'⟩ := hsender.put htodo
      exact ⟨_, ⟨0, .put htodo⟩, hsender', hreceiver.post hissued hpost⟩

/-- A put that is issued can be stored. -/
theorem Shape.nextStored (h : Shape size nrepeat junk₀ junk₁ c k a t) (ha : a < issued k) :
    ∃ c', Step true c c' ∧ Shape size nrepeat junk₀ junk₁ c' k (a + 1) t ∧
      (a % 2 = 1 → (c' 1).mem .flag = 1) := by
  obtain ⟨hsender, hreceiver⟩ := h
  have hle := issued_le k
  have hlt : a < ((posts size nrepeat).take (issued k)).length := by
    rw [List.length_take]
    exact lt_min ha (show a < 4 by omega)
  have hinbox := hreceiver.inbox
  rw [List.drop_eq_getElem_cons hlt, List.getElem_take] at hinbox
  have hfour : a < 4 := by omega
  interval_cases a
  all_goals
    have hstored := Receiver.last hreceiver (show (c 1).inbox = [] ++ _ from hinbox) rfl
    refine ⟨_, ⟨1, @Act.last _ _ _ _ c 1 [] _ _ _ _ hinbox fun _ => rfl⟩,
      ⟨hsender, hstored.2.2.2⟩, ?_⟩
    first
      | exact fun h => absurd h (by decide)
      | exact fun _ => rfl

/-- PE 1 goes on unless it waits for a flag that is not set. -/
theorem Shape.next₁ (h : Shape size nrepeat junk₀ junk₁ c k a t) (ht : t < 6)
    (hflag : t % 3 = 0 → (c 1).mem .flag = 1) :
    ∃ c', Step true c c' ∧ Shape size nrepeat junk₀ junk₁ c' k a (t + 1) ∧
      (c' 1).mem .flag = if t % 3 = 2 then 0 else (c 1).mem .flag := by
  obtain ⟨hsender, hreceiver⟩ := h
  have htodo := hreceiver.todo
  interval_cases t
  all_goals first
    | exact ⟨_, ⟨1, .await htodo (hflag rfl)⟩,
        ⟨hsender, (hreceiver.await htodo (hflag rfl)).2.2⟩, rfl⟩
    | exact ⟨_, ⟨1, .read htodo⟩, ⟨hsender, (hreceiver.read htodo).2.2⟩, rfl⟩
    | exact ⟨_, ⟨1, .store htodo⟩, ⟨hsender, (hreceiver.store htodo).2.2.2⟩, rfl⟩

/-- Where no step is possible PE 0 is done, all puts are stored, and PE 1 is done or waits for a
    flag that is not set. -/
theorem Shape.stuck (h : Shape size nrepeat junk₀ junk₁ c k a t) (hs : Stuck true c) :
    k = 6 ∧ a = 4 ∧ (t = 6 ∨ t % 3 = 0 ∧ (c 1).mem .flag ≠ 1) := by
  have hk : k = 6 := by
    by_contra hne
    have hle := h.sender.le
    obtain ⟨c', hstep, -⟩ := h.next₀ (by omega)
    exact hs c' hstep
  subst hk
  have ha : a = 4 := by
    by_contra hne
    have hle : a ≤ 4 := h.receiver.le_issued
    obtain ⟨c', hstep, -⟩ := h.nextStored (show a < 4 by omega)
    exact hs c' hstep
  refine ⟨rfl, ha, ?_⟩
  by_contra hne
  rw [not_or, not_and, not_not] at hne
  have hle := h.receiver.le
  obtain ⟨c', hstep, -⟩ := h.next₁ (by omega) hne.2
  exact hs c' hstep

/-- A timely run ends with both values received. -/
theorem Good.stuck (h : Good size nrepeat junk₀ junk₁ c) (hs : Stuck true c) :
    Finished c ∧ (c 1).got = [size, nrepeat] := by
  obtain ⟨k, a, t, hshape, -, -, hflag₂, -, hflag, hgot⟩ := h
  obtain ⟨rfl, rfl, ht⟩ := hshape.stuck hs
  have hle := hshape.receiver.le
  have hsix : t = 6 := by
    rcases ht with ht | ⟨hmod, hne⟩
    · exact ht
    · have := hflag₂ rfl
      by_contra hlt
      exact hne (hflag.mpr (by omega))
  subst hsix
  refine ⟨fun x => ?_, hgot⟩
  match x with
  | 0 => exact hshape.sender.todo
  | 1 => exact hshape.receiver.todo

/-! ## Runs that are not timely -/

/-- Both flags are stored while PE 1 has set back none: it will set back one, and wait.  There are
    only four puts, so nothing sets the flag again. -/
def LostFlag (size nrepeat junk₀ junk₁ : UInt32) (c : Config Var UInt32) : Prop :=
  ∃ k t, Shape size nrepeat junk₀ junk₁ c k 4 t ∧ (t < 3 ∨ t = 3 ∧ (c 1).mem .flag ≠ 1)

theorem LostFlag.step (h : LostFlag size nrepeat junk₀ junk₁ c) (hs : Step true c c') :
    LostFlag size nrepeat junk₀ junk₁ c' := by
  obtain ⟨k, t, hshape, ht⟩ := h
  rcases hshape.step hs with ⟨-, hshape', hflag, -⟩ | ⟨ha, -, -, -⟩ | ⟨hshape', hawait, hflag, -⟩
  · exact ⟨k + 1, t, hshape', by rwa [hflag]⟩
  · have := issued_le k
    omega
  · refine ⟨k, t + 1, hshape', ?_⟩
    rcases ht with ht | ⟨rfl, hne⟩
    · by_cases h2 : t = 2
      · refine Or.inr ⟨by omega, ?_⟩
        rw [hflag, if_pos (by omega)]
        decide
      · exact Or.inl (by omega)
    · exact absurd (hawait rfl) hne

theorem LostFlag.not_finished (h : LostFlag size nrepeat junk₀ junk₁ c) : ¬ Finished c := by
  obtain ⟨k, t, hshape, ht⟩ := h
  intro hfin
  have hlen := hshape.progress.2
  rw [hfin 1, List.length_nil] at hlen
  omega

/-- The second value is stored before PE 1 has read the first, and is another one. -/
def Overwritten (size nrepeat junk₀ junk₁ : UInt32) (c : Config Var UInt32) : Prop :=
  ∃ k a t, Shape size nrepeat junk₀ junk₁ c k a t ∧ 3 ≤ a ∧ size ≠ nrepeat ∧
    (2 ≤ t → (c 1).got.head? = some nrepeat)

theorem Overwritten.step (h : Overwritten size nrepeat junk₀ junk₁ c) (hs : Step true c c') :
    Overwritten size nrepeat junk₀ junk₁ c' := by
  obtain ⟨k, a, t, hshape, ha, hne, hgot⟩ := h
  rcases hshape.step hs with ⟨-, hshape', -, hgot'⟩ | ⟨-, hshape', -, hgot'⟩ |
    ⟨hshape', -, -, hgot'⟩
  · exact ⟨k + 1, a, t, hshape', ha, hne, hgot' ▸ hgot⟩
  · exact ⟨k, a + 1, t, hshape', by omega, hne, hgot' ▸ hgot⟩
  · refine ⟨k, a, t + 1, hshape', ha, hne, ?_⟩
    intro htwo
    have hlen := hshape.receiver.got
    rw [hgot']
    by_cases h1 : t = 1
    · -- the first value is read, and it is the second one
      subst h1
      rw [if_pos rfl, List.length_eq_zero_iff.mp hlen, slot, if_neg (by omega), if_neg (by omega)]
      rfl
    · split
      · rw [List.head?_append, hgot (by omega)]
        rfl
      · exact hgot (by omega)

theorem Overwritten.got_ne (h : Overwritten size nrepeat junk₀ junk₁ c) (hfin : Finished c) :
    (c 1).got ≠ [size, nrepeat] := by
  obtain ⟨k, a, t, hshape, -, hne, hgot⟩ := h
  intro heq
  have hlen := hshape.progress.2
  rw [hfin 1, List.length_nil] at hlen
  have hhead := hgot (by omega)
  rw [heq] at hhead
  exact hne (Option.some.inj hhead)

/-- A run is timely, or has lost a flag or a value. -/
theorem timely_or_lost (mem₀ mem₁ : Var → UInt32)
    (h : Steps true (start size nrepeat mem₀ mem₁) c) :
    (Good size nrepeat (mem₀ .pNrepeat) (mem₁ .pNrepeat) c ∧
      TimelySteps size nrepeat (start size nrepeat mem₀ mem₁) c) ∨
    LostFlag size nrepeat (mem₀ .pNrepeat) (mem₁ .pNrepeat) c ∨
    Overwritten size nrepeat (mem₀ .pNrepeat) (mem₁ .pNrepeat) c := by
  induction h with
  | refl => exact Or.inl ⟨good_start mem₀ mem₁, .refl⟩
  | @tail c c' _ hs ih =>
    rcases ih with ⟨hgood, hsteps⟩ | hlost | hover
    · by_cases ht : Timely size nrepeat c'
      · exact Or.inl ⟨hgood.step hs ht, hsteps.tail ⟨hs, ht⟩⟩
      · -- this step is the first that is not timely
        obtain ⟨k, a, t, hshape, -⟩ := hgood
        obtain ⟨k', a', t', hshape'⟩ := hshape.exists_next hs
        have hle' := hshape'.receiver.le
        obtain ⟨harrived, htodo⟩ := hshape'.progress
        rw [Timely, harrived, htodo, not_and_or] at ht
        rcases ht with ht | ht
        · rw [Classical.not_imp] at ht
          obtain ⟨rfl, htodo⟩ := ht
          exact Or.inr (Or.inl ⟨k', t', hshape', Or.inl (by omega)⟩)
        · rw [Classical.not_imp, not_or] at ht
          obtain ⟨ha, htodo, hne⟩ := ht
          exact Or.inr (Or.inr ⟨k', a', t', hshape', ha, hne, fun h => by omega⟩)
    · exact Or.inr (Or.inl (hlost.step hs))
    · exact Or.inr (Or.inr (hover.step hs))

/-- What holds in every state of a timely run. -/
theorem good_of_timely (mem₀ mem₁ : Var → UInt32)
    (h : TimelySteps size nrepeat (start size nrepeat mem₀ mem₁) c) :
    Good size nrepeat (mem₀ .pNrepeat) (mem₁ .pNrepeat) c := by
  induction h with
  | refl => exact good_start mem₀ mem₁
  | tail _ hs ih => exact ih.step hs.1 hs.2

/-- PE 0 can execute everything before anything is stored. -/
theorem exists_sent (size nrepeat : UInt32) (mem₀ mem₁ : Var → UInt32) : ∀ k ≤ 6,
    ∃ c, Steps true (start size nrepeat mem₀ mem₁) c ∧
      Shape size nrepeat (mem₀ .pNrepeat) (mem₁ .pNrepeat) c k 0 0 := by
  intro k
  induction k with
  | zero => exact fun _ => ⟨_, .refl, shape_start ..⟩
  | succ k ih =>
    intro hk
    obtain ⟨c, hsteps, hshape⟩ := ih (by omega)
    obtain ⟨c', hstep, hshape'⟩ := hshape.next₀ (by omega)
    exact ⟨c', hsteps.tail hstep, hshape'⟩

/-- And everything can be stored before PE 1 looks: the last put is a flag. -/
theorem exists_all_stored (size nrepeat : UInt32) (mem₀ mem₁ : Var → UInt32) : ∀ a ≤ 4,
    ∃ c, Steps true (start size nrepeat mem₀ mem₁) c ∧
      Shape size nrepeat (mem₀ .pNrepeat) (mem₁ .pNrepeat) c 6 a 0 ∧
      (a = 4 → (c 1).mem .flag = 1) := by
  intro a
  induction a with
  | zero =>
    intro _
    obtain ⟨c, hsteps, hshape⟩ := exists_sent size nrepeat mem₀ mem₁ 6 le_rfl
    exact ⟨c, hsteps, hshape, by omega⟩
  | succ a ih =>
    intro ha
    obtain ⟨c, hsteps, hshape, -⟩ := ih (by omega)
    obtain ⟨c', hstep, hshape', hflag⟩ := hshape.nextStored (show a < 4 by omega)
    exact ⟨c', hsteps.tail hstep, hshape', fun h => hflag (by omega)⟩

/-- Both flags can be stored before PE 1 looks, and then it waits for a third one. -/
theorem exists_lost (size nrepeat : UInt32) (mem₀ mem₁ : Var → UInt32) :
    ∃ c, Steps true (start size nrepeat mem₀ mem₁) c ∧ Stuck true c ∧ ¬ Finished c := by
  obtain ⟨c, hsteps, hshape, hflag⟩ := exists_all_stored size nrepeat mem₀ mem₁ 4 le_rfl
  -- the first `RecvRepeat` sets the flag back for both
  obtain ⟨c₁, hs₁, hshape₁, hflag₁⟩ := hshape.next₁ (by omega) fun _ => hflag rfl
  obtain ⟨c₂, hs₂, hshape₂, hflag₂⟩ := hshape₁.next₁ (by omega) fun h => absurd h (by decide)
  obtain ⟨c₃, hs₃, hshape₃, hflag₃⟩ := hshape₂.next₁ (by omega) fun h => absurd h (by decide)
  have hzero : (c₃ 1).mem .flag ≠ 1 := by
    rw [hflag₃, if_pos rfl]
    decide
  refine ⟨c₃, ((hsteps.tail hs₁).tail hs₂).tail hs₃, ?_, ?_⟩
  · intro c' hs
    rcases hshape₃.step hs with ⟨h, -⟩ | ⟨h, -⟩ | ⟨-, h, -⟩
    · omega
    · exact absurd h (by decide)
    · exact hzero (h rfl)
  · exact (show LostFlag size nrepeat _ _ c₃ from
      ⟨6, 3, hshape₃, Or.inr ⟨rfl, hzero⟩⟩).not_finished

end runs

/-- **The mailbox** delivers both values in exactly the runs that are timely: in every state of
    such a run PE 1 has been handed size and repeat count, or the first part of them, and it ends
    with both received; and a run that ends so was timely. -/
theorem mailbox_delivers (size nrepeat : UInt32) (mem₀ mem₁ : Var → UInt32) :
    (∀ c, TimelySteps size nrepeat (start size nrepeat mem₀ mem₁) c →
      (c 1).got <+: [size, nrepeat] ∧
        (Stuck true c → Finished c ∧ (c 1).got = [size, nrepeat])) ∧
    ∀ c, Steps true (start size nrepeat mem₀ mem₁) c → Finished c → (c 1).got = [size, nrepeat] →
      TimelySteps size nrepeat (start size nrepeat mem₀ mem₁) c := by
  constructor
  · intro c hc
    have hgood := good_of_timely mem₀ mem₁ hc
    refine ⟨?_, hgood.stuck⟩
    obtain ⟨k, a, t, -, -, -, -, -, -, hgot⟩ := hgood
    rw [hgot]
    exact List.take_prefix ..
  · intro c hc hfin hgot
    rcases timely_or_lost mem₀ mem₁ hc with ⟨-, hsteps⟩ | hlost | hover
    · exact hsteps
    · exact absurd hfin hlost.not_finished
    · exact absurd hgot (hover.got_ne hfin)

/-- One run of eight bits: PE 1 can end up waiting for ever. -/
theorem mailbox_loses :
    ¬ ∀ c, Steps true (start 8 1 (fun _ => 0) fun _ => 0) c →
      (c 1).got <+: [8, 1] ∧ (Stuck true c → Finished c ∧ (c 1).got = [8, 1]) := by
  intro hall
  obtain ⟨c, hsteps, hstuck, hnot⟩ := exists_lost 8 1 (fun _ => 0) fun _ => 0
  exact hnot ((hall c hsteps).2 hstuck).1

end NetPipe.Mailbox
