/-
  Two processing elements with one-sided communication.

  Each PE has its own memory and a straight-line program over it.  A put copies words of its memory
  into the other PE's: what is copied is what is there when the put is issued, and it is stored at
  the other side later, word by word.

  * Within a put the words are stored in any order, but the last one is stored last.  That is what
    a receiver that polls the last word of a message relies on.
  * Puts of one PE overtake each other, unless the network is `ordered`.
  * A PE that waits for a word goes on at some moment at which the word has the value; it need not
    look at the first such moment, nor ever if the word is written over before it does.

  Puts are numbered by the PE that issues them; `arrived` are the numbers of those that have been
  stored entirely, in the order in which that happened.  No program can see either, but "the put it
  waits for has been stored" can be said with them.

  The inversion lemmas (`Act.of_nil`, `Act.of_store`, `Act.of_put`, `Act.of_await`) say once what a
  PE at some instruction can do, and the words stored on it are `Act.of_arrival`; from the other
  side, a put on its way can always be stored (`exists_stored`).
-/
import Mathlib.Algebra.Order.Ring.Nat
import Mathlib.Data.Fin.VecNotation
import Mathlib.Logic.Function.Basic
import Mathlib.Logic.Relation

namespace OneSided

/-- There are two PEs: what the literals `0` and `1` for them rest on. -/
scoped instance two_pes : NeZero 2 := ⟨two_ne_zero⟩

variable {Loc Val : Type}

/-- One instruction of a PE. -/
inductive Instr (Loc Val : Type) where
  /-- `*l = v`. -/
  | store (l : Loc) (v : Val)
  /-- The word at `l` is handed to the caller. -/
  | read (l : Loc)
  /-- `while (*l != v);`. -/
  | await (l : Loc) (v : Val)
  /-- Words of one's own memory copied to these of the other PE. -/
  | put (ws : List (Loc × Loc))

/-- A PE. -/
structure Pe (Loc Val : Type) where
  mem : Loc → Val
  todo : List (Instr Loc Val)
  /-- What the caller has been handed. -/
  got : List Val
  /-- Number of puts issued. -/
  puts : Nat
  /-- Puts of the other PE on their way, with the words not stored yet. -/
  inbox : List (Nat × List (Loc × Val))
  arrived : List Nat

/-- A PE about to run a program. -/
def Pe.start (mem : Loc → Val) (todo : List (Instr Loc Val)) : Pe Loc Val :=
  ⟨mem, todo, [], 0, [], []⟩

/-- Both PEs; the other one of `x` is `1 - x`. -/
abbrev Config (Loc Val : Type) := Fin 2 → Pe Loc Val

variable [DecidableEq Loc]

/-- A word stored. -/
def Pe.write (p : Pe Loc Val) (l : Loc) (v : Val) : Pe Loc Val :=
  { p with mem := Function.update p.mem l v }

/-- The words of a put, with their values. -/
def Pe.payload (p : Pe Loc Val) (ws : List (Loc × Loc)) : List (Loc × Val) :=
  ws.map fun w => (w.2, p.mem w.1)

/-- What happens at PE `x`: it executes an instruction, or a word is stored in its memory.  A put is
    the one instruction that changes the other PE too. -/
inductive Act (ordered : Bool) (c : Config Loc Val) (x : Fin 2) : Config Loc Val → Prop where
  | store {l v rest} : (c x).todo = .store l v :: rest →
      Act ordered c x (Function.update c x { (c x).write l v with todo := rest })
  | read {l rest} : (c x).todo = .read l :: rest →
      Act ordered c x (Function.update c x
        { c x with todo := rest, got := (c x).got ++ [(c x).mem l] })
  | await {l v rest} : (c x).todo = .await l v :: rest → (c x).mem l = v →
      Act ordered c x (Function.update c x { c x with todo := rest })
  | put {ws rest} : (c x).todo = .put ws :: rest →
      Act ordered c x (Function.update
        (Function.update c x { c x with todo := rest, puts := (c x).puts + 1 }) (1 - x)
        { c (1 - x) with
          inbox := (c (1 - x)).inbox ++ [((c x).puts, (c x).payload ws)] })
  | word {before num w₁ l v w₂ behind} :
      (c x).inbox = before ++ (num, w₁ ++ (l, v) :: w₂) :: behind → w₂ ≠ [] →
      (ordered = true → before = []) →
      Act ordered c x (Function.update c x
        { (c x).write l v with inbox := before ++ (num, w₁ ++ w₂) :: behind })
  | last {before num l v behind} : (c x).inbox = before ++ (num, [(l, v)]) :: behind →
      (ordered = true → before = []) →
      Act ordered c x (Function.update c x
        { (c x).write l v with inbox := before ++ behind, arrived := (c x).arrived ++ [num] })

/-- One step. -/
def Step (ordered : Bool) (c c' : Config Loc Val) : Prop := ∃ x, Act ordered c x c'

variable {ordered : Bool}

/-- Any number of steps. -/
abbrev Steps (ordered : Bool) : Config Loc Val → Config Loc Val → Prop :=
  Relation.ReflTransGen (Step ordered)

/-- No step is possible. -/
def Stuck (ordered : Bool) (c : Config Loc Val) : Prop := ∀ c', ¬ Step ordered c c'

/-- Both programs are done. -/
def Finished (c : Config Loc Val) : Prop := ∀ x, (c x).todo = []

/-! ## What a PE does next -/

section next

variable {c c' : Config Loc Val} {x : Fin 2} {l : Loc} {v : Val} {rest : List (Instr Loc Val)}

omit [DecidableEq Loc] in
theorem other_other : ∀ x : Fin 2, 1 - (1 - x) = x := by decide

omit [DecidableEq Loc] in
theorem ne_other : ∀ x : Fin 2, x ≠ 1 - x := by decide

omit [DecidableEq Loc] in
theorem eq_or_eq_other : ∀ x z : Fin 2, z = x ∨ z = 1 - x := by decide

/-- A PE that has nothing to do, and nothing on the way to it. -/
theorem Act.of_nil (h : Act ordered c x c') (htodo : (c x).todo = []) :
    (c x).inbox ≠ [] := by
  cases h <;> simp_all

theorem Act.of_store (h : Act ordered c x c') (htodo : (c x).todo = .store l v :: rest)
    (hinbox : (c x).inbox = []) :
    c' x = { (c x).write l v with todo := rest } ∧ c' (1 - x) = c (1 - x) := by
  cases h with
  | store h' =>
    rw [htodo] at h'
    cases h'
    exact ⟨Function.update_self .., Function.update_of_ne (ne_other x).symm ..⟩
  | read h' => simp [htodo] at h'
  | await h' => simp [htodo] at h'
  | put h' => simp [htodo] at h'
  | word h' => simp [hinbox] at h'
  | last h' => simp [hinbox] at h'

theorem Act.of_put {ws : List (Loc × Loc)} (h : Act ordered c x c')
    (htodo : (c x).todo = .put ws :: rest) (hinbox : (c x).inbox = []) :
    c' x = { c x with todo := rest, puts := (c x).puts + 1 } ∧
      c' (1 - x) = { c (1 - x) with
        inbox := (c (1 - x)).inbox ++ [((c x).puts, (c x).payload ws)] } := by
  cases h with
  | put h' =>
    rw [htodo] at h'
    cases h'
    refine ⟨?_, Function.update_self ..⟩
    rw [Function.update_of_ne (ne_other x), Function.update_self]
  | store h' => simp [htodo] at h'
  | read h' => simp [htodo] at h'
  | await h' => simp [htodo] at h'
  | word h' => simp [hinbox] at h'
  | last h' => simp [hinbox] at h'

theorem Act.of_await (h : Act ordered c x c') (htodo : (c x).todo = .await l v :: rest)
    (hinbox : (c x).inbox = []) :
    (c x).mem l = v ∧ c' x = { c x with todo := rest } ∧ c' (1 - x) = c (1 - x) := by
  cases h with
  | await h' hmem =>
    rw [htodo] at h'
    cases h'
    exact ⟨hmem, Function.update_self .., Function.update_of_ne (ne_other x).symm ..⟩
  | store h' => simp [htodo] at h'
  | read h' => simp [htodo] at h'
  | put h' => simp [htodo] at h'
  | word h' => simp [hinbox] at h'
  | last h' => simp [hinbox] at h'

omit [DecidableEq Loc] in
/-- One put on the way is the put something is stored of. -/
theorem one_put {num num' : Nat} {ws ws' : List (Loc × Val)}
    {before behind : List (Nat × List (Loc × Val))}
    (h : [(num, ws)] = before ++ (num', ws') :: behind) :
    before = [] ∧ behind = [] ∧ num' = num ∧ ws = ws' := by
  cases before with
  | nil =>
    simp only [List.nil_append, List.cons.injEq, Prod.mk.injEq] at h
    exact ⟨rfl, h.2.symm, h.1.1.symm, h.1.2⟩
  | cons post before => simp at h

/-- One put on its way to a PE that waits: one of its words is stored, the last one last. -/
theorem Act.of_arrival {num : Nat} {ws : List (Loc × Val)} {w : Loc × Val}
    (h : Act ordered c x c') (htodo : (c x).todo = .await l v :: rest) (hmem : (c x).mem l ≠ v)
    (hinbox : (c x).inbox = [(num, ws ++ [w])]) :
    c' (1 - x) = c (1 - x) ∧
      ((∃ w₁ u w₂, ws = w₁ ++ u :: w₂ ∧ c' x = { (c x).write u.1 u.2 with
          inbox := [(num, w₁ ++ w₂ ++ [w])] }) ∨
        ws = [] ∧ c' x = { (c x).write w.1 w.2 with
          inbox := [], arrived := (c x).arrived ++ [num] }) := by
  cases h with
  | await h' hmem' =>
    rw [htodo] at h'
    cases h'
    exact absurd hmem' hmem
  | store h' => simp [htodo] at h'
  | read h' => simp [htodo] at h'
  | put h' => simp [htodo] at h'
  | @word before num' w₁ l' v' w₂ behind h' hw _ =>
    obtain ⟨rfl, rfl, rfl, hws⟩ := one_put (hinbox.symm.trans h')
    obtain h₂ | ⟨w₂, w', rfl⟩ := w₂.eq_nil_or_concat
    · exact absurd h₂ hw
    rw [List.concat_eq_append] at hws ⊢
    rw [← List.cons_append, ← List.append_assoc] at hws
    obtain ⟨rfl, heq⟩ := List.append_inj' hws rfl
    obtain rfl : w = w' := List.singleton_inj.mp heq
    refine ⟨Function.update_of_ne (ne_other x).symm .., Or.inl ⟨w₁, (l', v'), w₂, rfl, ?_⟩⟩
    rw [Function.update_self, ← List.append_assoc]
    rfl
  | @last before num' l' v' behind h' _ =>
    obtain ⟨rfl, rfl, rfl, hws⟩ := one_put (hinbox.symm.trans h')
    obtain ⟨rfl, heq⟩ := List.append_inj' (hws.trans (List.nil_append _).symm) rfl
    obtain rfl : w = (l', v') := List.singleton_inj.mp heq
    exact ⟨Function.update_of_ne (ne_other x).symm .., Or.inr ⟨rfl, Function.update_self ..⟩⟩

end next

/-! ## The network can always store a put -/

/-- The memory once these words have been stored, in their order. -/
def stored (mem : Loc → Val) (ws : List (Loc × Val)) : Loc → Val :=
  ws.foldl (fun mem w => Function.update mem w.1 w.2) mem

/-- The last word of a put is what the memory holds afterwards. -/
theorem stored_last (mem : Loc → Val) (ws : List (Loc × Val)) (l : Loc) (v : Val) :
    stored mem (ws ++ [(l, v)]) l = v := by
  rw [stored, List.foldl_append]
  exact Function.update_self ..

/-- Words elsewhere do not matter. -/
theorem stored_of_ne (ws : List (Loc × Val)) {l : Loc} : ∀ (mem : Loc → Val),
    (∀ w ∈ ws, w.1 ≠ l) → stored mem ws l = mem l := by
  induction ws with
  | nil => exact fun _ _ => rfl
  | cons w ws ih =>
    intro mem h
    rw [List.forall_mem_cons] at h
    refine (ih (Function.update mem w.1 w.2) h.2).trans ?_
    exact Function.update_of_ne h.1.symm _ _

/-- The one put on its way can be stored. -/
theorem exists_stored {x : Fin 2} {num : Nat} (ws : List (Loc × Val)) :
    ∀ (c : Config Loc Val), ws ≠ [] → (c x).inbox = [(num, ws)] →
      Steps ordered c (Function.update c x
        { c x with
          mem := stored (c x).mem ws, inbox := [], arrived := (c x).arrived ++ [num] }) := by
  induction ws with
  | nil => exact fun _ h => absurd rfl h
  | cons w ws ih =>
    intro c _ hinbox
    cases ws with
    | nil => exact .single ⟨x, @Act.last _ _ _ _ c x [] num w.1 w.2 [] hinbox fun _ => rfl⟩
    | cons w' ws =>
      have hstep := @Act.word _ _ _ ordered c x [] num [] w.1 w.2 (w' :: ws) [] hinbox
        (List.cons_ne_nil w' ws) fun _ => rfl
      refine .head ⟨x, hstep⟩ ?_
      have hrest := ih (Function.update c x
        { (c x).write w.1 w.2 with inbox := [(num, w' :: ws)] }) (List.cons_ne_nil w' ws)
        (by rw [Function.update_self])
      rwa [Function.update_idem, Function.update_self] at hrest

end OneSided
