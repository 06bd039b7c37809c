/-
  Two PEs that bounce a buffer, each finding out by its target counter.

  A PE's turn is a put into the other one's buffer; the other one waits until its target counter
  says so, reads the buffer, and has its turn.  With `r` turns still to come the PE whose turn it is
  has `hold x r` to do and the other one `wait x r`, as in `Lib.Sentinel`, where polling the last
  word takes the place of the counter.  The PEs are those of `Lib.Counted`.

  1. **One PE** (`Holding`, `Issued`, `Waiting`, `Polled`): what it is at, and what it does there.
     One inversion lemma for each says all it can do next.

  2. **Where both are** (`Stage`): a put is in one place at a time — still in memory, on its way
     with some words stored, counted, or seen.  One step leads from stage to stage (`Inv.step`).
     What carries the words is `Carried`: each of them is on its way or stored already, whichever
     of them come first.

  3. **Every run** (`completes`).  However the words overtake each other, each buffer read is the
     other one's, provided that the puts do not touch what they are made of, nor one word twice
     (`Apart`).  The values do not come into it, while polling asks for a last word that differs
     from what was there before.
-/
import NetPipe.Lib.Counted

namespace Rally

open Counted
open OneSided (other_other ne_other eq_or_eq_other)
open scoped OneSided

variable {Loc Val : Type}

section game

-- the words each PE puts
variable (words : Fin 2 → List (Loc × Loc))

/-- The words of its buffer, read one after the other. -/
def cells (x : Fin 2) : List Loc := (words (1 - x)).map Prod.snd

mutual

/-- The rest of the program of the PE whose turn it is, with `r` turns to come. -/
def hold (x : Fin 2) : Nat → List (Instr Loc Val)
  | 0 => []
  | r + 1 => .put (words x) :: .waitOrigin :: wait x r

/-- The rest of the program of the other one. -/
def wait (x : Fin 2) : Nat → List (Instr Loc Val)
  | 0 => []
  | r + 1 => .poll :: .waitTarget :: ((cells words x).map .read ++ hold x r)

end

/-- PE 0 begins, and each has `k` turns. -/
def start (mem : Fin 2 → Loc → Val) (k : Nat) : Config Loc Val :=
  fun x => .start (mem x) (if x = 0 then hold words x (2 * k) else wait words x (2 * k))

/-- The values a PE puts. -/
def content (mem : Fin 2 → Loc → Val) (x : Fin 2) : List Val := (words x).map fun w => mem x w.1

/-- Nothing is stored where the values come from, nor twice in one place. -/
structure Apart : Prop where
  kept : ∀ x, ∀ w ∈ words x, ∀ w' ∈ words (1 - x), w.1 ≠ w'.2
  once : ∀ x, ∀ w ∈ words x, ∀ w' ∈ words x, w.2 = w'.2 → w = w'

/-! ## One PE -/

/-- It has the turn, after the words `ls` of its buffer have been read. -/
structure Holding (x : Fin 2) (r : Nat) (ls : List Loc) (p : Pe Loc Val) : Prop where
  todo : p.todo = ls.map .read ++ hold words x r
  leaving : p.leaving = []
  origin : p.origin = 0
  inbox : p.inbox = []
  target : p.target = 0

/-- It has issued its put. -/
structure Issued (x : Fin 2) (r : Nat) (p : Pe Loc Val) : Prop where
  todo : p.todo = .waitOrigin :: wait words x r
  leaving : p.leaving = [words x]
  origin : p.origin = 0
  inbox : p.inbox = []
  target : p.target = 0

/-- Its put has left it.  Puts `ib` are on the way to it, and `t` have been counted. -/
structure Waiting (x : Fin 2) (r : Nat) (ib : List (List (Loc × Val))) (t : Nat)
    (p : Pe Loc Val) : Prop where
  todo : p.todo = wait words x r ∧ p.origin = 0 ∨
    p.todo = .waitOrigin :: wait words x r ∧ p.origin = 1
  leaving : p.leaving = []
  inbox : p.inbox = ib
  target : p.target = t

/-- It has seen that a put has been counted. -/
structure Polled (x : Fin 2) (r : Nat) (p : Pe Loc Val) : Prop where
  todo : p.todo = .waitTarget :: ((cells words x).map .read ++ hold words x r)
  leaving : p.leaving = []
  origin : p.origin = 0
  inbox : p.inbox = []
  target : p.target = 1

variable [DecidableEq Loc]

variable {words} {ordered : Bool} {x : Fin 2} {r t : Nat} {ib : List (List (Loc × Val))}
  {p p' : Pe Loc Val}

/-- It reads the next word, or puts. -/
theorem Holding.own {ls : List Loc} (h : Holding words x r ls p) (hs : Own ordered p p') :
    (∃ l ls', ls = l :: ls' ∧ Holding words x r ls' p' ∧ p'.mem = p.mem ∧
      p'.got = p.got ++ [p.mem l]) ∨
    ls = [] ∧ ∃ r', r = r' + 1 ∧ Issued words x r' p' ∧ p'.mem = p.mem ∧ p'.got = p.got := by
  obtain ⟨htodo, hleaving, horigin, hinbox, htarget⟩ := h
  cases ls with
  | cons l ls =>
    cases hs with
    | read hi =>
      rw [htodo] at hi
      cases hi
      exact Or.inl ⟨l, ls, rfl, ⟨rfl, hleaving, horigin, hinbox, htarget⟩, rfl, rfl⟩
    | _ => simp_all
  | nil =>
    cases r with
    | zero => cases hs <;> simp_all [hold]
    | succ r =>
      cases hs with
      | put hi =>
        rw [htodo, hold] at hi
        cases hi
        refine Or.inr ⟨rfl, r, rfl, ⟨rfl, ?_, horigin, hinbox, htarget⟩, rfl, rfl⟩
        rw [hleaving]
        rfl
      | _ => simp_all [hold]

/-- It can do nothing before its put has left. -/
theorem Issued.own (h : Issued words x r p) : ¬ Own ordered p p' := by
  obtain ⟨htodo, hleaving, horigin, hinbox, htarget⟩ := h
  intro hs
  cases hs <;> simp_all

omit [DecidableEq Loc] in
/-- The put leaves it. -/
theorem Issued.depart (h : Issued words x r p) :
    Waiting words x r [] 0 { p with leaving := [], origin := p.origin + 1 } :=
  ⟨Or.inr ⟨h.todo, congrArg (· + 1) h.origin⟩, rfl, h.inbox, h.target⟩

/-- It takes note that its own put has left, or that one has been counted; or a word of one on the
    way is stored, or one that has been stored is counted. -/
theorem Waiting.own (h : Waiting words x r ib t p) (hs : Own ordered p p') :
    (Waiting words x r ib t p' ∧ p'.mem = p.mem ∧ p'.got = p.got) ∨
    (∃ r', r = r' + 1 ∧ 0 < t ∧ (t = 1 → ib = [] → Polled words x r' p') ∧ p'.mem = p.mem ∧
      p'.got = p.got) ∨
    (∃ before w₁ l v w₂ behind, ib = before ++ (w₁ ++ (l, v) :: w₂) :: behind ∧
      Waiting words x r (before ++ (w₁ ++ w₂) :: behind) t p' ∧
      p'.mem = Function.update p.mem l v ∧ p'.got = p.got) ∨
    ∃ before behind, ib = before ++ [] :: behind ∧
      Waiting words x r (before ++ behind) (t + 1) p' ∧ p'.mem = p.mem ∧ p'.got = p.got := by
  obtain ⟨htodo, hleaving, hinbox, htarget⟩ := h
  cases hs with
  | waitOrigin hi hn =>
    rcases htodo with ⟨htodo, horigin⟩ | ⟨htodo, horigin⟩
    · omega
    · rw [htodo] at hi
      cases hi
      exact Or.inl ⟨⟨Or.inl ⟨rfl, Nat.succ.inj (hn.symm.trans horigin)⟩, hleaving, hinbox, htarget⟩,
        rfl, rfl⟩
  | poll hi hpos =>
    rcases htodo with ⟨htodo, horigin⟩ | ⟨htodo, horigin⟩
    · cases r with
      | zero => simp_all [wait]
      | succ r =>
        rw [htodo, wait] at hi
        cases hi
        refine Or.inr (Or.inl ⟨r, rfl, htarget ▸ hpos, ?_, rfl, rfl⟩)
        rintro rfl rfl
        exact ⟨rfl, hleaving, horigin, hinbox, htarget⟩
    · simp_all
  | word hi _ =>
    refine Or.inr (Or.inr (Or.inl ⟨_, _, _, _, _, _, hinbox.symm.trans hi, ?_, rfl, rfl⟩))
    exact ⟨htodo, hleaving, rfl, htarget⟩
  | count hi _ =>
    refine Or.inr (Or.inr (Or.inr ⟨_, _, hinbox.symm.trans hi, ?_, rfl, rfl⟩))
    exact ⟨htodo, hleaving, rfl, congrArg (· + 1) htarget⟩
  | store hi | read hi | put hi | waitTarget hi => cases r <;> simp_all [wait]

/-- With nothing on the way to it all it may do is the first of these. -/
theorem Waiting.own_quiet (h : Waiting words x r [] 0 p) (hs : Own ordered p p') :
    Waiting words x r [] 0 p' ∧ p'.mem = p.mem ∧ p'.got = p.got := by
  rcases h.own hs with h' | ⟨r', -, hpos, -⟩ | ⟨before, w₁, l, v, w₂, behind, hib, -⟩ |
    ⟨before, behind, hib, -⟩
  · exact h'
  · exact absurd hpos (Nat.lt_irrefl 0)
  · simp at hib
  · simp at hib

/-- It takes one off its counter, and reads. -/
theorem Polled.own (h : Polled words x r p) (hs : Own ordered p p') :
    Holding words x r (cells words x) p' ∧ p'.mem = p.mem ∧ p'.got = p.got := by
  obtain ⟨htodo, hleaving, horigin, hinbox, htarget⟩ := h
  cases hs with
  | waitTarget hi hn =>
    rw [htodo] at hi
    cases hi
    exact ⟨⟨rfl, hleaving, horigin, hinbox, Nat.succ.inj (hn.symm.trans htarget)⟩, rfl, rfl⟩
  | _ => simp_all

/-! ## Both of them -/

omit [DecidableEq Loc]

section both

variable (words) (mem : Fin 2 → Loc → Val)

/-- Words `ws` of the put of `x` are still on the way to `p`; the others have been stored. -/
structure Carried (x : Fin 2) (ws : List (Loc × Val)) (p : Pe Loc Val) : Prop where
  source : ∀ u ∈ ws, ∃ w ∈ words x, u = (w.2, mem x w.1)
  there : ∀ w ∈ words x, (w.2, mem x w.1) ∈ ws ∨ p.mem w.2 = mem x w.1

/-- With `m` buffers still to be read, all those read so far were the other one's. -/
def Tally (k : Nat) (x : Fin 2) (m : Nat) (got : List Val) : Prop :=
  ∃ n, n + m = k ∧ got = (List.replicate n (content words mem (1 - x))).flatten

/-- Where the two are: `x` had the turn last, and `r` turns are to come.  The tallies say how many
    buffers each has read, half a turn apart. -/
inductive Stage (k : Nat) (c : Config Loc Val) (x : Fin 2) (r : Nat) : Prop where
  | turn (ls : List Loc) : Holding words x r ls (c x) → Waiting words (1 - x) r [] 0 (c (1 - x)) →
      Tally words mem k x (r / 2) ((c x).got ++ ls.map (c x).mem) →
      Tally words mem k (1 - x) ((r + 1) / 2) (c (1 - x)).got → Stage k c x r
  | issued : Issued words x r (c x) → Waiting words (1 - x) (r + 1) [] 0 (c (1 - x)) →
      Tally words mem k x ((r + 1) / 2) (c x).got →
      Tally words mem k (1 - x) (r / 2 + 1) (c (1 - x)).got → Stage k c x r
  | way (ws : List (Loc × Val)) : Waiting words x r [] 0 (c x) →
      Waiting words (1 - x) (r + 1) [ws] 0 (c (1 - x)) → Carried words mem x ws (c (1 - x)) →
      Tally words mem k x ((r + 1) / 2) (c x).got →
      Tally words mem k (1 - x) (r / 2 + 1) (c (1 - x)).got → Stage k c x r
  | counted : Waiting words x r [] 0 (c x) →
      Waiting words (1 - x) (r + 1) [] 1 (c (1 - x)) → Carried words mem x [] (c (1 - x)) →
      Tally words mem k x ((r + 1) / 2) (c x).got →
      Tally words mem k (1 - x) (r / 2 + 1) (c (1 - x)).got → Stage k c x r
  | polled : Waiting words x r [] 0 (c x) → Polled words (1 - x) r (c (1 - x)) →
      Carried words mem x [] (c (1 - x)) → Tally words mem k x ((r + 1) / 2) (c x).got →
      Tally words mem k (1 - x) (r / 2 + 1) (c (1 - x)).got → Stage k c x r

/-- **The invariant**: they are at some stage, and the values are where they come from, which is
    what the next put copies out. -/
structure Inv (k : Nat) (c : Config Loc Val) : Prop where
  stage : ∃ x r, Stage words mem k c x r
  value : ∀ x, ∀ w ∈ words x, (c x).mem w.1 = mem x w.1

end both

variable {mem : Fin 2 → Loc → Val} {k : Nat} {c c' : Config Loc Val}

theorem inv_start (words : Fin 2 → List (Loc × Loc)) (mem : Fin 2 → Loc → Val) (k : Nat) :
    Inv words mem k (start words mem k) where
  stage := by
    refine ⟨0, 2 * k, .turn [] ⟨rfl, rfl, rfl, rfl, rfl⟩ ⟨Or.inl ⟨rfl, rfl⟩, rfl, rfl, rfl⟩ ?_ ?_⟩
    · exact ⟨0, by omega, rfl⟩
    · exact ⟨0, by omega, rfl⟩
  value _ _ _ := rfl

/-- What has been stored is what is read. -/
theorem Carried.content_eq (h : Carried words mem x [] p) :
    (cells words (1 - x)).map p.mem = content words mem x := by
  rw [cells, other_other, List.map_map, content]
  refine List.map_congr_left fun w hw => ?_
  exact (h.there w hw).resolve_left List.not_mem_nil

/-- What a step at some stage comes to. -/
abbrev Next (words : Fin 2 → List (Loc × Loc)) (mem : Fin 2 → Loc → Val) (k : Nat)
    (c c' : Config Loc Val) : Prop :=
  (∃ x r, Stage words mem k c' x r) ∧ ∀ z, ∀ w ∈ words z, (c' z).mem w.1 = (c z).mem w.1

/-- One more buffer read. -/
theorem Tally.read {m : Nat} {got : List Val} (h : Tally words mem k x (m + 1) got) :
    Tally words mem k x m (got ++ content words mem (1 - x)) := by
  obtain ⟨n, hn, rfl⟩ := h
  refine ⟨n + 1, by omega, ?_⟩
  rw [List.replicate_succ', List.flatten_append, List.flatten_singleton]

variable [DecidableEq Loc]

/-- A word is stored. -/
theorem Carried.word (h : Apart words) {w₁ w₂ : List (Loc × Val)} {l : Loc} {v : Val}
    (hp : Carried words mem x (w₁ ++ (l, v) :: w₂) p) (hmem : p'.mem = Function.update p.mem l v) :
    Carried words mem x (w₁ ++ w₂) p' := by
  obtain ⟨w, hw, heq⟩ := hp.source (l, v) (by simp)
  obtain ⟨rfl, rfl⟩ := Prod.mk.inj heq
  refine ⟨fun u hu => hp.source u ?_, fun w' hw' => ?_⟩
  · rw [List.mem_append] at hu
    exact List.mem_append.mpr (hu.imp_right (List.mem_cons_of_mem _))
  · by_cases hsame : w'.2 = w.2
    · -- the words go to different places
      obtain rfl := h.once x w' hw' w hw hsame
      right
      rw [hmem, Function.update_self]
    · rcases hp.there w' hw' with hon | hthere
      · left
        simp only [List.mem_append, List.mem_cons, Prod.mk.injEq, hsame, false_and, false_or] at hon
        exact List.mem_append.mpr hon
      · right
        rw [hmem, Function.update_of_ne hsame, hthere]

/-- Words on their way do not touch the values of the PE they come to. -/
theorem Carried.kept (h : Apart words) {ws : List (Loc × Val)} (hp : Carried words mem x ws p)
    {l : Loc} {v : Val} (hmem : (l, v) ∈ ws) :
    ∀ w ∈ words (1 - x), Function.update p.mem l v w.1 = p.mem w.1 := by
  intro w hw
  obtain ⟨w', hw', heq⟩ := hp.source _ hmem
  obtain ⟨rfl, rfl⟩ := Prod.mk.inj heq
  have hne := h.kept (1 - x) w hw w' (by rwa [other_other])
  exact Function.update_of_ne hne ..

omit [DecidableEq Loc] in
/-- Nothing has been stored. -/
theorem next_of_mem {z : Fin 2} (hstage : ∃ x r, Stage words mem k c' x r)
    (hz : (c' z).mem = (c z).mem) (hother : (c' (1 - z)).mem = (c (1 - z)).mem) :
    Next words mem k c c' := by
  refine ⟨hstage, fun y w _ => ?_⟩
  rcases eq_or_eq_other z y with rfl | rfl
  · rw [hz]
  · rw [hother]

/-- The PE whose turn it is reads on, or puts. -/
theorem step_turn {ls : List Loc} (hx : Holding words x r ls (c x))
    (hy : Waiting words (1 - x) r [] 0 (c (1 - x)))
    (htx : Tally words mem k x (r / 2) ((c x).got ++ ls.map (c x).mem))
    (hty : Tally words mem k (1 - x) ((r + 1) / 2) (c (1 - x)).got) (hs : Step ordered c c') :
    Next words mem k c c' := by
  rcases hs.cases_at x with ⟨hown, hother⟩ | ⟨hown, hsame⟩ | ⟨before, ws, behind, hleaving, -⟩ | h
  · rcases hx.own hown with ⟨l, ls', rfl, hx', hmem, hgot⟩ | ⟨rfl, r', rfl, hx', hmem, hgot⟩
    · refine next_of_mem ⟨x, r, .turn ls' hx' ?_ ?_ ?_⟩ hmem (by rw [hother])
      · rwa [hother]
      · rwa [hgot, hmem, List.append_assoc]
      · rwa [hother]
    · rw [List.map_nil, List.append_nil] at htx
      refine next_of_mem ⟨x, r', .issued hx' ?_ ?_ ?_⟩ hmem (by rw [hother])
      · rwa [hother]
      · rwa [hgot]
      · rw [hother]
        rwa [show r' / 2 + 1 = (r' + 1 + 1) / 2 by omega]
  · obtain ⟨hy', hmem, hgot⟩ := hy.own_quiet hown
    refine next_of_mem ⟨x, r, .turn ls ?_ hy' ?_ ?_⟩ (by rw [hsame]) hmem
    · rwa [hsame]
    · rwa [hsame]
    · rwa [hgot]
  · simp [hx.leaving] at hleaving
  · exact absurd hy.leaving h

/-- The words of the put leave. -/
theorem step_issued (hx : Issued words x r (c x))
    (hy : Waiting words (1 - x) (r + 1) [] 0 (c (1 - x)))
    (htx : Tally words mem k x ((r + 1) / 2) (c x).got)
    (hty : Tally words mem k (1 - x) (r / 2 + 1) (c (1 - x)).got)
    (hvalue : ∀ w ∈ words x, (c x).mem w.1 = mem x w.1) (hs : Step ordered c c') :
    Next words mem k c c' := by
  rcases hs.cases_at x with ⟨hown, -⟩ | ⟨hown, hsame⟩ | ⟨before, ws, behind, hleaving, hsx, hsy⟩ | h
  · exact absurd hown hx.own
  · obtain ⟨hy', hmem, hgot⟩ := hy.own_quiet hown
    refine next_of_mem ⟨x, r, .issued ?_ hy' ?_ ?_⟩ (by rw [hsame]) hmem
    · rwa [hsame]
    · rwa [hsame]
    · rwa [hgot]
  · obtain ⟨rfl, rfl, rfl⟩ : before = [] ∧ behind = [] ∧ words x = ws := by
      rw [hx.leaving] at hleaving
      cases before with
      | nil => simpa [and_comm] using hleaving
      | cons => simp at hleaving
    have hpayload : (c x).payload (words x) = (words x).map fun w => (w.2, mem x w.1) :=
      List.map_congr_left fun w hw => by rw [hvalue w hw]
    refine next_of_mem ⟨x, r, .way ((c x).payload (words x)) ?_ ?_ ⟨?_, ?_⟩ ?_ ?_⟩
      (by rw [hsx]) (by rw [hsy])
    · rw [hsx]
      exact hx.depart
    · rw [hsy]
      exact ⟨hy.todo, hy.leaving, by rw [hy.inbox]; rfl, hy.target⟩
    · intro u hu
      rw [hpayload] at hu
      obtain ⟨w, hw, rfl⟩ := List.mem_map.mp hu
      exact ⟨w, hw, rfl⟩
    · intro w hw
      rw [hpayload]
      exact Or.inl (List.mem_map_of_mem hw)
    · rwa [hsx]
    · rwa [hsy]
  · exact absurd hy.leaving h

/-- A word is stored, or all of them are and the put is counted. -/
theorem step_way {ws : List (Loc × Val)} (hx : Waiting words x r [] 0 (c x))
    (hy : Waiting words (1 - x) (r + 1) [ws] 0 (c (1 - x)))
    (hcarried : Carried words mem x ws (c (1 - x)))
    (htx : Tally words mem k x ((r + 1) / 2) (c x).got)
    (hty : Tally words mem k (1 - x) (r / 2 + 1) (c (1 - x)).got) (hwords : Apart words)
    (hs : Step ordered c c') : Next words mem k c c' := by
  rcases hs.cases_at x with ⟨hown, hother⟩ | ⟨hown, hsame⟩ | ⟨before, ws', behind, hleaving, -⟩ | h
  · obtain ⟨hx', hmem, hgot⟩ := hx.own_quiet hown
    refine next_of_mem ⟨x, r, .way ws hx' ?_ ?_ ?_ ?_⟩ hmem (by rw [hother])
    · rwa [hother]
    · rwa [hother]
    · rwa [hgot]
    · rwa [hother]
  · rw [← hsame] at hx htx
    rcases hy.own hown with ⟨hy', hmem, hgot⟩ | ⟨r', -, hpos, -⟩ |
      ⟨before, w₁, l, v, w₂, behind, hib, hy', hmem, hgot⟩ | ⟨before, behind, hib, hy', hmem, hgot⟩
    · refine next_of_mem ⟨x, r, .way ws hx hy' ⟨hcarried.source, ?_⟩ htx ?_⟩ (by rw [hsame]) hmem
      · rw [hmem]
        exact hcarried.there
      · rwa [hgot]
    · exact absurd hpos (Nat.lt_irrefl 0)
    · obtain ⟨rfl, rfl, rfl⟩ : before = [] ∧ behind = [] ∧ ws = w₁ ++ (l, v) :: w₂ := by
        cases before with
        | nil => simpa [and_comm, eq_comm] using hib
        | cons => simp at hib
      refine ⟨⟨x, r, .way (w₁ ++ w₂) hx hy' (hcarried.word hwords hmem) htx (by rwa [hgot])⟩, ?_⟩
      intro z w hw
      rcases eq_or_eq_other x z with rfl | rfl
      · rw [hsame]
      · rw [hmem]
        exact hcarried.kept hwords (by simp) w hw
    · obtain ⟨rfl, rfl, rfl⟩ : before = [] ∧ behind = [] ∧ ws = [] := by
        cases before with
        | nil => simpa [and_comm, eq_comm] using hib
        | cons => simp at hib
      refine next_of_mem ⟨x, r, .counted hx hy' ⟨hcarried.source, ?_⟩ htx ?_⟩ (by rw [hsame]) hmem
      · rw [hmem]
        exact hcarried.there
      · rwa [hgot]
  · simp [hx.leaving] at hleaving
  · exact absurd hy.leaving h

/-- The PE that waits sees the counter. -/
theorem step_counted (hx : Waiting words x r [] 0 (c x))
    (hy : Waiting words (1 - x) (r + 1) [] 1 (c (1 - x)))
    (hcarried : Carried words mem x [] (c (1 - x)))
    (htx : Tally words mem k x ((r + 1) / 2) (c x).got)
    (hty : Tally words mem k (1 - x) (r / 2 + 1) (c (1 - x)).got) (hs : Step ordered c c') :
    Next words mem k c c' := by
  rcases hs.cases_at x with ⟨hown, hother⟩ | ⟨hown, hsame⟩ | ⟨before, ws, behind, hleaving, -⟩ | h
  · obtain ⟨hx', hmem, hgot⟩ := hx.own_quiet hown
    refine next_of_mem ⟨x, r, .counted hx' ?_ ?_ ?_ ?_⟩ hmem (by rw [hother])
    · rwa [hother]
    · rwa [hother]
    · rwa [hgot]
    · rwa [hother]
  · rw [← hsame] at hx htx
    have hstay : ∀ {p : Pe Loc Val}, p.mem = (c (1 - x)).mem → Carried words mem x [] p :=
      fun hmem => ⟨hcarried.source, by rw [hmem]; exact hcarried.there⟩
    rcases hy.own hown with ⟨hy', hmem, hgot⟩ | ⟨r', hr, -, hy', hmem, hgot⟩ |
      ⟨before, w₁, l, v, w₂, behind, hib, -⟩ | ⟨before, behind, hib, -⟩
    · refine next_of_mem ⟨x, r, .counted hx hy' (hstay hmem) htx ?_⟩ (by rw [hsame]) hmem
      rwa [hgot]
    · obtain rfl : r = r' := Nat.succ.inj hr
      refine next_of_mem ⟨x, r, .polled hx (hy' rfl rfl) (hstay hmem) htx ?_⟩ (by rw [hsame]) hmem
      rwa [hgot]
    · simp at hib
    · simp at hib
  · simp [hx.leaving] at hleaving
  · exact absurd hy.leaving h

/-- It takes one off, and it is its turn. -/
theorem step_polled (hx : Waiting words x r [] 0 (c x)) (hy : Polled words (1 - x) r (c (1 - x)))
    (hcarried : Carried words mem x [] (c (1 - x)))
    (htx : Tally words mem k x ((r + 1) / 2) (c x).got)
    (hty : Tally words mem k (1 - x) (r / 2 + 1) (c (1 - x)).got) (hs : Step ordered c c') :
    Next words mem k c c' := by
  rcases hs.cases_at x with ⟨hown, hother⟩ | ⟨hown, hsame⟩ | ⟨before, ws, behind, hleaving, -⟩ | h
  · obtain ⟨hx', hmem, hgot⟩ := hx.own_quiet hown
    refine next_of_mem ⟨x, r, .polled hx' ?_ ?_ ?_ ?_⟩ hmem (by rw [hother])
    · rwa [hother]
    · rwa [hother]
    · rwa [hgot]
    · rwa [hother]
  · obtain ⟨hy', hmem, hgot⟩ := hy.own hown
    refine next_of_mem ⟨1 - x, r, .turn _ hy' ?_ ?_ ?_⟩ (by rw [hsame]) hmem
    · rwa [other_other, hsame]
    · -- what is going to be read is what has been stored
      have hread := hty.read
      rw [other_other] at hread
      rwa [hgot, hmem, hcarried.content_eq]
    · rwa [other_other, hsame]
  · simp [hx.leaving] at hleaving
  · exact absurd hy.leaving h

/-- **One step**, by the stage: each has a lemma on what either PE can do there, and all it can
    lead to is the stage itself or the next. -/
theorem Inv.step (h : Inv words mem k c) (hwords : Apart words) (hs : Step ordered c c') :
    Inv words mem k c' := by
  obtain ⟨⟨x, r, hstage⟩, hvalue⟩ := h
  have hnext : Next words mem k c c' := by
    cases hstage with
    | turn ls hx hy htx hty => exact step_turn hx hy htx hty hs
    | issued hx hy htx hty => exact step_issued hx hy htx hty (hvalue x) hs
    | way ws hx hy hcarried htx hty => exact step_way hx hy hcarried htx hty hwords hs
    | counted hx hy hcarried htx hty => exact step_counted hx hy hcarried htx hty hs
    | polled hx hy hcarried htx hty => exact step_polled hx hy hcarried htx hty hs
  exact ⟨hnext.1, fun z w hw => (hnext.2 z w hw).trans (hvalue z w hw)⟩

/-- **Run lemma.** -/
theorem Inv.steps (h : Inv words mem k c) (hwords : Apart words) (hs : Steps ordered c c') :
    Inv words mem k c' := by
  induction hs with
  | refl => exact h
  | tail _ hstep ih => exact ih.step hwords hstep

/-! ## The end -/

/-- A PE that waits with nothing on the way to it, and cannot go on, has seen its put leave. -/
theorem Waiting.stuck (h : Waiting words x r ib t p) (hs : ∀ p', ¬ Own ordered p p') :
    p.todo = wait words x r := by
  rcases h.todo with ⟨htodo, -⟩ | ⟨htodo, horigin⟩
  · exact htodo
  · exact absurd (.waitOrigin htodo horigin) (hs _)

/-- Where no step is possible no turn is left. -/
theorem Inv.stuck (h : Inv words mem k c) (hs : Stuck ordered c) :
    Finished c ∧ ∀ x, (c x).got = (List.replicate k (content words mem (1 - x))).flatten := by
  obtain ⟨⟨x, r, hstage⟩, -⟩ := h
  have hown : ∀ z p', ¬ Own ordered (c z) p' := fun z p' hp => hs _ (.own hp)
  cases hstage with
  | issued hx =>
    obtain ⟨c', hc'⟩ := depart_first hx.leaving
    exact absurd hc' (hs c')
  | way ws _ hy =>
    cases ws with
    | nil => exact absurd (.count_first hy.inbox) (hown _ _)
    | cons u ws => exact absurd (.word_first hy.inbox) (hown _ _)
  | counted _ hy => exact absurd (.poll (hy.stuck (hown _)) (by rw [hy.target]; decide)) (hown _ _)
  | polled _ hy => exact absurd (.waitTarget hy.todo hy.target) (hown _ _)
  | turn ls hx hy htx hty =>
    cases ls with
    | cons l ls => exact absurd (.read hx.todo) (hown _ _)
    | nil =>
      cases r with
      | succ r => exact absurd (.put hx.todo) (hown _ _)
      | zero =>
        have hgot : ∀ {z got}, Tally words mem k z 0 got →
            got = (List.replicate k (content words mem (1 - z))).flatten := by
          rintro z got ⟨n, rfl, rfl⟩
          rfl
        rw [List.map_nil, List.append_nil] at htx
        refine ⟨fun z => ?_, fun z => ?_⟩
        · rcases eq_or_eq_other x z with rfl | rfl
          · exact hx.todo
          · exact hy.stuck (hown _)
        · rcases eq_or_eq_other x z with rfl | rfl
          · exact hgot htx
          · exact hgot hty

/-- **Every run comes to its end**, and each buffer read in it was the other PE's.  At every
    stage but the last some step is possible, and there are no infinite runs. -/
theorem completes (hwords : Apart words) (mem : Fin 2 → Loc → Val) (k : Nat) (ordered : Bool) :
    Completes ordered (start words mem k) fun c =>
      ∀ x, (c x).got = (List.replicate k (content words mem (1 - x))).flatten :=
  .of_stuck fun _ hc hs => ((inv_start words mem k).steps hwords hc).stuck hs

end game

end Rally
