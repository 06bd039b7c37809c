/-
  Two PEs that bounce a buffer, each finding out by polling its last word.

  A PE's turn is a put into the other one's buffer.  The other one waits until the last word of its
  buffer (its `cell`) is `full`, sets it back to `empty`, and has its turn.  With `r` turns still
  to come the PE whose turn it is has `hold x r` to do and the other one `wait x r`; the two
  programs are these, one inside the other.  All of this is a `Game` over the PEs of
  `Lib.OneSided`; whose words these are and where they lie is left open.

  1. `Agrees` — what polling is for: a PE that waits sees the value exactly when the put it waits
     for has been stored, and no run ends before both are done.

  2. **Where it does** (`Sound`, `Sound.agrees`).  Every put ends with the value that is waited for,
     nothing else touches the cells or the words these values come from, and the cells do not hold
     the value to begin with or after being set back.  The load-bearing invariant is `Stage`: a put
     is on its way, stored, or seen, and only one at a time.  So a cell that is `full` was made so
     by the put that is waited for.

  3. **And only there** (`Agrees.values`).  The first turn of either PE, made and stored entirely
     (`exists_bounced`), already shows all of the values; with no turns there is nothing to show
     (`agrees_zero`).  So for any number of turns the two conditions are the same.
-/
import NetPipe.Lib.OneSided

namespace Sentinel

open OneSided

variable {Loc Val : Type}

/-- What the two PEs do: the words each puts, the cell each polls, and its two values. -/
structure Game (Loc Val : Type) where
  words : Fin 2 → List (Loc × Loc)
  cell : Fin 2 → Loc
  full : Fin 2 → Val
  empty : Fin 2 → Val

namespace Game

variable (g : Game Loc Val)

mutual

/-- The rest of the program of the PE whose turn it is, with `r` turns to come. -/
def hold (x : Fin 2) : Nat → List (Instr Loc Val)
  | 0 => []
  | r + 1 => .put (g.words x) :: wait x r

/-- The rest of the program of the other one. -/
def wait (x : Fin 2) : Nat → List (Instr Loc Val)
  | 0 => []
  | r + 1 => .await (g.cell x) (g.full x) :: .store (g.cell x) (g.empty x) :: hold x r

end

/-- PE 0 begins, and each has `k` turns. -/
def start (mem : Fin 2 → Loc → Val) (k : Nat) : Config Loc Val :=
  fun x => .start (mem x) (if x = 0 then g.hold x (2 * k) else g.wait x (2 * k))

end Game

/-- How often a program waits. -/
def awaits (code : List (Instr Loc Val)) : Nat :=
  code.countP fun
    | .await _ _ => true
    | _ => false

variable {g : Game Loc Val} {x : Fin 2}

theorem awaits_hold_wait (r : Nat) :
    awaits (g.hold x r) = r / 2 ∧ awaits (g.wait x r) = (r + 1) / 2 := by
  induction r with
  | zero => exact ⟨rfl, rfl⟩
  | succ r ih =>
    obtain ⟨hhold, hwait⟩ := ih
    constructor
    · rw [Game.hold]
      exact hwait
    · rw [Game.wait, awaits, List.countP_cons_of_pos rfl,
        List.countP_cons_of_neg Bool.false_ne_true, ← awaits, hhold]
      omega

variable [DecidableEq Loc]

/-- What polling is to do, when each PE has `k` turns: the `j`-th wait is for the put number `j`. -/
structure Agrees (c₀ : Config Loc Val) (k : Nat) : Prop where
  exact : ∀ c, Steps false c₀ c → ∀ x l v rest, (c x).todo = .await l v :: rest →
    ((c x).mem l = v ↔ k - awaits (c x).todo ∈ (c x).arrived)
  ends : ∀ c, Steps false c₀ c → Stuck false c → Finished c

/-- Where the last word of a put comes from, and that the others are stored elsewhere. -/
structure Game.Ends (g : Game Loc Val) (src : Fin 2 → Loc) : Prop where
  words : ∀ x, ∃ ws, g.words x = ws ++ [(src x, g.cell (1 - x))] ∧
    ∀ w ∈ ws, w.2 ≠ g.cell (1 - x)

/-- Every put ends with the value that is waited for. -/
structure Sound (g : Game Loc Val) (mem : Fin 2 → Loc → Val) (src : Fin 2 → Loc) : Prop
    extends g.Ends src where
  /-- Nothing is stored where the values come from. -/
  kept : ∀ x, src x ≠ g.cell x ∧ ∀ w ∈ g.words (1 - x), w.2 ≠ src x
  value : ∀ x, mem x (src x) = g.full (1 - x)
  clear : ∀ x, mem x (g.cell x) ≠ g.full x
  reset : ∀ x, g.empty x ≠ g.full x

/-! ## Bouncing the buffer -/

section sound

variable {mem : Fin 2 → Loc → Val} {src : Fin 2 → Loc} {k : Nat} {c c' : Config Loc Val}

/-- The turn is at `x`, and both cells are clear. -/
structure Turn (g : Game Loc Val) (k : Nat) (c : Config Loc Val) (x : Fin 2) (r : Nat) : Prop where
  todo : (c x).todo = g.hold x r
  todo' : (c (1 - x)).todo = g.wait (1 - x) r
  inbox : (c x).inbox = []
  inbox' : (c (1 - x)).inbox = []
  clear : (c x).mem (g.cell x) ≠ g.full x
  clear' : (c (1 - x)).mem (g.cell (1 - x)) ≠ g.full (1 - x)
  puts : (r + 1) / 2 + (c x).puts = k
  puts' : r / 2 + (c (1 - x)).puts = k
  arrived : (c x).arrived = List.range (c (1 - x)).puts
  arrived' : (c (1 - x)).arrived = List.range (c x).puts

/-- What stays as it is from the put of `x` until the other one's turn. -/
structure Passed (g : Game Loc Val) (k : Nat) (c : Config Loc Val) (x : Fin 2) (r : Nat) :
    Prop where
  todo : (c x).todo = g.wait x r
  inbox : (c x).inbox = []
  clear : (c x).mem (g.cell x) ≠ g.full x
  puts : r / 2 + (c x).puts = k
  puts' : (r + 1) / 2 + (c (1 - x)).puts = k
  arrived : (c x).arrived = List.range (c (1 - x)).puts

/-- The put of `x` is on its way. -/
structure Way (g : Game Loc Val) (src : Fin 2 → Loc) (p : Pe Loc Val) (y : Fin 2) (r puts : Nat) :
    Prop where
  todo : p.todo = g.wait y (r + 1)
  inbox : ∃ num ws, puts = num + 1 ∧ p.inbox = [(num, ws ++ [(g.cell y, g.full y)])] ∧
    (∀ w ∈ ws, w.1 ≠ g.cell y ∧ w.1 ≠ src y) ∧ p.arrived = List.range num
  clear : p.mem (g.cell y) ≠ g.full y

/-- It has been stored. -/
structure There (g : Game Loc Val) (p : Pe Loc Val) (y : Fin 2) (r puts : Nat) : Prop where
  todo : p.todo = g.wait y (r + 1)
  inbox : p.inbox = []
  full : p.mem (g.cell y) = g.full y
  arrived : p.arrived = List.range puts
  pos : 0 < puts

/-- It has been seen. -/
structure Seen (g : Game Loc Val) (p : Pe Loc Val) (y : Fin 2) (r puts : Nat) : Prop where
  todo : p.todo = .store (g.cell y) (g.empty y) :: g.hold y r
  inbox : p.inbox = []
  arrived : p.arrived = List.range puts

/-- Where the players are; `x` had the turn last, and `r` turns are to come.  At every stage but the
    first there is one put under way or waiting to be seen, that of `x`, and the cell of `x` itself
    is clear. -/
inductive Stage (g : Game Loc Val) (src : Fin 2 → Loc) (k : Nat) (c : Config Loc Val) (x : Fin 2)
    (r : Nat) : Prop where
  | turn : Turn g k c x r → Stage g src k c x r
  | way : Passed g k c x r → Way g src (c (1 - x)) (1 - x) r (c x).puts → Stage g src k c x r
  | there : Passed g k c x r → There g (c (1 - x)) (1 - x) r (c x).puts → Stage g src k c x r
  | seen : Passed g k c x r → Seen g (c (1 - x)) (1 - x) r (c x).puts → Stage g src k c x r

/-- A PE that waits does nothing while nothing is on the way to it. -/
theorem idle {z : Fin 2} {r : Nat} (htodo : (c z).todo = g.wait z r) (hinbox : (c z).inbox = [])
    (hclear : (c z).mem (g.cell z) ≠ g.full z) : ¬ Act false c z c' := by
  intro h
  cases r with
  | zero => exact h.of_nil htodo hinbox
  | succ r => exact hclear (h.of_await htodo hinbox).1

omit [DecidableEq Loc] in
theorem Passed.congr {r : Nat} (h : Passed g k c x r) (hx : c' x = c x)
    (hputs : (c' (1 - x)).puts = (c (1 - x)).puts) : Passed g k c' x r :=
  ⟨hx ▸ h.todo, hx ▸ h.inbox, hx ▸ h.clear, hx ▸ h.puts, hputs ▸ h.puts', hputs ▸ hx ▸ h.arrived⟩

/-- The PE whose turn it is puts. -/
theorem Turn.step {r : Nat} (h : Turn g k c x r) (hg : Sound g mem src)
    (hvalue : (c x).mem (src x) = g.full (1 - x)) (hs : Act false c x c') :
    (∃ r', Stage g src k c' x r') ∧ ∀ z, (c' z).mem = (c z).mem := by
  cases r with
  | zero => exact absurd h.inbox (hs.of_nil h.todo)
  | succ r =>
    obtain ⟨hx, hy⟩ := hs.of_put h.todo h.inbox
    obtain ⟨ws, hws, hcell⟩ := hg.words x
    have hputs := h.puts
    have hputs' := h.puts'
    -- what has passed at `x`, then what is on the way to the other one
    refine ⟨⟨r, .way ⟨?_, ?_, ?_, ?_, ?_, ?_⟩ ⟨?_, ?_, ?_⟩⟩, ?_⟩
    · rw [hx]
    · rw [hx]
      exact h.inbox
    · rw [hx]
      exact h.clear
    · rw [hx]
      show r / 2 + ((c x).puts + 1) = k
      omega
    · rw [hy]
      exact hputs'
    · rw [hx, hy]
      exact h.arrived
    · rw [hy]
      exact h.todo'
    · rw [hx, hy]
      refine ⟨(c x).puts, ws.map fun w => (w.2, (c x).mem w.1), rfl, ?_, ?_, h.arrived'⟩
      · show (c (1 - x)).inbox ++ _ = _
        rw [h.inbox', Pe.payload, hws, List.map_append, List.map_singleton, hvalue]
        rfl
      · rw [List.forall_mem_map]
        intro w hw
        have hsrc := (hg.kept (1 - x)).2
        rw [other_other] at hsrc
        exact ⟨hcell w hw, hsrc w (hws ▸ List.mem_append_left _ hw)⟩
    · rw [hy]
      exact h.clear'
    · intro z
      rcases eq_or_eq_other x z with rfl | rfl
      · rw [hx]
      · rw [hy]

/-- A word of the put on its way is stored. -/
theorem Way.step {r : Nat} (hp : Passed g k c x r)
    (h : Way g src (c (1 - x)) (1 - x) r (c x).puts) (hg : Sound g mem src)
    (hs : Act false c (1 - x) c') :
    Stage g src k c' x r ∧ (c' x).mem = (c x).mem ∧
      (c' (1 - x)).mem (src (1 - x)) = (c (1 - x)).mem (src (1 - x)) := by
  obtain ⟨num, ws, hputs, hinbox, hother, harrived⟩ := h.inbox
  obtain ⟨hx, hy⟩ := hs.of_arrival h.todo h.clear hinbox
  rw [other_other] at hx
  rcases hy with ⟨w₁, u, w₂, rfl, hy⟩ | ⟨rfl, hy⟩
  · -- one of the other words, which touches neither the cell nor the source of values
    obtain ⟨hcell, hsrc⟩ := hother u (by simp)
    have hmem : ∀ l, l ≠ u.1 → (c' (1 - x)).mem l = (c (1 - x)).mem l := by
      intro l hl
      rw [hy]
      exact Function.update_of_ne hl ..
    refine ⟨.way (hp.congr hx (by rw [hy]; rfl)) ⟨?_, ?_, ?_⟩, by rw [hx], hmem _ hsrc.symm⟩
    · rw [hy]
      exact h.todo
    · rw [hx, hy]
      refine ⟨num, w₁ ++ w₂, hputs, rfl, fun w hw => hother w ?_, harrived⟩
      simp only [List.mem_append, List.mem_cons] at hw ⊢
      tauto
    · rw [hmem _ hcell.symm]
      exact h.clear
  · -- the last word: it fills the cell
    refine ⟨.there (hp.congr hx (by rw [hy]; rfl)) ⟨?_, ?_, ?_, ?_, ?_⟩, by rw [hx], ?_⟩
    · rw [hy]
      exact h.todo
    · rw [hy]
    · rw [hy]
      exact Function.update_self ..
    · rw [hx, hy, hputs, List.range_succ, ← harrived]
    · rw [hx, hputs]
      exact Nat.succ_pos num
    · rw [hy]
      exact Function.update_of_ne (hg.kept (1 - x)).1 ..

/-- The PE that waits sees it. -/
theorem There.step (src : Fin 2 → Loc) {r : Nat} (hp : Passed g k c x r)
    (h : There g (c (1 - x)) (1 - x) r (c x).puts) (hs : Act false c (1 - x) c') :
    Stage g src k c' x r ∧ ∀ z, (c' z).mem = (c z).mem := by
  obtain ⟨-, hy, hx⟩ := hs.of_await h.todo h.inbox
  rw [other_other] at hx
  refine ⟨.seen (hp.congr hx (by rw [hy])) ⟨?_, ?_, ?_⟩, ?_⟩
  · rw [hy]
  · rw [hy]
    exact h.inbox
  · rw [hx, hy]
    exact h.arrived
  · intro z
    rcases eq_or_eq_other x z with rfl | rfl
    · rw [hx]
    · rw [hy]

/-- It sets its cell back, and it is its turn. -/
theorem Seen.step {r : Nat} (hp : Passed g k c x r)
    (h : Seen g (c (1 - x)) (1 - x) r (c x).puts) (hg : Sound g mem src)
    (hs : Act false c (1 - x) c') :
    Stage g src k c' (1 - x) r ∧ (c' x).mem = (c x).mem ∧
      (c' (1 - x)).mem (src (1 - x)) = (c (1 - x)).mem (src (1 - x)) := by
  obtain ⟨hy, hx⟩ := hs.of_store h.todo h.inbox
  rw [other_other] at hx
  refine ⟨.turn ⟨?_, ?_, ?_, ?_, ?_, ?_, ?_, ?_, ?_, ?_⟩, by rw [hx], ?_⟩
  · rw [hy]
  · rw [other_other, hx]
    exact hp.todo
  · rw [hy]
    exact h.inbox
  · rw [other_other, hx]
    exact hp.inbox
  · rw [hy]
    exact (Function.update_self ..).trans_ne (hg.reset (1 - x))
  · rw [other_other, hx]
    exact hp.clear
  · rw [hy]
    exact hp.puts'
  · rw [other_other, hx]
    exact hp.puts
  · rw [other_other, hx, hy]
    exact h.arrived
  · rw [other_other, hx, hy]
    exact hp.arrived
  · rw [hy]
    exact Function.update_of_ne (hg.kept (1 - x)).1 ..

/-- **The invariant**: the players are at some stage, and the values where they come from, so that
    the next put ends with what is waited for, too. -/
structure Inv (g : Game Loc Val) (src : Fin 2 → Loc) (k : Nat) (c : Config Loc Val) : Prop where
  stage : ∃ x r, Stage g src k c x r
  value : ∀ x, (c x).mem (src x) = g.full (1 - x)

omit [DecidableEq Loc] in
theorem Inv.start (hg : Sound g mem src) (k : Nat) : Inv g src k (g.start mem k) := by
  refine ⟨⟨0, 2 * k, .turn ⟨rfl, rfl, rfl, rfl, hg.clear 0, hg.clear 1, ?_, ?_, rfl, rfl⟩⟩,
    hg.value⟩
  · show (2 * k + 1) / 2 + 0 = k
    omega
  · show 2 * k / 2 + 0 = k
    omega

/-- One step, by the stage and the PE at which it happens. -/
theorem Inv.step (h : Inv g src k c) (hg : Sound g mem src) (hs : Step false c c') :
    Inv g src k c' := by
  obtain ⟨⟨x, r, hstage⟩, hvalue⟩ := h
  obtain ⟨z, hs⟩ := hs
  rcases eq_or_eq_other x z with rfl | rfl
  · -- only a PE that has the turn does something
    cases hstage with
    | turn h =>
      obtain ⟨⟨r', hstage'⟩, hmem⟩ := h.step hg (hvalue z) hs
      exact ⟨⟨z, r', hstage'⟩, fun y => by rw [hmem]; exact hvalue y⟩
    | way hp _ => exact absurd hs (idle hp.todo hp.inbox hp.clear)
    | there hp _ => exact absurd hs (idle hp.todo hp.inbox hp.clear)
    | seen hp _ => exact absurd hs (idle hp.todo hp.inbox hp.clear)
  · -- the other one moves from stage to stage, and has the turn after the last
    cases hstage with
    | turn h => exact absurd hs (idle h.todo' h.inbox' h.clear')
    | way hp h =>
      obtain ⟨hstage', hx, hy⟩ := h.step hp hg hs
      refine ⟨⟨x, r, hstage'⟩, ?_⟩
      intro z
      rcases eq_or_eq_other x z with rfl | rfl
      · rw [hx]
        exact hvalue z
      · rw [hy]
        exact hvalue (1 - x)
    | there hp h =>
      obtain ⟨hstage', hmem⟩ := h.step src hp hs
      exact ⟨⟨x, r, hstage'⟩, fun y => by rw [hmem]; exact hvalue y⟩
    | seen hp h =>
      obtain ⟨hstage', hx, hy⟩ := h.step hp hg hs
      refine ⟨⟨1 - x, r, hstage'⟩, ?_⟩
      intro z
      rcases eq_or_eq_other x z with rfl | rfl
      · rw [hx]
        exact hvalue z
      · rw [hy]
        exact hvalue (1 - x)

theorem Inv.steps (hg : Sound g mem src) (h : Steps false (g.start mem k) c) :
    Inv g src k c := by
  induction h with
  | refl => exact .start hg k
  | tail _ hs ih => exact ih.step hg hs

omit [DecidableEq Loc] in
/-- A program that waits next. -/
theorem wait_eq {r : Nat} {l : Loc} {v : Val} {rest : List (Instr Loc Val)}
    (h : g.wait x r = .await l v :: rest) : 0 < r ∧ l = g.cell x ∧ v = g.full x := by
  cases r with
  | zero =>
    rw [Game.wait] at h
    cases h
  | succ r =>
    rw [Game.wait, List.cons.injEq, Instr.await.injEq] at h
    exact ⟨Nat.succ_pos r, h.1.1.symm, h.1.2.symm⟩

omit [DecidableEq Loc] in
theorem hold_ne {r : Nat} {l : Loc} {v : Val} {rest : List (Instr Loc Val)} :
    g.hold x r ≠ .await l v :: rest := by
  cases r <;> rw [Game.hold] <;> simp

omit [DecidableEq Loc] in
/-- Whoever waits sees the value exactly when its put is there. -/
theorem Stage.exact {r : Nat} (h : Stage g src k c x r) {z : Fin 2} {l : Loc} {v : Val}
    {rest : List (Instr Loc Val)} (htodo : (c z).todo = .await l v :: rest) :
    (c z).mem l = v ↔ k - awaits (c z).todo ∈ (c z).arrived := by
  -- the PE that had the turn last waits for a put that has not been issued
  have passed : Passed g k c x r → z = x →
      ((c z).mem l = v ↔ k - awaits (c z).todo ∈ (c z).arrived) := by
    rintro hp rfl
    obtain ⟨-, rfl, rfl⟩ := wait_eq (hp.todo.symm.trans htodo)
    have hputs := hp.puts'
    rw [hp.arrived, hp.todo, (awaits_hold_wait r).2, List.mem_range]
    exact ⟨fun hfull => absurd hfull hp.clear, fun hlt => by omega⟩
  rcases eq_or_eq_other x z with rfl | rfl
  · cases h with
    | turn h => exact absurd (h.todo.symm.trans htodo) hold_ne
    | way hp _ => exact passed hp rfl
    | there hp _ => exact passed hp rfl
    | seen hp _ => exact passed hp rfl
  · cases h with
    | turn h =>
      obtain ⟨-, rfl, rfl⟩ := wait_eq (h.todo'.symm.trans htodo)
      have hputs := h.puts
      rw [h.arrived', h.todo', (awaits_hold_wait r).2, List.mem_range]
      exact ⟨fun hfull => absurd hfull h.clear', fun hlt => by omega⟩
    | way hp h =>
      obtain ⟨-, rfl, rfl⟩ := wait_eq (h.todo.symm.trans htodo)
      obtain ⟨num, ws, hnum, -, -, harrived⟩ := h.inbox
      have hputs := hp.puts
      rw [harrived, h.todo, (awaits_hold_wait (r + 1)).2, List.mem_range]
      exact ⟨fun hfull => absurd hfull h.clear, fun hlt => by omega⟩
    | there hp h =>
      obtain ⟨-, rfl, rfl⟩ := wait_eq (h.todo.symm.trans htodo)
      have hputs := hp.puts
      have hpos := h.pos
      rw [h.arrived, h.todo, (awaits_hold_wait (r + 1)).2, List.mem_range]
      exact ⟨fun _ => by omega, fun _ => h.full⟩
    | seen hp h => cases h.todo.symm.trans htodo

/-- Where no step is possible both are done. -/
theorem Stage.stuck {r : Nat} (h : Stage g src k c x r) (hs : Stuck false c) : Finished c := by
  cases h with
  | turn h =>
    have htodo := h.todo
    have htodo' := h.todo'
    cases r with
    | zero =>
      intro z
      rcases eq_or_eq_other x z with rfl | rfl
      · exact htodo
      · exact htodo'
    | succ r => exact absurd ⟨x, .put htodo⟩ (hs _)
  | way hp h =>
    -- the network can always store a word
    exfalso
    obtain ⟨num, ws, -, hinbox, -⟩ := h.inbox
    cases ws with
    | nil => exact hs _ ⟨1 - x, @Act.last _ _ _ _ c _ [] _ _ _ _ hinbox fun _ => rfl⟩
    | cons w ws =>
      exact hs _ ⟨1 - x, @Act.word _ _ _ _ c _ [] _ [] w.1 w.2 (ws ++ _) _ hinbox
        (List.append_ne_nil_of_right_ne_nil _ (List.cons_ne_nil _ _)) fun _ => rfl⟩
  | there hp h => exact absurd ⟨1 - x, .await h.todo h.full⟩ (hs _)
  | seen hp h => exact absurd ⟨1 - x, .store h.todo⟩ (hs _)

/-- **Polling is right** where every put ends with the value that is waited for.  The stage of a
    reachable state says whether the cell is full and which puts have arrived, and no stage but
    the last is stuck. -/
theorem Sound.agrees (hg : Sound g mem src) (k : Nat) : Agrees (g.start mem k) k where
  exact c hc z l v rest htodo := by
    obtain ⟨x, r, hstage⟩ := (Inv.steps hg hc).stage
    exact hstage.exact htodo
  ends c hc hs := by
    obtain ⟨x, r, hstage⟩ := (Inv.steps hg hc).stage
    exact hstage.stuck hs

/-- Nobody waits where there are no turns. -/
theorem agrees_zero (g : Game Loc Val) (mem : Fin 2 → Loc → Val) : Agrees (g.start mem 0) 0 := by
  have hidle : ∀ c, Steps false (g.start mem 0) c → c = g.start mem 0 := by
    intro c hc
    induction hc with
    | refl => rfl
    | tail _ hs ih =>
      subst ih
      obtain ⟨x, hs⟩ := hs
      refine absurd rfl (hs.of_nil ?_)
      match x with
      | 0 => rfl
      | 1 => rfl
  have htodo : ∀ x, (g.start mem 0 x).todo = [] := by
    intro x
    match x with
    | 0 => rfl
    | 1 => rfl
  refine ⟨fun c hc x l v rest hawait => ?_, fun c hc _ => hidle c hc ▸ htodo⟩
  rw [hidle c hc, htodo x] at hawait
  cases hawait

/-! ## And only there -/

/-- A put made and stored entirely, into the buffer of a PE to which nothing else is on the
    way. -/
theorem exists_bounced {x : Fin 2} {rest : List (Instr Loc Val)} (hg : g.Ends src)
    (htodo : (c x).todo = .put (g.words x) :: rest) (hinbox : (c x).inbox = [])
    (hinbox' : (c (1 - x)).inbox = []) :
    ∃ c₁ c₂, Step false c c₁ ∧ c₁ x = { c x with todo := rest, puts := (c x).puts + 1 } ∧
      Steps false c₁ c₂ ∧ c₂ x = c₁ x ∧
      (c₂ (1 - x)).todo = (c (1 - x)).todo ∧ (c₂ (1 - x)).inbox = [] ∧
      (c₂ (1 - x)).puts = (c (1 - x)).puts ∧
      (c₂ (1 - x)).arrived = (c (1 - x)).arrived ++ [(c x).puts] ∧
      (c₂ (1 - x)).mem (g.cell (1 - x)) = (c x).mem (src x) ∧
      ∀ l, (∀ w ∈ g.words x, w.2 ≠ l) → (c₂ (1 - x)).mem l = (c (1 - x)).mem l := by
  obtain ⟨ws, hws, -⟩ := hg.words x
  obtain ⟨c₁, hstep⟩ : ∃ c₁, Act false c x c₁ := ⟨_, .put htodo⟩
  obtain ⟨hx, hy⟩ := hstep.of_put htodo hinbox
  have hpayload : (c x).payload (g.words x) =
      ws.map (fun w => (w.2, (c x).mem w.1)) ++ [(g.cell (1 - x), (c x).mem (src x))] := by
    rw [Pe.payload, hws, List.map_append, List.map_singleton]
  have hinbox₁ : (c₁ (1 - x)).inbox = [((c x).puts, (c x).payload (g.words x))] := by
    rw [hy]
    show (c (1 - x)).inbox ++ _ = _
    rw [hinbox', List.nil_append]
  have hne : (c x).payload (g.words x) ≠ [] := by
    rw [hpayload]
    exact List.append_ne_nil_of_right_ne_nil _ (List.cons_ne_nil _ _)
  refine ⟨c₁, _, ⟨x, hstep⟩, hx, exists_stored _ c₁ hne hinbox₁,
    Function.update_of_ne (ne_other x) .., ?_⟩
  simp only [Function.update_self, hy, true_and]
  constructor
  · rw [hpayload]
    exact stored_last ..
  · intro l hl
    refine stored_of_ne _ _ ?_
    intro w hw
    obtain ⟨u, hu, rfl⟩ := List.mem_map.mp hw
    exact hl u hu

/-- A PE in its first wait sees the value exactly when the first put has been stored. -/
theorem Agrees.first (h : Agrees (g.start mem (k + 1)) (k + 1))
    (hc : Steps false (g.start mem (k + 1)) c) {x : Fin 2} {r : Nat} (hr : (r + 1) / 2 = k + 1)
    (htodo : (c x).todo = g.wait x r) :
    (c x).mem (g.cell x) = g.full x ↔ 0 ∈ (c x).arrived := by
  obtain _ | r := r
  · omega
  have hexact := h.exact c hc x _ _ _ htodo
  have hawaits : awaits (c x).todo = k + 1 := by
    rw [htodo]
    exact awaits_hold_wait (r + 1) |>.2.trans hr
  rwa [hawaits, Nat.sub_self] at hexact

/-- **What it takes**: the first turn of either PE shows all of the values.  Before the put the
    cell must not be full, and behind it it must be; PE 0 has its first wait in its own first
    turn, behind the first one of PE 1. -/
theorem Agrees.values (h : Agrees (g.start mem k) k) (hg : g.Ends src) (hk : 0 < k) :
    mem 1 (g.cell 1) ≠ g.full 1 ∧ mem 0 (g.cell 0) ≠ g.full 0 ∧ mem 0 (src 0) = g.full 1 ∧
      ((src 1 ≠ g.cell 1 ∧ ∀ w ∈ g.words 0, w.2 ≠ src 1) → mem 1 (src 1) = g.full 0) := by
  obtain ⟨k, rfl⟩ := Nat.exists_eq_succ_of_ne_zero hk.ne'
  -- PE 1 waits, and nothing has been put
  have hwait₁ : (2 * (k + 1) + 1) / 2 = k + 1 := by omega
  have hclear₁ := h.first .refl (x := 1) hwait₁ rfl
  obtain ⟨c₁, c₂, hs₁, hx₁, hs₂, hx₂, htodo₂, hinbox₂, hputs₂, harrived₂, hcell₂, hother₂⟩ :=
    exists_bounced (c := g.start mem (k + 1)) (x := 0) hg rfl rfl rfl
  have hsteps₂ := Relation.ReflTransGen.head hs₁ hs₂
  have harrived : (c₂ 1).arrived = [0] := harrived₂
  have hfull₁ := (h.first hsteps₂ hwait₁ htodo₂).mpr (harrived ▸ List.mem_cons_self)
  -- PE 0 has put, and waits
  have hwait₀ : (2 * k + 1 + 1) / 2 = k + 1 := by omega
  have hclear₀ := h.first (.single hs₁) hwait₀ (by rw [hx₁]; rfl)
  refine ⟨?_, ?_, hcell₂.symm.trans hfull₁, ?_⟩
  · intro heq
    cases hclear₁.mp heq
  · intro heq
    rw [hx₁] at hclear₀
    cases hclear₀.mp heq
  · -- PE 1 sees the put, sets its cell back and puts in turn
    intro hkept
    have hawait : (c₂ 1).todo = .await (g.cell 1) (g.full 1) ::
        .store (g.cell 1) (g.empty 1) :: g.hold 1 (2 * k + 1) := htodo₂
    obtain ⟨c₃, hs₃⟩ : ∃ c₃, Act false c₂ 1 c₃ := ⟨_, .await hawait hfull₁⟩
    obtain ⟨-, hy₃, hx₃⟩ := hs₃.of_await hawait hinbox₂
    have hstore : (c₃ 1).todo = .store (g.cell 1) (g.empty 1) :: g.hold 1 (2 * k + 1) := by
      rw [hy₃]
    have hinbox₃ : (c₃ 1).inbox = [] := by
      rw [hy₃]
      exact hinbox₂
    obtain ⟨c₄, hs₄⟩ : ∃ c₄, Act false c₃ 1 c₄ := ⟨_, .store hstore⟩
    obtain ⟨hy₄, hx₄⟩ := hs₄.of_store hstore hinbox₃
    have hzero : c₄ 0 = c₁ 0 := hx₄.trans (hx₃.trans hx₂)
    have hsrc : (c₄ 1).mem (src 1) = mem 1 (src 1) := by
      rw [hy₄, hy₃]
      exact (Function.update_of_ne hkept.1 _ _).trans (hother₂ _ hkept.2)
    obtain ⟨c₅, c₆, hs₅, hx₅, hs₆, hx₆, htodo₆, hinbox₆, hputs₆, harrived₆, hcell₆, -⟩ :=
      exists_bounced (c := c₄) (x := 1) hg (by rw [hy₄]; rfl) (by rw [hy₄]; exact hinbox₃)
        (show (c₄ 0).inbox = [] by rw [hzero, hx₁]; rfl)
    have hsteps₆ := (((hsteps₂.tail ⟨1, hs₃⟩).tail ⟨1, hs₄⟩).tail hs₅).trans hs₆
    have hputs : (c₄ 1).puts = 0 := by
      rw [hy₄, hy₃]
      exact hputs₂
    have htodo₀ : (c₆ 0).todo = g.wait 0 (2 * k + 1) := by
      rw [show (c₆ 0).todo = (c₄ 0).todo from htodo₆, hzero, hx₁]
      rfl
    have harrived₀ : 0 ∈ (c₆ 0).arrived := by
      rw [show (c₆ 0).arrived = _ from harrived₆, hputs]
      exact List.mem_append_right _ List.mem_cons_self
    have hseen := (h.first hsteps₆ hwait₀ htodo₀).mpr harrived₀
    exact hsrc.symm.trans (hcell₆.symm.trans hseen)

end sound

end Sentinel
