/-
  `armci.c`: where the puts of a whole session go.

  A put needs the address of the other process's buffer, which `remote_ptr` looks up in the
  registry of `NetPipe.Armci` under the address of one's own.  `run_iters` allocates new buffers
  in every run and frees them at its end; the three words of `Setup` stay.  As addresses are used
  again, an entry that had been left behind would send the puts of a later run astray.

  1. `setup`, `myMalloc`, `freeBuff`, `runIters`, `session` — what one process does to its
     registry.  `Grant` is what `malloc` and `ARMCI_Malloc` answer; the addresses of the latter are
     the same on both processes, for the call is collective.

  2. `Granted` — what the two allocators promise: nodes are never freed, so they are all different;
     addresses differ from those that are live at that moment only.

  3. `Knows` — the load-bearing invariant: the registry holds exactly these allocations, and no node
     but these was ever in use.  One lemma for each operation.  After a run it knows what it knew
     before (`runIters_knows`), so a session is an induction on its runs.

  4. `session_targets` — in every run, on both processes, the puts go to the other one's receive
     buffer of that run, and at the end only the words of `Setup` are registered.
-/
import Mathlib.Data.List.Forall2
import NetPipe.Armci

namespace NetPipe.Armci

open Chains
open scoped OneSided

/-! ## The functions -/

/-- What one collective `armci_malloc` is given: a node on either process, and the two addresses. -/
structure Grant where
  node : Fin 2 → Nat
  ptrs : Fin 2 → Nat

/-- The grants of `Setup`. -/
structure Boot where
  flag : Grant
  time : Grant
  nrepeat : Grant

/-- The words of `Setup`: `p->prot.flag`, `pTime` and `pNrepeat`. -/
structure Words where
  flag : Nat
  pTime : Nat
  pNrepeat : Nat
  deriving DecidableEq, Repr

/-- The grants of one run, and the length of its buffers; `s` is not asked for in cached mode. -/
structure RunGrant where
  bufflen : Int
  r : Grant
  s : Grant

/-- The buffers of a run, and where `SendData` puts. -/
structure Target where
  rBuff : Nat
  sBuff : Nat
  remoteBuff : Nat
  deriving DecidableEq, Repr

section functions

variable (mype : Fin 2)

/-- `Setup`: the words both processes write to. -/
def setup (s : Registry) (b : Boot) : Except Stop (Words × Registry) := do
  let (flag, s) ← armciMalloc mype s (b.flag.node mype) b.flag.ptrs 4
  let (pTime, s) ← armciMalloc mype s (b.time.node mype) b.time.ptrs 8
  let (pNrepeat, s) ← armciMalloc mype s (b.nrepeat.node mype) b.nrepeat.ptrs 4
  .ok (⟨flag, pTime, pNrepeat⟩, s)

/-- `MyMalloc(p, bufflen, 0, 0)`, and what `run_iters` makes of `s_buff` in cached mode. -/
def myMalloc (cache : Bool) (s : Registry) (g : RunGrant) : Except Stop (Nat × Nat × Registry) := do
  let (rBuff, s) ← armciMalloc mype s (g.r.node mype) g.r.ptrs g.bufflen
  if cache then .ok (rBuff, rBuff, s)
  else do
    let (sBuff, s) ← armciMalloc mype s (g.s.node mype) g.s.ptrs g.bufflen
    .ok (rBuff, sBuff, s)

/-- `FreeBuff(buff1, buff2)`. -/
def freeBuff (s : Registry) (buff1 buff2 fuel : Nat) : Except Stop Registry := do
  let s ← if buff1 ≠ 0 then armciFree mype s buff1 fuel else .ok s
  if buff2 ≠ 0 then armciFree mype s buff2 fuel else .ok s

/-- The part of `run_iters` that concerns addresses; none where it raises `MemoryError`.
    `nbor_r_buff_offset` and `s_ptr - s_buff` are 0 for the buffers of `run_iters`. -/
def runIters (cache : Bool) (s : Registry) (g : RunGrant) (fuel : Nat) :
    Except Stop (Option Target × Registry) := do
  let (rBuff, sBuff, s) ← myMalloc mype cache s g
  if rBuff = 0 ∨ sBuff = 0 then .ok (none, s)
  else do
    let remoteBuff ← remotePtr mype s rBuff fuel
    let s ← freeBuff mype s sBuff (if cache then 0 else rBuff) fuel
    .ok (some ⟨rBuff, sBuff, remoteBuff⟩, s)

/-- One run after the other. -/
def session (cache : Bool) : Registry → List RunGrant → (fuel : Nat) →
    Except Stop (List (Option Target) × Registry)
  | s, [], _ => .ok ([], s)
  | s, g :: gs, fuel => do
    let (t, s) ← runIters mype cache s g fuel
    let (ts, s) ← session cache s gs fuel
    .ok (t :: ts, s)

end functions

/-! ## Functions that return -/

section returns

variable {α β : Type}

theorem Returns.ok (a : α) : Returns (fun _ => .ok a) a := ⟨0, fun _ _ => rfl⟩

theorem Returns.congr {f g : Nat → Except Stop α} {a : α} (hf : Returns f a)
    (h : ∀ fuel, g fuel = f fuel) : Returns g a := by
  obtain ⟨bound, hf⟩ := hf
  exact ⟨bound, fun fuel hfuel => (h fuel).trans (hf fuel hfuel)⟩

/-- Sequencing. -/
theorem Returns.bind {f : Nat → Except Stop α} {a : α} {g : α → Nat → Except Stop β} {b : β}
    (hf : Returns f a) (hg : Returns (g a) b) :
    Returns (fun fuel => f fuel >>= fun a => g a fuel) b := by
  obtain ⟨bf, hf⟩ := hf
  obtain ⟨bg, hg⟩ := hg
  refine ⟨max bf bg, ?_⟩
  intro fuel hfuel
  have h₁ := hf fuel (le_trans (Nat.le_max_left ..) hfuel)
  have h₂ := hg fuel (le_trans (Nat.le_max_right ..) hfuel)
  show (f fuel >>= fun a => g a fuel) = .ok b
  rw [h₁]
  exact h₂

end returns

/-! ## What a registry knows -/

/-- The registry holds the allocations `live`, newest first, and no node outside `used` has ever
    been in use.  Nodes are never freed, so `used` only grows, and a node that `malloc` has not
    given before is a new one. -/
structure Knows (x : Fin 2) (s : Registry) (live : List Alloc) (used : List Nat) : Prop where
  mirrors : ∃ addrs, Mirrors x s live addrs
  unused : ∀ a, a ∉ used → s.entry a = none

section knows

variable {x : Fin 2} {s : Registry} {live : List Alloc} {used : List Nat}

theorem knows_empty (x : Fin 2) : Knows x .empty [] [] :=
  ⟨⟨[], .nil, rfl, List.nodup_nil⟩, fun _ _ => rfl⟩

theorem node_eq_none {a : Nat} (h : s.entry a = none) : s.node a = none := by
  cases hnode : s.node a with
  | none => rfl
  | some n => simp [Registry.entry, hnode] at h

/-- `setNext` changes no entry. -/
theorem entry_setNext {s' : Registry} {a next : Nat} (h : s.setNext a next = some s') :
    s'.entry = s.entry := by
  obtain ⟨n, hn, rfl⟩ := Option.map_eq_some_iff.mp h
  have hentry : s.entry a = some n.toAlloc := by
    rw [Registry.entry, hn]
    rfl
  rw [entry_put, ← hentry, Function.update_eq_self]

/-- `armci_free` changes no entry: the node stays where it is. -/
theorem entry_armciFree {s' : Registry} {ptr fuel : Nat}
    (h : armciFree x s ptr fuel = .ok s') : s'.entry = s.entry := by
  unfold armciFree at h
  split at h
  · rename_i n p hfind
    by_cases hn : n = 0
    · rw [if_neg (not_not.mpr hn)] at h
      obtain rfl := Except.ok.inj h
      rfl
    · rw [if_pos hn, munlink, if_pos hn] at h
      cases hnode : s.node n with
      | none => simp [hnode] at h
      | some node =>
        rw [hnode, Option.bind_some] at h
        by_cases hp : p = 0
        · rw [if_neg (not_not.mpr hp)] at h
          obtain rfl := Except.ok.inj h
          rfl
        · rw [if_pos hp] at h
          cases hset : s.setNext p node.next with
          | none => simp [hset] at h
          | some s₁ =>
            rw [hset] at h
            obtain rfl := Except.ok.inj h
            exact entry_setNext hset
  · cases h

/-- **`armci_malloc`** with a new node and a new address. -/
theorem Knows.malloc (h : Knows x s live used) (g : Grant) (nbytes : Int) (hzero : g.node x ≠ 0)
    (hnode : g.node x ∉ used) (hptr : ∀ a ∈ live, a.ptrs x ≠ g.ptrs x) :
    ∃ s', armciMalloc x s (g.node x) g.ptrs nbytes = .ok (g.ptrs x, s') ∧
      Knows x s' (⟨g.ptrs, nbytes⟩ :: live) (g.node x :: used) := by
  obtain ⟨addrs, hm⟩ := h.mirrors
  obtain ⟨s', hrun, -, hentry', -⟩ := armciMalloc_eq x s g.ptrs nbytes hzero
  refine ⟨s', hrun, ⟨_, hm.malloc (node_eq_none (h.unused _ hnode)) hptr hrun⟩, ?_⟩
  intro a ha
  rw [List.mem_cons, not_or] at ha
  rw [hentry', entry_put, Function.update_of_ne ha.1]
  exact h.unused a ha.2

/-- **`armci_free`** of an allocation. -/
theorem Knows.free (pre : List Alloc) {post : List Alloc} {a : Alloc}
    (h : Knows x s (pre ++ a :: post) used) :
    ∃ s', Returns (armciFree x s (a.ptrs x)) s' ∧ Knows x s' (pre ++ post) used := by
  obtain ⟨addrs, hm⟩ := h.mirrors
  obtain ⟨apre, b, apost, rfl, hpre, hx, hpost⟩ := hm.split
  obtain ⟨s', hrun, hm'⟩ := hm.free hpre hx hpost
  have hentry : s'.entry = s.entry := by
    obtain ⟨bound, hrun⟩ := hrun
    exact entry_armciFree (hrun bound (Nat.le_refl bound))
  refine ⟨s', hrun, ⟨_, hm'⟩, ?_⟩
  intro c hc
  rw [hentry]
  exact h.unused c hc

/-- **`remote_ptr`** of an allocation. -/
theorem Knows.remotePtr (h : Knows x s live used) {a : Alloc} (ha : a ∈ live) :
    Returns (remotePtr x s (a.ptrs x)) (a.ptrs (1 - x)) := by
  obtain ⟨addrs, hm⟩ := h.mirrors
  obtain ⟨pre, post, rfl⟩ := List.append_of_mem ha
  obtain ⟨apre, b, apost, rfl, hpre, hx, -⟩ := hm.split
  exact hm.remotePtr hpre hx

end knows

/-! ## What is granted -/

/-- The words of `Setup`, as they are registered. -/
def Boot.live (b : Boot) : List Alloc := [⟨b.nrepeat.ptrs, 4⟩, ⟨b.time.ptrs, 8⟩, ⟨b.flag.ptrs, 4⟩]

/-- The nodes of `Setup` on one process. -/
def Boot.nodes (b : Boot) (x : Fin 2) : List Nat := [b.nrepeat.node x, b.time.node x, b.flag.node x]

/-- What a run asks for. -/
def RunGrant.grants (g : RunGrant) (cache : Bool) : List Grant :=
  if cache then [g.r] else [g.s, g.r]

/-- The nodes of a run. -/
def RunGrant.nodes (g : RunGrant) (cache : Bool) (x : Fin 2) : List Nat :=
  (g.grants cache).map (Grant.node · x)

/-- What `malloc` and `ARMCI_Malloc` promise process `x`: nodes, which are never freed, are all
    different, and an address is that of no live allocation.  Allocation does not fail. -/
structure Granted (cache : Bool) (b : Boot) (runs : List RunGrant) (x : Fin 2) : Prop where
  nodes : (b.nodes x ++ runs.flatMap (RunGrant.nodes · cache x)).Nodup
  nodes_ne_zero : ∀ a ∈ b.nodes x ++ runs.flatMap (RunGrant.nodes · cache x), a ≠ 0
  words : (b.live.map fun a => a.ptrs x).Nodup
  ptrs : ∀ g ∈ runs, ((g.grants cache).map (Grant.ptrs · x) ++ b.live.map fun a => a.ptrs x).Nodup
  ptrs_ne_zero : ∀ g ∈ runs, ∀ p ∈ (g.grants cache).map (Grant.ptrs · x), p ≠ 0

/-! ## A run and a session -/

section runs

variable {x : Fin 2} {cache : Bool} {b : Boot}

/-- **`Setup`** registers the three words. -/
theorem setup_knows {runs : List RunGrant} (hg : Granted cache b runs x) :
    ∃ s, setup x .empty b =
        .ok (⟨b.flag.ptrs x, b.time.ptrs x, b.nrepeat.ptrs x⟩, s) ∧
      Knows x s b.live (b.nodes x) := by
  have hnodes := (List.nodup_append.mp hg.nodes).1
  have hzero := fun a ha => hg.nodes_ne_zero a (List.mem_append_left _ ha)
  have hwords := hg.words
  simp only [Boot.nodes, List.nodup_cons, List.mem_cons, List.not_mem_nil, or_false,
    not_or] at hnodes
  simp only [Boot.live, List.map_cons, List.map_nil, List.nodup_cons, List.mem_cons,
    List.not_mem_nil, or_false, not_or] at hwords
  simp only [Boot.nodes, List.forall_mem_cons] at hzero
  obtain ⟨⟨hnt, hnf⟩, htf, -⟩ := hnodes
  obtain ⟨⟨hnt', hnf'⟩, htf', -⟩ := hwords
  obtain ⟨hn0, ht0, hf0, -⟩ := hzero
  obtain ⟨s₁, hrun₁, hk₁⟩ := (knows_empty x).malloc b.flag 4 hf0
    List.not_mem_nil (by simp)
  obtain ⟨s₂, hrun₂, hk₂⟩ := hk₁.malloc b.time 8 ht0 (by simpa using htf)
    (by simpa using Ne.symm htf')
  obtain ⟨s₃, hrun₃, hk₃⟩ := hk₂.malloc b.nrepeat 4 hn0
    (by simpa using ⟨hnt, hnf⟩) (by simpa using ⟨Ne.symm hnt', Ne.symm hnf'⟩)
  refine ⟨s₃, ?_, hk₃⟩
  rw [setup, hrun₁]
  show (do
    let (pTime, s) ← armciMalloc x s₁ (b.time.node x) b.time.ptrs 8
    _ : Except Stop (Words × Registry)) = _
  rw [hrun₂]
  show (do
    let (pNrepeat, s) ← armciMalloc x s₂ (b.nrepeat.node x) b.nrepeat.ptrs 4
    _ : Except Stop (Words × Registry)) = _
  rw [hrun₃]
  rfl

/-- What process `x` puts where in a run. -/
def RunGrant.target (g : RunGrant) (cache : Bool) (x : Fin 2) : Target :=
  ⟨g.r.ptrs x, if cache then g.r.ptrs x else g.s.ptrs x, g.r.ptrs (1 - x)⟩

/-- `FreeBuff` of two buffers. -/
theorem freeBuff_returns {s s₁ s₂ : Registry} {p q : Nat} (hp : p ≠ 0) (hq : q ≠ 0)
    (h₁ : Returns (armciFree x s p) s₁) (h₂ : Returns (armciFree x s₁ q) s₂) :
    Returns (freeBuff x s p q) s₂ := by
  refine (h₁.bind (g := fun s fuel => armciFree x s q fuel) h₂).congr fun fuel => ?_
  rw [freeBuff, if_pos hp]
  simp only [if_pos hq]

/-- `FreeBuff` of one. -/
theorem freeBuff_one {s s₁ : Registry} {p : Nat} (hp : p ≠ 0) (h₁ : Returns (armciFree x s p) s₁) :
    Returns (freeBuff x s p 0) s₁ := by
  refine (h₁.bind (g := fun s _ => .ok s) (.ok s₁)).congr fun fuel => ?_
  rw [freeBuff, if_pos hp]
  rfl

/-- The part of `run_iters` behind `MyMalloc`. -/
theorem runIters_returns {s : Registry} (s₁ : Registry) {s₂ : Registry} {g : RunGrant}
    (halloc : myMalloc x cache s g = .ok ((g.target cache x).rBuff, (g.target cache x).sBuff, s₁))
    (hr : (g.target cache x).rBuff ≠ 0) (hs : (g.target cache x).sBuff ≠ 0)
    (hremote : Returns (remotePtr x s₁ (g.r.ptrs x)) (g.r.ptrs (1 - x)))
    (hfree : Returns (freeBuff x s₁ (g.target cache x).sBuff
      (if cache then 0 else (g.target cache x).rBuff)) s₂) :
    Returns (runIters x cache s g) (some (g.target cache x), s₂) := by
  refine (hremote.bind (g := fun remoteBuff fuel => freeBuff x s₁ (g.target cache x).sBuff
    (if cache then 0 else (g.target cache x).rBuff) fuel >>= fun s => .ok
      (some ⟨(g.target cache x).rBuff, (g.target cache x).sBuff, remoteBuff⟩, s)) ?_).congr ?_
  · exact hfree.bind (g := fun s _ => .ok (some (g.target cache x), s)) (.ok _)
  · intro fuel
    rw [runIters, halloc]
    exact if_neg (not_or.mpr ⟨hr, hs⟩)

/-- **One run**: the puts go to the other process's buffer, and afterwards the registry knows what
    it knew before. -/
theorem runIters_knows {s : Registry} {used : List Nat} (hk : Knows x s b.live used)
    {g : RunGrant} (hnodes : (used ++ g.nodes cache x).Nodup)
    (hzero : ∀ a ∈ g.nodes cache x, a ≠ 0)
    (hptrs : ((g.grants cache).map (Grant.ptrs · x) ++ b.live.map fun a => a.ptrs x).Nodup)
    (hptrs_zero : ∀ p ∈ (g.grants cache).map (Grant.ptrs · x), p ≠ 0) :
    ∃ s', Returns (runIters x cache s g) (some (g.target cache x), s') ∧
      Knows x s' b.live (g.nodes cache x ++ used) := by
  have hfresh : ∀ a ∈ b.live, a.ptrs x ≠ g.r.ptrs x := by
    intro a ha heq
    have hmem : g.r.ptrs x ∈ (g.grants cache).map (Grant.ptrs · x) := by
      cases cache <;> simp [RunGrant.grants]
    exact (List.nodup_append.mp hptrs).2.2 _ hmem _ (List.mem_map_of_mem ha) heq.symm
  have hr0 : g.r.node x ≠ 0 := hzero _ (by cases cache <;> simp [RunGrant.nodes, RunGrant.grants])
  have hr : g.r.node x ∉ used := by
    intro hmem
    exact (List.nodup_append.mp hnodes).2.2 _ hmem _
      (by cases cache <;> simp [RunGrant.nodes, RunGrant.grants]) rfl
  have hrp : g.r.ptrs x ≠ 0 := hptrs_zero _ (by cases cache <;> simp [RunGrant.grants])
  obtain ⟨s₁, hrun₁, hk₁⟩ := hk.malloc g.r g.bufflen hr0 hr hfresh
  have halloc₁ : ∀ {α : Type} (f : Nat × Registry → Except Stop α),
      (armciMalloc x s (g.r.node x) g.r.ptrs g.bufflen >>= f) = f (g.r.ptrs x, s₁) := by
    intro α f
    rw [hrun₁]
    rfl
  cases cache with
  | true =>
    -- one allocation, and one `armci_free`
    obtain ⟨s₂, hfree, hk₂⟩ := Knows.free [] hk₁
    refine ⟨s₂, runIters_returns s₁ ?_ hrp hrp (hk₁.remotePtr List.mem_cons_self) ?_, hk₂⟩
    · rw [myMalloc, halloc₁]
      rfl
    · exact freeBuff_one hrp hfree
  | false =>
    -- the send buffer is freed first
    simp only [RunGrant.nodes, RunGrant.grants, List.map_cons, List.map_nil, Bool.false_eq_true,
      if_false] at hnodes hzero hptrs hptrs_zero
    have hs0 : g.s.node x ≠ 0 := hzero _ List.mem_cons_self
    have hsp : g.s.ptrs x ≠ 0 := hptrs_zero _ List.mem_cons_self
    have hs : g.s.node x ∉ g.r.node x :: used := by
      intro hmem
      have hnd := List.nodup_append.mp hnodes
      rcases List.mem_cons.mp hmem with heq | hmem
      · exact (List.nodup_cons.mp hnd.2.1).1 (by rw [heq]; exact List.mem_cons_self)
      · exact hnd.2.2 _ hmem _ List.mem_cons_self rfl
    have hsfresh : ∀ a ∈ (⟨g.r.ptrs, g.bufflen⟩ : Alloc) :: b.live, a.ptrs x ≠ g.s.ptrs x := by
      have hcons := List.nodup_cons.mp hptrs
      intro a ha heq
      refine hcons.1 ?_
      rw [← heq]
      rcases List.mem_cons.mp ha with rfl | ha
      · exact List.mem_append_left _ List.mem_cons_self
      · exact List.mem_append_right _ (List.mem_map_of_mem ha)
    obtain ⟨s₂, hrun₂, hk₂⟩ := hk₁.malloc g.s g.bufflen hs0 hs hsfresh
    obtain ⟨s₃, hfree₃, hk₃⟩ := Knows.free [] hk₂
    obtain ⟨s₄, hfree₄, hk₄⟩ := Knows.free [] hk₃
    refine ⟨s₄, runIters_returns s₂ ?_ hrp hsp
      (hk₂.remotePtr (List.mem_cons_of_mem _ List.mem_cons_self)) ?_, hk₄⟩
    · rw [myMalloc, halloc₁]
      show (armciMalloc x s₁ (g.s.node x) g.s.ptrs g.bufflen >>= _) = _
      rw [hrun₂]
      rfl
    · exact freeBuff_returns hsp hrp hfree₃ hfree₄

/-- **A session**, by induction on its runs.  A run knows the same allocations before and after
    it, and has used up its nodes; so what is granted to the others still is new to them. -/
theorem session_knows (runs : List RunGrant) : ∀ {s : Registry} {used : List Nat},
    Knows x s b.live used → (used ++ runs.flatMap (RunGrant.nodes · cache x)).Nodup →
    (∀ g ∈ runs, ∀ a ∈ g.nodes cache x, a ≠ 0) →
    (∀ g ∈ runs, ((g.grants cache).map (Grant.ptrs · x) ++
      b.live.map fun a => a.ptrs x).Nodup) →
    (∀ g ∈ runs, ∀ p ∈ (g.grants cache).map (Grant.ptrs · x), p ≠ 0) →
    ∃ s' used', Returns (session x cache s runs)
      (runs.map fun g => some (g.target cache x), s') ∧ Knows x s' b.live used' := by
  induction runs with
  | nil => exact fun hk _ _ _ _ => ⟨_, _, .ok _, hk⟩
  | cons g runs ih =>
    intro s used hk hnodes hzero hptrs hptrs_zero
    rw [List.forall_mem_cons] at hzero hptrs hptrs_zero
    rw [List.flatMap_cons, ← List.append_assoc] at hnodes
    obtain ⟨s₁, hrun, hk₁⟩ := runIters_knows hk (List.nodup_append.mp hnodes).1 hzero.1 hptrs.1
      hptrs_zero.1
    have hnodes₁ : (g.nodes cache x ++ used ++ runs.flatMap (RunGrant.nodes · cache x)).Nodup :=
      (List.perm_append_comm.append_right _).nodup_iff.mp hnodes
    obtain ⟨s₂, used₂, hrest, hk₂⟩ := ih hk₁ hnodes₁ hzero.2 hptrs.2 hptrs_zero.2
    refine ⟨s₂, used₂, ?_, hk₂⟩
    refine hrun.bind (g := fun a fuel => session x cache a.2 runs fuel >>= fun c =>
      .ok (a.1 :: c.1, c.2)) ?_
    exact hrest.bind (g := fun c _ => .ok (some (g.target cache x) :: c.1, c.2)) (.ok _)

end runs

/-- **Where the puts of a session go**, in either cache mode and for any number of runs: `Setup`
    and all runs return on both processes; in each run either process puts into the receive buffer
    the other one has in that run; and when the session is over the registry has the words of
    `Setup` and no more, `remote_ptr` giving the other process's word for each of them. -/
theorem session_targets (cache : Bool) (b : Boot) (runs : List RunGrant)
    (hg : ∀ x, Granted cache b runs x) :
    ∃ (w : Fin 2 → Words) (s s' : Fin 2 → Registry) (ts : Fin 2 → List Target),
      (∀ x, setup x .empty b = .ok (w x, s x)) ∧
      (∀ x, Returns (session x cache (s x) runs) ((ts x).map some, s' x)) ∧
      (∀ x, List.Forall₂ (fun t u => t.remoteBuff = u.rBuff) (ts x) (ts (1 - x))) ∧
      ∀ x, (∃ addrs, Mirrors x (s' x) b.live addrs) ∧
        Returns (remotePtr x (s' x) (w x).flag) (w (1 - x)).flag ∧
        Returns (remotePtr x (s' x) (w x).pTime) (w (1 - x)).pTime ∧
        Returns (remotePtr x (s' x) (w x).pNrepeat) (w (1 - x)).pNrepeat := by
  have hboth : ∀ x, ∃ s s' used', setup x .empty b =
      .ok (⟨b.flag.ptrs x, b.time.ptrs x, b.nrepeat.ptrs x⟩, s) ∧
      Returns (session x cache s runs) (runs.map fun g => some (g.target cache x), s') ∧
      Knows x s' b.live used' := by
    intro x
    obtain ⟨s, hsetup, hk⟩ := setup_knows (hg x)
    obtain ⟨s', used', hrun, hk'⟩ := session_knows runs hk (hg x).nodes
      (fun g hmem a ha => (hg x).nodes_ne_zero a (List.mem_append_right _
        (List.mem_flatMap.mpr ⟨g, hmem, ha⟩))) (hg x).ptrs (hg x).ptrs_ne_zero
    exact ⟨s, s', used', hsetup, hrun, hk'⟩
  choose s s' used' hsetup hrun hk using hboth
  refine ⟨fun x => ⟨b.flag.ptrs x, b.time.ptrs x, b.nrepeat.ptrs x⟩, s, s',
    fun x => runs.map (RunGrant.target · cache x), hsetup, ?_, ?_, ?_⟩
  · intro x
    rw [List.map_map]
    exact hrun x
  · intro x
    rw [List.forall₂_map_left_iff, List.forall₂_map_right_iff, List.forall₂_same]
    exact fun g _ => rfl
  · intro x
    refine ⟨(hk x).mirrors, ?_, ?_, ?_⟩
    · exact (hk x).remotePtr (a := ⟨b.flag.ptrs, 4⟩) (by simp [Boot.live])
    · exact (hk x).remotePtr (a := ⟨b.time.ptrs, 8⟩) (by simp [Boot.live])
    · exact (hk x).remotePtr (a := ⟨b.nrepeat.ptrs, 4⟩) (by simp [Boot.live])

/-- The grants of a `Setup`. -/
def someBoot : Boot :=
  ⟨⟨![1, 1], ![100, 200]⟩, ⟨![2, 2], ![108, 208]⟩, ⟨![3, 3], ![116, 216]⟩⟩

/-- Two runs, the second one being given the addresses of the first one again. -/
def someRuns : List RunGrant :=
  [⟨8, ⟨![4, 4], ![300, 400]⟩, ⟨![5, 5], ![308, 408]⟩⟩,
    ⟨8, ⟨![6, 6], ![308, 400]⟩, ⟨![7, 7], ![300, 408]⟩⟩]

theorem session_targets_two :
    ∃ (w : Fin 2 → Words) (s s' : Fin 2 → Registry) (ts : Fin 2 → List Target),
      (∀ x, setup x .empty someBoot = .ok (w x, s x)) ∧
      (∀ x, Returns (session x false (s x) someRuns) ((ts x).map some, s' x)) ∧
      ∀ x, List.Forall₂ (fun t u => t.remoteBuff = u.rBuff) (ts x) (ts (1 - x)) := by
  obtain ⟨w, s, s', ts, hsetup, hrun, hputs, -⟩ :=
    session_targets false someBoot someRuns fun x => by
      match x with
      | 0 => exact ⟨by decide, by decide, by decide, by decide, by decide⟩
      | 1 => exact ⟨by decide, by decide, by decide, by decide, by decide⟩
  exact ⟨w, s, s', ts, hsetup, hrun, hputs⟩

end NetPipe.Armci
