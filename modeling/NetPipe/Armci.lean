/-
  `armci.c`: the registry of allocations.

  `ARMCI_Malloc` is collective and gives both processes an address each; the module keeps every
  pair in a linked list, so that the remote address can be found from the local one.  A search that
  gives a wrong predecessor, or a head that is not updated, would do no harm at once: it corrupts a
  later lookup.

  1. **The functions**, statement by statement.  Node addresses are numbers, 0 is the null pointer,
     and following a pointer to no node is a fault.  Searching follows pointers in a loop, which
     takes its number of rounds as an argument here; a result counts where more rounds do not
     change it (`Returns`).

  2. **The invariant** (`Mirrors`): the list at `m_first` is a chain of `Lib.Chain`, its nodes
     register the live allocations, newest first, and local addresses are told apart.  That it is
     not cyclic is no part of it; a chain cannot be.

  3. **The functions on such a list**, one lemma for each of `mlink_front`, `mfind` and `munlink`.
     The load-bearing one is `Mirrors.mfind`: with the allocations split at the one looked for, the
     search ends at its node, with the last node before it as predecessor and 0 at the head.  So
     `munlink` always skips the node it is meant to.

  4. **Every run** (`registry_mirrors`), by induction on the calls of `armci_malloc` and
     `armci_free`.
-/
import Mathlib.Data.Fin.VecNotation
import NetPipe.Lib.Chain
import NetPipe.Lib.OneSided

namespace NetPipe.Armci

open Chains
open scoped OneSided

/-! ## The registry -/

/-- One call of `armci_malloc`: the addresses on both processes, and the length. -/
structure Alloc where
  ptrs : Fin 2 → Nat
  nbytes : Int

/-- `struct mnode_t`. -/
structure MNode extends Alloc where
  next : Nat

/-- `m_first`, and the nodes in memory. -/
structure Registry where
  mFirst : Nat
  node : Nat → Option MNode

/-- Why a function does not return. -/
inductive Stop where
  | armciError (msg : String) (code : Int)
  /-- A pointer to no node is followed. -/
  | fault
  /-- The loop is not over after the given number of rounds. -/
  | unfinished
  deriving DecidableEq, Repr

/-- The registry before the first call. -/
def Registry.empty : Registry := ⟨0, fun _ => none⟩

/-- `n` stored at `a`. -/
def Registry.put (s : Registry) (a : Nat) (n : MNode) : Registry :=
  { s with node := Function.update s.node a (some n) }

/-- The node at `a` with another successor. -/
def Registry.setNext (s : Registry) (a next : Nat) : Option Registry :=
  (s.node a).map fun n => s.put a { n with next }

/-- `mlink_front(node)`. -/
def mlinkFront (s : Registry) (node : Nat) : Option Registry :=
  (s.setNext node (if s.mFirst ≠ 0 then s.mFirst else 0)).map fun s => { s with mFirst := node }

section functions

variable (mype : Fin 2)

/-- The loop of `mfind`, from `p` and its successor `n` on, for `fuel` rounds at most. -/
def mfindLoop (s : Registry) (ptr : Nat) : (fuel p n : Nat) → Except Stop (Nat × Nat)
  | 0, _, _ => .error .unfinished
  | fuel + 1, p, n =>
    if n ≠ 0 then
      match s.node n with
      | some node =>
        if node.ptrs mype = ptr then .ok (n, p) else mfindLoop s ptr fuel n node.next
      | none => .error .fault
    else .error (.armciError "Cannot find pointer in linked list" (-1))

/-- `mfind(ptr, prev)`: the node and what is left in `*prev`. -/
def mfind (s : Registry) (ptr fuel : Nat) : Except Stop (Nat × Nat) :=
  if s.mFirst ≠ 0 then
    match s.node s.mFirst with
    | some first =>
      if first.ptrs mype ≠ ptr then mfindLoop mype s ptr fuel s.mFirst first.next
      else .ok (s.mFirst, 0)
    | none => .error .fault
  else .ok (0, 0)

/-- `munlink(node, prev)`. -/
def munlink (s : Registry) (node prev : Nat) : Option Registry :=
  if node ≠ 0 then
    (s.node node).bind fun n =>
      if prev ≠ 0 then s.setNext prev n.next else some { s with mFirst := n.next }
  else some s

/-- `armci_malloc(nbytes)`, where `malloc` gives `node` and `ARMCI_Malloc` these addresses: what it
    returns, and the registry. -/
def armciMalloc (s : Registry) (node : Nat) (ptrs : Fin 2 → Nat) (nbytes : Int) :
    Except Stop (Nat × Registry) :=
  if node = 0 then .error (.armciError "Cannot allocate memory" (-1))
  else
    match mlinkFront (s.put node ⟨⟨ptrs, nbytes⟩, 0⟩) node with
    | some s => .ok (ptrs mype, s)
    | none => .error .fault

/-- `armci_free(ptr)`; `ARMCI_Free` does nothing to the registry, and the node is not freed. -/
def armciFree (s : Registry) (ptr fuel : Nat) : Except Stop Registry :=
  match mfind mype s ptr fuel with
  | .ok (n, p) =>
    match if n ≠ 0 then munlink s n p else some s with
    | some s => .ok s
    | none => .error .fault
  | .error e => .error e

/-- `remote_ptr(local)`. -/
def remotePtr (s : Registry) (loc fuel : Nat) : Except Stop Nat :=
  match mfind mype s loc fuel with
  | .ok (n, _) =>
    if n ≠ 0 then
      match s.node n with
      | some node => .ok (node.ptrs (1 - mype))
      | none => .error .fault
    else .ok 0
  | .error e => .error e

end functions

/-- The function returns `r`: it does from some number of rounds on. -/
def Returns {α : Type} (f : Nat → Except Stop α) (r : α) : Prop :=
  ∃ bound, ∀ fuel, bound ≤ fuel → f fuel = .ok r

theorem Returns.unique {α : Type} {f : Nat → Except Stop α} {r r' : α} (h : Returns f r)
    (h' : Returns f r') : r = r' := by
  obtain ⟨b, hb⟩ := h
  obtain ⟨b', hb'⟩ := h'
  exact Except.ok.inj ((hb (max b b') (Nat.le_max_left ..)).symm.trans
    (hb' (max b b') (Nat.le_max_right ..)))

/-! ## Runs -/

/-- `Reachable mype s live` — some sequence of calls leads to `s`, and `live` are the allocations
    not freed since, newest first.  `malloc` gives a node not in use, and the local address is not
    that of a live allocation. -/
inductive Reachable (mype : Fin 2) : Registry → List Alloc → Prop where
  | start : Reachable mype .empty []
  | malloc {s s' live node ptrs nbytes p} : Reachable mype s live → s.node node = none →
      (∀ x ∈ live, x.ptrs mype ≠ ptrs mype) →
      armciMalloc mype s node ptrs nbytes = .ok (p, s') → Reachable mype s' (⟨ptrs, nbytes⟩ :: live)
  | free {s s' pre x post} : Reachable mype s (pre ++ x :: post) →
      Returns (armciFree mype s (x.ptrs mype)) s' → Reachable mype s' (pre ++ post)

/-- The successor of a node. -/
def Registry.link (s : Registry) (a : Nat) : Option Nat := (s.node a).map MNode.next

/-- What a node registers. -/
def Registry.entry (s : Registry) (a : Nat) : Option Alloc := (s.node a).map MNode.toAlloc

/-- The list at `m_first` has the nodes `addrs`, one for each live allocation, in their order, and
    no two have the same local address.  Kept by every call; the last field is what makes the node
    a search finds the one it was meant to find. -/
structure Mirrors (mype : Fin 2) (s : Registry) (live : List Alloc) (addrs : List Nat) : Prop where
  chain : Chain s.link s.mFirst addrs
  entries : addrs.map s.entry = live.map some
  locals : (live.map fun x => x.ptrs mype).Nodup

/-! ## The functions on such a list -/

section mirrors

variable {mype : Fin 2} {s : Registry} {live : List Alloc} {addrs : List Nat}

theorem node_of_entry {a : Nat} {x : Alloc} (h : s.entry a = some x) :
    ∃ next, s.node a = some ⟨x, next⟩ := by
  obtain ⟨n, hn, rfl⟩ := Option.map_eq_some_iff.mp h
  exact ⟨n.next, hn⟩

theorem link_put (s : Registry) (a : Nat) (n : MNode) :
    (s.put a n).link = Function.update s.link a (some n.next) := by
  funext b
  simp only [Registry.link, Registry.put, Function.update_apply]
  split <;> rfl

theorem entry_put (s : Registry) (a : Nat) (n : MNode) :
    (s.put a n).entry = Function.update s.entry a (some n.toAlloc) := by
  funext b
  simp only [Registry.entry, Registry.put, Function.update_apply]
  split <;> rfl

/-- What changing a successor does. -/
theorem setNext_eq {a c : Nat} {x : Alloc} (h : s.entry a = some x) :
    ∃ s', s.setNext a c = some s' ∧ s'.mFirst = s.mFirst ∧ s'.entry = s.entry ∧
      s'.link = Function.update s.link a (some c) := by
  obtain ⟨next, hn⟩ := node_of_entry h
  refine ⟨s.put a ⟨x, c⟩, ?_, rfl, ?_, link_put ..⟩
  · rw [Registry.setNext, hn]
    rfl
  · rw [entry_put, ← h, Function.update_eq_self]

/-- `mlink_front` puts a node in front. -/
theorem mlinkFront_eq {a : Nat} {x : Alloc} (h : s.entry a = some x) :
    ∃ s', mlinkFront s a = some s' ∧ s'.mFirst = a ∧ s'.entry = s.entry ∧
      s'.link = Function.update s.link a (some s.mFirst) := by
  have hfirst : (if s.mFirst ≠ 0 then s.mFirst else 0) = s.mFirst := by
    split <;> omega
  obtain ⟨s', hs', -, hentry, hlink⟩ := setNext_eq (c := s.mFirst) h
  refine ⟨{ s' with mFirst := a }, ?_, rfl, hentry, hlink⟩
  rw [mlinkFront, hfirst, hs']
  rfl

/-- Each node of the list registers one of the allocations. -/
theorem exists_alloc {b : Nat} (h : addrs.map s.entry = live.map some) (hb : b ∈ addrs) :
    ∃ y ∈ live, s.entry b = some y := by
  have hmem : s.entry b ∈ live.map some := h ▸ List.mem_map_of_mem hb
  obtain ⟨y, hy, heq⟩ := List.mem_map.mp hmem
  exact ⟨y, hy, heq.symm⟩

/-- The successor a node of the list has. -/
theorem next_eq {a n next : Nat} {x : Alloc} {rest : List Nat} (h : Chain s.link n (a :: rest))
    (hnode : s.node a = some ⟨x, next⟩) : next = rest.headD 0 := by
  obtain rfl : n = a := h.head
  have hlink := h.tail.1
  rw [Registry.link, hnode] at hlink
  exact Option.some.inj hlink

/-- What `armci_malloc` does, and that it returns the local address. -/
theorem armciMalloc_eq (mype : Fin 2) (s : Registry) {node : Nat} (ptrs : Fin 2 → Nat)
    (nbytes : Int) (hne : node ≠ 0) :
    ∃ s', armciMalloc mype s node ptrs nbytes = .ok (ptrs mype, s') ∧ s'.mFirst = node ∧
      s'.entry = (s.put node ⟨⟨ptrs, nbytes⟩, 0⟩).entry ∧
      s'.link = Function.update (s.put node ⟨⟨ptrs, nbytes⟩, 0⟩).link node (some s.mFirst) := by
  have hentry : (s.put node ⟨⟨ptrs, nbytes⟩, 0⟩).entry node = some ⟨ptrs, nbytes⟩ := by
    rw [entry_put, Function.update_self]
  obtain ⟨s', hs', hfirst, hentry', hlink⟩ := mlinkFront_eq hentry
  refine ⟨s', ?_, hfirst, hentry', hlink⟩
  simp only [armciMalloc, if_neg hne, hs']

/-- `armci_malloc` registers a new allocation. -/
theorem Mirrors.malloc (h : Mirrors mype s live addrs) {node : Nat} {ptrs : Fin 2 → Nat}
    {nbytes : Int} {p : Nat} {s' : Registry} (hnode : s.node node = none)
    (hfresh : ∀ x ∈ live, x.ptrs mype ≠ ptrs mype)
    (hrun : armciMalloc mype s node ptrs nbytes = .ok (p, s')) :
    Mirrors mype s' (⟨ptrs, nbytes⟩ :: live) (node :: addrs) := by
  have hne : node ≠ 0 := by
    rintro rfl
    cases hrun
  have hentry : (s.put node ⟨⟨ptrs, nbytes⟩, 0⟩).entry node = some ⟨ptrs, nbytes⟩ := by
    rw [entry_put, Function.update_self]
  obtain ⟨s₁, hs₁, hfirst, hentry₁, hlink₁⟩ := armciMalloc_eq mype s ptrs nbytes hne
  obtain ⟨-, rfl⟩ := Prod.mk.inj (Except.ok.inj (hs₁.symm.trans hrun))
  -- the new node is none of the list's
  have hmem : node ∉ addrs := by
    intro hmem
    obtain ⟨x, -, hx⟩ := exists_alloc h.entries hmem
    rw [Registry.entry, hnode] at hx
    cases hx
  have hother : ∀ a ∈ addrs, a ≠ node := by
    rintro a ha rfl
    exact hmem ha
  refine ⟨?_, ?_, ?_⟩
  · rw [hfirst, hlink₁]
    refine Chain.push (h.chain.congr fun a ha => ?_) hne hmem
    rw [link_put, Function.update_of_ne (hother a ha)]
  · rw [hentry₁, List.map_cons, List.map_cons, hentry, ← h.entries]
    congr 1
    apply List.map_congr_left
    intro a ha
    rw [entry_put, Function.update_of_ne (hother a ha)]
  · rw [List.map_cons, List.nodup_cons]
    refine ⟨fun hmem => ?_, h.locals⟩
    obtain ⟨x, hx, hxp⟩ := List.mem_map.mp hmem
    exact hfresh x hx hxp

/-- The node of one of the allocations. -/
theorem Mirrors.split {pre post : List Alloc} {x : Alloc}
    (h : Mirrors mype s (pre ++ x :: post) addrs) :
    ∃ apre a apost, addrs = apre ++ a :: apost ∧ apre.map s.entry = pre.map some ∧
      s.entry a = some x ∧ apost.map s.entry = post.map some := by
  have hentries := h.entries
  rw [List.map_append, List.map_cons] at hentries
  obtain ⟨apre, rest, rfl, hpre, hrest⟩ := List.map_eq_append_iff.mp hentries
  obtain ⟨a, apost, rfl, ha, hpost⟩ := List.map_eq_cons_iff.mp hrest
  exact ⟨apre, a, apost, rfl, hpre, ha, hpost⟩

/-- The loop of `mfind`, by induction on the nodes before the one looked for. -/
theorem mfindLoop_eq {ptr a : Nat} {x : Alloc} {apost : List Nat} (hx : s.entry a = some x)
    (hptr : x.ptrs mype = ptr) (apre : List Nat) : ∀ {fuel p n : Nat},
    Chain s.link n (apre ++ a :: apost) →
    (∀ b ∈ apre, ∃ y, s.entry b = some y ∧ y.ptrs mype ≠ ptr) → apre.length < fuel →
    mfindLoop mype s ptr fuel p n = .ok (a, apre.getLastD p) := by
  induction apre with
  | nil =>
    intro fuel p n hchain _ hfuel
    obtain ⟨fuel, rfl⟩ := Nat.exists_eq_succ_of_ne_zero (Nat.ne_of_gt hfuel)
    have hn : n = a := hchain.head
    subst hn
    obtain ⟨next, hnode⟩ := node_of_entry hx
    rw [mfindLoop, if_pos hchain.ne_zero, hnode]
    exact if_pos hptr
  | cons b apre ih =>
    intro fuel p n hchain hpre hfuel
    obtain ⟨fuel, rfl⟩ := Nat.exists_eq_succ_of_ne_zero (Nat.ne_of_gt (Nat.zero_lt_of_lt hfuel))
    have hn : n = b := hchain.head
    subst hn
    rw [List.forall_mem_cons] at hpre
    obtain ⟨⟨y, hy, hne⟩, hpre⟩ := hpre
    obtain ⟨next, hnode⟩ := node_of_entry hy
    rw [mfindLoop, if_pos hchain.ne_zero, hnode, List.getLastD_cons]
    refine (if_neg hne).trans (ih ?_ hpre (by simpa using hfuel))
    rw [next_eq hchain hnode]
    exact hchain.tail.2

/-- **`mfind`** gives the node and its predecessor.  The allocations are split at the one looked
    for; if there are none in front of it the node is the head, and `*prev` is 0. -/
theorem Mirrors.mfind {pre post : List Alloc} {x : Alloc} {apre apost : List Nat} {a : Nat}
    (h : Mirrors mype s (pre ++ x :: post) (apre ++ a :: apost))
    (hpre : apre.map s.entry = pre.map some) (hx : s.entry a = some x) :
    Returns (mfind mype s (x.ptrs mype)) (a, apre.getLastD 0) := by
  have hne : ∀ b ∈ apre, ∃ y, s.entry b = some y ∧ y.ptrs mype ≠ x.ptrs mype := by
    intro b hb
    obtain ⟨y, hy, hyb⟩ := exists_alloc hpre hb
    refine ⟨y, hyb, ?_⟩
    intro heq
    have hlocals := h.locals
    rw [List.map_append, List.nodup_append] at hlocals
    exact hlocals.2.2 _ (List.mem_map_of_mem hy) _
      (List.mem_map_of_mem List.mem_cons_self) heq
  refine ⟨apre.length, ?_⟩
  intro fuel hfuel
  unfold Armci.mfind
  -- the first node is tested before the loop
  cases apre with
  | nil =>
    have hfirst : s.mFirst = a := h.chain.head
    obtain ⟨next, hnode⟩ := node_of_entry hx
    rw [hfirst, if_pos h.chain.ne_zero, hnode]
    exact if_neg (not_not.mpr rfl)
  | cons b apre =>
    have hfirst : s.mFirst = b := h.chain.head
    rw [List.forall_mem_cons] at hne
    obtain ⟨⟨y, hy, hyne⟩, hne⟩ := hne
    obtain ⟨next, hnode⟩ := node_of_entry hy
    have hchain := h.chain
    rw [List.cons_append] at hchain
    have hrest := hchain.tail.2
    rw [← next_eq hchain hnode] at hrest
    rw [hfirst, if_pos hchain.ne_zero, hnode, List.getLastD_cons]
    exact (if_pos hyne).trans (mfindLoop_eq hx rfl apre hrest hne hfuel)

/-- `munlink` takes a node out of the list. -/
theorem munlink_eq {x : Alloc} {apre apost : List Nat} {a : Nat}
    (h : Chain s.link s.mFirst (apre ++ a :: apost)) (hx : s.entry a = some x)
    (hpre : ∀ b ∈ apre, ∃ y, s.entry b = some y) :
    ∃ s', munlink s a (apre.getLastD 0) = some s' ∧ Chain s'.link s'.mFirst (apre ++ apost) ∧
      s'.entry = s.entry := by
  obtain ⟨next, hnode⟩ := node_of_entry hx
  have ha := h.suffix
  have hnext := next_eq ha hnode
  unfold munlink
  rw [if_pos ha.ne_zero, hnode]
  rcases List.eq_nil_or_concat apre with rfl | ⟨apre, b, rfl⟩
  · -- the first node: `m_first` moves on
    refine ⟨{ s with mFirst := next }, rfl, ?_, rfl⟩
    rw [hnext]
    exact ha.tail.2
  · -- any other: the one before it is linked to the one after it
    rw [List.concat_eq_append] at h hpre ⊢
    rw [List.append_assoc, List.singleton_append] at h
    have hb : b ≠ 0 := h.suffix.ne_zero
    obtain ⟨y, hy⟩ := hpre b (by simp)
    obtain ⟨s', hs', hfirst, hentry, hlink'⟩ := setNext_eq (c := next) hy
    refine ⟨s', ?_, ?_, hentry⟩
    · rw [List.getLastD_concat, Option.bind_some, if_pos hb]
      exact hs'
    · rw [hfirst, hlink', hnext, List.append_assoc, List.singleton_append]
      exact h.skip

/-- **`armci_free`** removes the node of an allocation, and leaves the others as they are: by
    `mfind` the node that is skipped is the one, whether it is the head or behind another. -/
theorem Mirrors.free {pre post : List Alloc} {x : Alloc} {apre apost : List Nat} {a : Nat}
    (h : Mirrors mype s (pre ++ x :: post) (apre ++ a :: apost))
    (hpre : apre.map s.entry = pre.map some) (hx : s.entry a = some x)
    (hpost : apost.map s.entry = post.map some) :
    ∃ s', Returns (armciFree mype s (x.ptrs mype)) s' ∧
      Mirrors mype s' (pre ++ post) (apre ++ apost) := by
  obtain ⟨bound, hfind⟩ := h.mfind hpre hx
  have hentry : ∀ b ∈ apre, ∃ y, s.entry b = some y := by
    intro b hb
    obtain ⟨y, -, hy⟩ := exists_alloc hpre hb
    exact ⟨y, hy⟩
  obtain ⟨s', hs', hchain, hentries⟩ := munlink_eq h.chain hx hentry
  refine ⟨s', ⟨bound, ?_⟩, hchain, ?_, ?_⟩
  · intro fuel hfuel
    simp only [armciFree, hfind fuel hfuel, if_pos h.chain.suffix.ne_zero, hs']
  · rw [hentries, List.map_append, List.map_append, hpre, hpost]
  · refine h.locals.sublist (List.Sublist.map _ ?_)
    exact (List.sublist_cons_self x post).append_left pre

/-- **`remote_ptr`** gives the address the same `ARMCI_Malloc` gave for the other process. -/
theorem Mirrors.remotePtr {pre post : List Alloc} {x : Alloc} {apre apost : List Nat} {a : Nat}
    (h : Mirrors mype s (pre ++ x :: post) (apre ++ a :: apost))
    (hpre : apre.map s.entry = pre.map some) (hx : s.entry a = some x) :
    Returns (remotePtr mype s (x.ptrs mype)) (x.ptrs (1 - mype)) := by
  obtain ⟨bound, hfind⟩ := h.mfind hpre hx
  obtain ⟨next, hnode⟩ := node_of_entry hx
  refine ⟨bound, ?_⟩
  intro fuel hfuel
  simp only [Armci.remotePtr, hfind fuel hfuel, if_pos h.chain.suffix.ne_zero, hnode]

end mirrors

/-! ## Every run -/

/-- The list mirrors the allocations, after any calls. -/
theorem reachable_mirrors {mype : Fin 2} {s : Registry} {live : List Alloc}
    (h : Reachable mype s live) : ∃ addrs, Mirrors mype s live addrs := by
  induction h with
  | start => exact ⟨[], .nil, rfl, List.nodup_nil⟩
  | malloc _ hnode hfresh hrun ih =>
    obtain ⟨addrs, h⟩ := ih
    exact ⟨_, h.malloc hnode hfresh hrun⟩
  | free _ hrun ih =>
    obtain ⟨addrs, h⟩ := ih
    obtain ⟨apre, a, apost, rfl, hpre, hx, hpost⟩ := h.split
    obtain ⟨s', hrun', h'⟩ := h.free hpre hx hpost
    rw [hrun.unique hrun']
    exact ⟨_, h'⟩

/-- **The registry mirrors the live allocations.**  After any calls the list at `m_first` ends,
    reaches no node twice and has one node for each live allocation, newest first; a further
    `armci_malloc` returns the local address of what it registers.  For each of the allocations
    `mfind` returns its node and the one before it (0 for the first), `remote_ptr` the address on
    the other process, and `armci_free` leaves the nodes of the others, in their order and with
    what they register. -/
theorem registry_mirrors {mype : Fin 2} {s : Registry} {live : List Alloc}
    (h : Reachable mype s live) :
    (∀ node ptrs nbytes, node ≠ 0 → s.node node = none →
      (∀ x ∈ live, x.ptrs mype ≠ ptrs mype) → ∃ s',
        armciMalloc mype s node ptrs nbytes = .ok (ptrs mype, s') ∧
          Reachable mype s' (⟨ptrs, nbytes⟩ :: live)) ∧
    ∃ addrs, Chain s.link s.mFirst addrs ∧ addrs.Nodup ∧ addrs.map s.entry = live.map some ∧
      ∀ pre x post, live = pre ++ x :: post → ∃ apre a apost, addrs = apre ++ a :: apost ∧
        s.entry a = some x ∧
        Returns (mfind mype s (x.ptrs mype)) (a, apre.getLastD 0) ∧
        Returns (remotePtr mype s (x.ptrs mype)) (x.ptrs (1 - mype)) ∧
        ∃ s', Returns (armciFree mype s (x.ptrs mype)) s' ∧
          Chain s'.link s'.mFirst (apre ++ apost) ∧
          (apre ++ apost).map s'.entry = (pre ++ post).map some := by
  refine ⟨?_, ?_⟩
  · intro node ptrs nbytes hne hnode hfresh
    obtain ⟨s', hrun, -⟩ := armciMalloc_eq mype s ptrs nbytes hne
    exact ⟨s', hrun, .malloc h hnode hfresh hrun⟩
  obtain ⟨addrs, hm⟩ := reachable_mirrors h
  refine ⟨addrs, hm.chain, hm.chain.nodup, hm.entries, ?_⟩
  rintro pre x post rfl
  obtain ⟨apre, a, apost, rfl, hpre, hx, hpost⟩ := hm.split
  obtain ⟨s', hrun, hm'⟩ := hm.free hpre hx hpost
  exact ⟨apre, a, apost, rfl, hx, hm.mfind hpre hx, hm.remotePtr hpre hx, s', hrun, hm'.chain,
    hm'.entries⟩

/-- Two allocations, of which the first one is freed: the remote address of the second one is
    found. -/
theorem registry_mirrors_two : ∃ s s' s'' : Registry,
    armciMalloc 0 .empty 5 ![100, 101] 4 = .ok (100, s) ∧
      armciMalloc 0 s 6 ![200, 201] 8 = .ok (200, s') ∧ Returns (armciFree 0 s' 100) s'' ∧
      Returns (remotePtr 0 s'' 200) 201 := by
  have h := @Reachable.malloc 0 .empty _ [] 5 ![100, 101] 4 _ .start rfl (by simp) rfl
  have h' := @Reachable.malloc 0 _ _ _ 6 ![200, 201] 8 _ h rfl (by simp) rfl
  obtain ⟨-, addrs, -, -, -, hall⟩ := registry_mirrors h'
  obtain ⟨apre, a, apost, -, -, -, -, s'', hfree, -⟩ := hall [⟨![200, 201], 8⟩] _ [] rfl
  have h'' := @Reachable.free 0 _ s'' [⟨![200, 201], 8⟩] ⟨![100, 101], 4⟩ [] h' hfree
  obtain ⟨-, addrs', -, -, -, hall'⟩ := registry_mirrors h''
  obtain ⟨apre', a', apost', -, -, -, hremote, -⟩ := hall' [] _ [] rfl
  exact ⟨_, _, s'', rfl, rfl, hfree, hremote⟩

end NetPipe.Armci
