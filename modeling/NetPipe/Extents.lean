/-
  What `InitBufferData` writes, and what the generic `MyMalloc` has allocated for it.

  `MyMalloc` gives the receive buffer `bufflen + max(soffset, roffset)` bytes and the send buffer
  `bufflen + soffset`; `InitBufferData` fills both to `nbytes + max(soffset, roffset)`.  The two
  functions take the same arguments and do not agree on what they mean.  `run_iters` passes 0 for
  both offsets, so that it does not show there.

  1. The two functions in a row, in both modes (`allocInit`).  In cached mode the send buffer is the
     receive buffer, and only that one is filled.

  2. What the fill does with blocks of any lengths (`initBufferData_separate`,
     `initBufferData_shared`): it is a store behind the end, and so a fault, or it is not.  The
     receive buffer is always long enough; with two buffers the send buffer decides.

  3. So it stays inside the blocks in cached mode, and otherwise where the receive offset is not
     the larger one (`allocInit_inBounds_iff`).
-/
import NetPipe.Netpipe

namespace NetPipe

open Memory Process

section extents

variable (Op : Type) (Res : Op → Type) {Prot : Type}

/-- `MyMalloc` and then `InitBufferData`; in cached mode the send buffer is the receive buffer. -/
def allocInit (h : Netpipe Prot) (bufflen soffset roffset : Int) :
    Proc Op Res Event (Netpipe Prot) := do
  let h ← myMalloc h bufflen soffset roffset
  let h := if h.args.cache then { h with args.sBuff := h.args.rBuff } else h
  initBufferData h bufflen soffset roffset

/-- Blocks are as long as asked for, or there is none. -/
def heapEnv : Env Op Res Event Unit where
  emit _ s := s
  alloc n r := ∀ bs, r = some bs → bs.length = n
  answer _ _ _ _ := False

/-- Nothing is written outside a block. -/
def InBounds (h : Netpipe Prot) (bufflen soffset roffset : Int) : Prop :=
  ∀ out s, Exec (heapEnv Op Res) (allocInit Op Res h bufflen soffset roffset) () out s →
    out ≠ .faulted

variable {h : Netpipe Prot} {n soffset roffset : Int} {i j : Nat} {r s : List UInt8}

/-- Two buffers: the send buffer decides. -/
theorem initBufferData_separate (hcache : h.args.cache = false) (hij : i ≠ j)
    (hi : h.heap.block i = some r) (hj : h.heap.block j = some s) (hr : h.args.rBuff = .addr i 0)
    (hs : h.args.sBuff = .addr j 0)
    (hfit : toSizeT (wrap32 (n + max soffset roffset)) ≤ r.length) :
    (toSizeT (wrap32 (n + max soffset roffset)) ≤ s.length →
      ∃ h', (initBufferData h n soffset roffset : Proc Op Res Event _) = .ret h') ∧
    (s.length < toSizeT (wrap32 (n + max soffset roffset)) →
      (initBufferData h n soffset roffset : Proc Op Res Event _) = .fault) := by
  generalize hk : toSizeT (wrap32 (n + max soffset roffset)) = k at hfit
  have hmod := Heap.modify_addr (f := (lfsrset h.order · 97 k)) hi (lfsrset_eq h.order 97 hfit)
  have hj' : (Function.update h.heap.block i (some (pattern h.order 97 k ++ r.drop k))) j =
      some s := (Function.update_of_ne hij.symm _ _).trans hj
  unfold initBufferData
  simp only [hk, hr, hmod, Proc.ofOption, Proc.bind_eq, Proc.bind, hcache, hs, Bool.false_eq_true,
    if_false]
  constructor
  · intro hle
    rw [Heap.modify_addr hj' (lfsrset_eq h.order 98 hle)]
    exact ⟨_, rfl⟩
  · intro hlt
    rw [Heap.modify_none hj' (lfsrset_none h.order 98 hlt)]
    rfl

/-- One buffer. -/
theorem initBufferData_shared (hcache : h.args.cache = true) (hi : h.heap.block i = some r)
    (hr : h.args.rBuff = .addr i 0)
    (hfit : toSizeT (wrap32 (n + max soffset roffset)) ≤ r.length)
    (hpos : 0 < toSizeT (wrap32 (n + max soffset roffset))) :
    ∃ h', (initBufferData h n soffset roffset : Proc Op Res Event _) = .ret h' := by
  generalize hk : toSizeT (wrap32 (n + max soffset roffset)) = k at hfit hpos
  have hmod := Heap.modify_addr (f := (lfsrset h.order · 97 k)) hi (lfsrset_eq h.order 97 hfit)
  have hfilled : (Heap.mk h.heap.next (Function.update h.heap.block i
      (some (pattern h.order 97 k ++ r.drop k)))).block i = some _ := Function.update_self ..
  obtain ⟨heap, hstore⟩ : ∃ heap, Heap.store _ (.addr i (k - 1)) [0] = some heap := by
    refine Heap.exists_store hfilled ?_
    rw [List.length_append, pattern_length, List.length_singleton]
    omega
  unfold initBufferData
  simp only [hk, hr, hmod, Proc.ofOption, Proc.bind_eq, Proc.bind, hcache, if_true,
    if_neg hpos.ne', Ptr.add, Nat.zero_add, hstore]
  exact ⟨_, rfl⟩

variable {bufflen : Int}

/-- The bytes asked for. -/
theorem toSizeT_sum {a b : Int} (ha : 0 ≤ a) (hb : 0 ≤ b) (hab : a + b < 2 ^ 31) :
    toSizeT (wrap32 (a + b)) = (a + b).toNat := by
  rw [wrap32_eq (by omega) hab, toSizeT_eq (by omega) hab]

/-- After `MyMalloc`, with two buffers. -/
def separate (h : Netpipe Prot) (r s : List UInt8) : Netpipe Prot :=
  let (rBuff, heap) := h.heap.alloc r
  let (sBuff, heap) := heap.alloc s
  { h with heap, args.rBuff := rBuff, args.sBuff := sBuff }

/-- After `MyMalloc`, with one buffer. -/
def shared (h : Netpipe Prot) (r : List UInt8) : Netpipe Prot :=
  let (rBuff, heap) := h.heap.alloc r
  { h with heap, args.rBuff := rBuff, args.sBuff := rBuff }

theorem allocInit_cache (hcache : h.args.cache = true) :
    allocInit Op Res h bufflen soffset roffset =
      .malloc (toSizeT (wrap32 (bufflen + max soffset roffset))) fun
        | none => .exit (-1) "couldn't allocate memory for receive buffer\n"
        | some r => initBufferData (shared h r) bufflen soffset roffset := by
  obtain ⟨⟨cache, _⟩, _⟩ := h
  obtain rfl : cache = true := hcache
  unfold allocInit myMalloc
  simp only [Proc.bind_eq, Proc.bind]
  refine congrArg (Proc.malloc _) (funext fun m => ?_)
  cases m with
  | none => rfl
  | some r => rfl

theorem allocInit_noCache (hcache : h.args.cache = false) :
    allocInit Op Res h bufflen soffset roffset =
      .malloc (toSizeT (wrap32 (bufflen + max soffset roffset))) fun
        | none => .exit (-1) "couldn't allocate memory for receive buffer\n"
        | some r => .malloc (toSizeT (wrap32 (bufflen + soffset))) fun
          | none => .exit (-1) "couldn't allocate memory for send buffer\n"
          | some s => initBufferData (separate h r s) bufflen soffset roffset := by
  obtain ⟨⟨cache, _⟩, _⟩ := h
  obtain rfl : cache = false := hcache
  unfold allocInit myMalloc
  simp only [Proc.bind_eq, Proc.bind]
  refine congrArg (Proc.malloc _) (funext fun m => ?_)
  cases m with
  | none => rfl
  | some r =>
    refine congrArg (Proc.malloc _) (funext fun m => ?_)
    cases m with
    | none => rfl
    | some s => rfl

/-- What `InitBufferData` does with the two buffers of `MyMalloc`. -/
theorem initBufferData_allocated (hcache : h.args.cache = false)
    (hfit : toSizeT (wrap32 (n + max soffset roffset)) ≤ r.length) :
    (toSizeT (wrap32 (n + max soffset roffset)) ≤ s.length →
      ∃ h', (initBufferData (separate h r s) n soffset roffset : Proc Op Res Event _) =
        .ret h') ∧
    (s.length < toSizeT (wrap32 (n + max soffset roffset)) →
      (initBufferData (separate h r s) n soffset roffset : Proc Op Res Event _) = .fault) := by
  have hne : h.heap.next ≠ h.heap.next + 1 := (Nat.lt_succ_self _).ne
  refine initBufferData_separate Op Res (i := h.heap.next) (j := h.heap.next + 1) hcache hne ?_
    (Function.update_self ..) rfl rfl hfit
  exact (Function.update_of_ne hne _ _).trans (Function.update_self ..)

/-- Where both blocks are there and the send buffer is too short, the fill leaves it. -/
theorem allocInit_faults (hlen : 1 ≤ bufflen) (hs : 0 ≤ soffset) (hr : 0 ≤ roffset)
    (hsum : bufflen + max soffset roffset < 2 ^ 31) (hcache : h.args.cache = false)
    (hlt : soffset < roffset) :
    Exec (heapEnv Op Res) (allocInit Op Res h bufflen soffset roffset) () .faulted () := by
  have hfill := toSizeT_sum (b := max soffset roffset) (by omega : 0 ≤ bufflen) (by omega) hsum
  have hsend := toSizeT_sum (b := soffset) (by omega : 0 ≤ bufflen) hs (by omega)
  rw [allocInit_noCache Op Res hcache]
  refine .malloc (r := some (List.replicate (bufflen + max soffset roffset).toNat 0)) ?_
    (.malloc (r := some (List.replicate (bufflen + soffset).toNat 0)) ?_ ?_)
  · rintro bs hbs
    cases hbs
    rw [hfill, List.length_replicate]
  · rintro bs hbs
    cases hbs
    rw [hsend, List.length_replicate]
  · have hfault := (initBufferData_allocated Op Res (n := bufflen) (h := h)
      (r := List.replicate (bufflen + max soffset roffset).toNat 0)
      (s := List.replicate (bufflen + soffset).toNat 0) hcache
      (by rw [hfill, List.length_replicate])).2
      (by rw [hfill, List.length_replicate]; omega)
    simp only [hfault]
    exact .fault

/-- In cached mode, and where the send buffer is long enough, the fill stays inside. -/
theorem wp_allocInit (hlen : 1 ≤ bufflen) (hs : 0 ≤ soffset)
    (hsum : bufflen + max soffset roffset < 2 ^ 31)
    (hok : h.args.cache = true ∨ roffset ≤ soffset) :
    wp ((heapEnv Op Res).strict fun _ => True) (allocInit Op Res h bufflen soffset roffset)
      (fun _ _ => True) () := by
  have hfill := toSizeT_sum (b := max soffset roffset) (by omega : 0 ≤ bufflen) (by omega) hsum
  cases hcache : h.args.cache with
  | true =>
    rw [allocInit_cache Op Res hcache]
    intro m hm
    cases m with
    | none => trivial
    | some r =>
      obtain ⟨h', hinit⟩ := initBufferData_shared Op Res (h := shared h r) (n := bufflen) hcache
        (Function.update_self ..) rfl (hm r rfl).ge (by rw [hfill]; omega)
      simp only [hinit]
      trivial
  | false =>
    have hle := hok.resolve_left (by rw [hcache]; decide)
    have hmax : max soffset roffset = soffset := by omega
    rw [allocInit_noCache Op Res hcache]
    intro m hm
    cases m with
    | none => trivial
    | some r =>
      intro m hm'
      cases m with
      | none => trivial
      | some s =>
        have hlen_s : toSizeT (wrap32 (bufflen + max soffset roffset)) ≤ s.length := by
          rw [hm' s rfl, hmax]
        obtain ⟨h', hinit⟩ :=
          (initBufferData_allocated Op Res (h := h) hcache (hm r rfl).ge).1 hlen_s
        simp only [hinit]
        trivial

/-- **Buffer initialisation stays inside what was allocated** exactly in cached mode and where the
    receive offset is at most the send offset. -/
theorem allocInit_inBounds_iff (h : Netpipe Prot) (bufflen soffset roffset : Int)
    (hlen : 1 ≤ bufflen) (hs : 0 ≤ soffset) (hr : 0 ≤ roffset)
    (hsum : bufflen + max soffset roffset < 2 ^ 31) :
    InBounds Op Res h bufflen soffset roffset ↔ h.args.cache = true ∨ roffset ≤ soffset := by
  constructor
  · intro hin
    by_contra hno
    rw [not_or, Bool.not_eq_true, not_le] at hno
    exact hin _ _ (allocInit_faults Op Res hlen hs hr hsum hno.1 hno.2) rfl
  · intro hok out st hexec hfault
    subst hfault
    exact hexec.ends (wp_allocInit Op Res hlen hs hsum hok)

end extents

/-- Both buffers have the larger of the two lengths where the offsets are the same. -/
theorem allocInit_inBounds_aligned :
    InBounds Unit (fun _ => Unit) (netpipeObject .little () none) 5 4 4 :=
  (allocInit_inBounds_iff Unit (fun _ => Unit) (netpipeObject .little () none) 5 4 4 (by decide)
    (by decide) (by decide) (by decide)).mpr (Or.inr le_rfl)

/-- One byte, the receive buffer four bytes off: the send buffer has one byte and gets five. -/
theorem not_inBounds_roffset :
    ¬ InBounds Unit (fun _ => Unit) (netpipeObject .little () none) 1 0 4 := by
  intro hin
  exact hin _ _ (allocInit_faults Unit (fun _ => Unit) (by decide) (by decide) (by decide)
    (by decide) rfl (by decide)) rfl

end NetPipe
