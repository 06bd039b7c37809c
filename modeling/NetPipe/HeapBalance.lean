/-
  The memory of a process that calls `run_iters` any number of times, whatever the other side does.

  1. `Owns` — inside a call: the buffers are live blocks the process had not before the call, all
     other blocks are as they were before it.  It holds in both cache modes; with `cache` set the
     two buffers are one.  This is the invariant of the module: `MyMalloc` establishes it, every
     function in between keeps it, and what `FreeBuff` makes of it is the heap before the call.

  2. `Careful` — what is asked of a module: it sends from the send buffer, receives into the
     receive buffer, and leaves the rest of the memory alone.

  3. `balanced_runIters` — one call with a careful module makes no access outside a live block,
     frees nothing twice, and when it returns the heap is the one before the call.  The size may
     come from the other side, so nothing is known of it but that it is a `uint32_t`; the
     load-bearing fact is that `bytes` is below `2 ^ 29` for each of them (`nbytes_lt`), so the
     conversions to `int` and `size_t` between the buffer functions lose nothing.

  4. `balanced_calls` — so do any number of calls, by induction on them.

  Undefined behaviour is `fault`, which the handler `Env.strict` never accepts.  Two things are
  left out of the picture by hypotheses, both about a size of 0: in cached mode there is no last
  byte to set (`Sized`), and sent to a call without arguments it is the exit signal, which ends in
  `Py_BuildValue("None")` (`Unsignalled`).
-/
import Mathlib.Data.List.Forall2
import NetPipe.Cached

namespace NetPipe

open Memory Process

variable {Op : Type} {Res : Op → Type} {Prot S : Type}

/-! ## Heaps -/

/-- Blocks not yet allocated are not live. -/
def Tidy (heap : Heap) : Prop := ∀ b, heap.next ≤ b → heap.block b = none

theorem tidy_empty : Tidy .empty := fun _ _ => rfl

theorem Tidy.alloc {heap : Heap} (h : Tidy heap) (bs : List UInt8) : Tidy (heap.alloc bs).2 := by
  intro b hb
  have hb' : heap.next + 1 ≤ b := hb
  show Function.update heap.block heap.next (some bs) b = none
  rw [Function.update_of_ne (by omega)]
  exact h b (by omega)

/-- A block that is live may be given other contents. -/
theorem Tidy.write {heap : Heap} (h : Tidy heap) {i : Nat} {bs : List UInt8}
    (hi : heap.block i = some bs) (bs' : List UInt8) :
    Tidy ⟨heap.next, Function.update heap.block i (some bs')⟩ := by
  intro b hb
  have hne : b ≠ i := by
    rintro rfl
    cases hi.symm.trans (h b hb)
  exact (Function.update_of_ne hne _ _).trans (h b hb)

theorem Tidy.free {heap : Heap} (h : Tidy heap) (i : Nat) :
    Tidy ⟨heap.next, Function.update heap.block i none⟩ := by
  intro b hb
  show Function.update heap.block i none b = none
  by_cases hbi : b = i
  · rw [hbi, Function.update_self]
  · rw [Function.update_of_ne hbi]
    exact h b hb

/-! ## The buffers of a call -/

/-- The process owns its two buffers, of `n` bytes with contents `r` and `s`, and nothing else
    beside `base`. -/
structure Owns (base heap : Heap) (args : ArgStruct Prot) (n : Nat) (r s : List UInt8) : Prop where
  bufflen : args.bufflen = n
  length_r : r.length = n
  length_s : s.length = n
  tidy : Tidy heap
  blocks : ∃ i j, heap.block i = some r ∧ heap.block j = some s ∧ (args.cache = true ↔ i = j) ∧
    base.block i = none ∧ base.block j = none ∧
    (∀ b, b ≠ i → b ≠ j → heap.block b = base.block b) ∧
    args.rBuff = .addr i 0 ∧ args.rPtr = .addr i 0 ∧ args.rBuffOrig = .addr i 0 ∧
    args.sBuff = .addr j 0 ∧ args.sPtr = .addr j 0 ∧ args.sBuffOrig = .addr j 0

section owns

variable {base heap : Heap} {args : ArgStruct Prot} {n : Nat} {r s : List UInt8}

/-- The receive buffer rewritten by `f`. -/
theorem Owns.modify_r {β : Type} (hh : Owns base heap args n r s)
    {f : List UInt8 → Option (List UInt8 × β)} {r' : List UInt8} {x : β}
    (hf : f r = some (r', x)) (hlen : r'.length = n) :
    ∃ heap' s', heap.modify args.rBuff f = some (heap', x) ∧ Owns base heap' args n r' s' := by
  obtain ⟨i, j, hi, hj, hij, hbi, hbj, hrest, hptrs⟩ := hh.blocks
  have hmod := Heap.modify_addr hi hf
  rw [hptrs.1]
  by_cases heq : i = j
  · -- one buffer: the send buffer is rewritten with it
    subst heq
    refine ⟨_, r', hmod, hh.bufflen, hlen, hlen, hh.tidy.write hi r', i, i, ?_, ?_, hij, hbi, hbj,
      ?_, hptrs⟩
    · exact Function.update_self ..
    · exact Function.update_self ..
    · intro b hb _
      exact (Function.update_of_ne hb _ _).trans (hrest b hb hb)
  · refine ⟨_, s, hmod, hh.bufflen, hlen, hh.length_s, hh.tidy.write hi r', i, j, ?_, ?_, hij, hbi,
      hbj, ?_, hptrs⟩
    · exact Function.update_self ..
    · exact (Function.update_of_ne (Ne.symm heq) _ _).trans hj
    · intro b hb hb'
      exact (Function.update_of_ne hb _ _).trans (hrest b hb hb')

/-- The send buffer rewritten by `f`. -/
theorem Owns.modify_s {β : Type} (hh : Owns base heap args n r s)
    {f : List UInt8 → Option (List UInt8 × β)} {s' : List UInt8} {x : β}
    (hf : f s = some (s', x)) (hlen : s'.length = n) :
    ∃ heap' r', heap.modify args.sBuff f = some (heap', x) ∧ Owns base heap' args n r' s' := by
  obtain ⟨i, j, hi, hj, hij, hbi, hbj, hrest, hrb, hrp, hro, hsb, hsp, hso⟩ := hh.blocks
  -- the same with the two buffers exchanged
  have hswap : Owns base heap { args with
      rBuff := args.sBuff, rPtr := args.sPtr, rBuffOrig := args.sBuffOrig,
      sBuff := args.rBuff, sPtr := args.rPtr, sBuffOrig := args.rBuffOrig } n s r :=
    ⟨hh.bufflen, hh.length_s, hh.length_r, hh.tidy, j, i, hj, hi, hij.trans eq_comm, hbj, hbi,
      fun b hb hb' => hrest b hb' hb, hsb, hsp, hso, hrb, hrp, hro⟩
  obtain ⟨heap', r', hmod, hh'⟩ := hswap.modify_r hf hlen
  obtain ⟨j', i', hj', hi', hij', hbj', hbi', hrest', hptrs⟩ := hh'.blocks
  obtain ⟨hsb', hsp', hso', hrb', hrp', hro'⟩ := hptrs
  exact ⟨heap', r', hmod, hh.bufflen, hh'.length_s, hh'.length_r, hh'.tidy, i', j', hi', hj',
    hij'.trans eq_comm, hbi', hbj', fun b hb hb' => hrest' b hb' hb, hrb', hrp', hro', hsb', hsp',
    hso'⟩

/-- A store inside the receive buffer replaces the bytes it covers. -/
theorem Owns.store_r (bs : List UInt8) {pre mid post : List UInt8}
    (hh : Owns base heap args n (pre ++ (mid ++ post)) s) (hlen : bs.length = mid.length) :
    ∃ heap' s', heap.store (args.rBuff.add pre.length) bs = some heap' ∧
      Owns base heap' args n (pre ++ (bs ++ post)) s' := by
  obtain ⟨i, j, hi, -, -, -, -, -, hrb, -⟩ := hh.blocks
  have hr := hh.length_r
  have hstore := Heap.store_addr hi rfl hlen
  obtain ⟨heap', s', hmod, hh'⟩ := hh.modify_r (f := fun _ => some (pre ++ (bs ++ post), ())) rfl
    (by rw [← hr]; simp only [List.length_append, hlen])
  rw [hrb, Heap.modify_addr hi rfl] at hmod
  obtain ⟨rfl, -⟩ := Prod.mk.inj (Option.some.inj hmod)
  rw [hrb, Ptr.add, Nat.zero_add]
  exact ⟨_, s', hstore, hh'⟩

/-- The receive pointer points to the receive buffer. -/
theorem Owns.rPtr_eq (hh : Owns base heap args n r s) : args.rPtr = args.rBuff := by
  obtain ⟨i, j, -, -, -, -, -, -, hrb, hrp, -⟩ := hh.blocks
  rw [hrb, hrp]

/-- What the receive pointer points to. -/
theorem Owns.load_rPtr (hh : Owns base heap args n r s) :
    heap.load args.rPtr args.bufflen.toNat = some r := by
  obtain ⟨i, j, hi, -, -, -, -, -, -, hrp, -⟩ := hh.blocks
  have hlen := hh.length_r
  rw [hrp, hh.bufflen, Int.toNat_natCast, Heap.load_addr hi (by omega), List.drop_zero,
    List.take_of_length_le (by omega)]

/-- What the send pointer points to. -/
theorem Owns.send_block (hh : Owns base heap args n r s) :
    ∃ j, heap.block j = some s ∧ args.sPtr = .addr j 0 := by
  obtain ⟨i, j, -, hj, -, -, -, -, -, -, -, -, hsp, -⟩ := hh.blocks
  exact ⟨j, hj, hsp⟩

end owns

/-! ## What is asked of a module -/

/-- Nothing but the protocol structure has changed. -/
def Aside (h h' : Netpipe Prot) : Prop := ∃ prot, h' = { h with args.prot := prot }

theorem Aside.rfl {h : Netpipe Prot} : Aside h h := ⟨h.args.prot, Eq.refl h⟩

/-- A call is inside its timed part, or on the way there: `h` is the process at its start. -/
def Inside (h h' : Netpipe Prot) (n : Nat) : Prop :=
  h'.settings = h.settings ∧ ∃ r s, Owns h.heap h'.heap h'.args n r s

theorem Inside.aside {h h₁ h₂ : Netpipe Prot} {n : Nat} (hin : Inside h h₁ n)
    (haside : Aside h₁ h₂) : Inside h h₂ n := by
  obtain ⟨hset, r, s, hh⟩ := hin
  obtain ⟨prot, rfl⟩ := haside
  exact ⟨hset, r, s, hh.bufflen, hh.length_r, hh.length_s, hh.tidy, hh.blocks⟩

/-- The module leaves the buffers to `netpipe.c` and, with the answers `E` may give, its functions
    keep to them. -/
structure Careful (M : Module Op Res Prot) (E : Env Op Res Event S) : Prop where
  generic : M.Generic
  alloc : ∀ n bs, E.alloc n (some bs) → bs.length = n
  sendRepeat : ∀ h v, E.Safely (M.sendRepeat h v) (Aside h)
  recvRepeat : ∀ h, E.Safely (M.recvRepeat h) fun a => Aside h a.2
  prepareToReceive : ∀ h, E.Safely (M.prepareToReceive h) (Aside h)
  sync : ∀ h, E.Safely (M.sync h) (Aside h)
  sendData : ∀ h h₁ n, Inside h h₁ n → E.Safely (M.sendData h₁) fun h₂ => Inside h h₂ n
  recvData : ∀ h h₁ n, Inside h h₁ n → E.Safely (M.recvData h₁) fun h₂ => Inside h h₂ n

/-- The process after a call is the one before it, as far as its memory goes: every block that was
    live still is, with its contents, and no other one is.  So nothing leaks, however many calls are
    made. -/
structure Balanced (h h' : Netpipe Prot) : Prop where
  settings : h'.settings = h.settings
  block : h'.heap.block = h.heap.block
  tidy : Tidy h'.heap

/-- What a call may hand back: an exception is for arguments a transmitter does not accept, a
    tuple has the arguments that are accepted, and a receiver without them has been sent others. -/
def Answered (h : Netpipe Prot) (pyargs : List Int) : PyResult → Prop
  | .null => pyArgParseTuple pyargs = none ∧ h.args.rcv = false
  | .none => False
  | .tuple size nrepeat _ =>
      match pyArgParseTuple pyargs with
      | some a => size = toInt32 a.1 ∧ nrepeat = toInt32 a.2
      | none => h.args.rcv = true

/-- In cached mode a size of 0 has no last byte to set. -/
def Sized (h : Netpipe Prot) (size : UInt32) : Prop := h.args.cache = true → size ≠ 0

/-- A call that takes its size from the other side is sent one that is not 0. -/
def Sent (M : Module Op Res Prot) (E : Env Op Res Event S) (h : Netpipe Prot) (pyargs : List Int)
    (st : S) : Prop :=
  pyArgParseTuple pyargs = none → h.args.rcv = true →
    ∀ size h₁ st₁, Exec E (M.recvRepeat h) st (.returned (size, h₁)) st₁ → size ≠ 0

/-- Nowhere in these calls does the other side send the exit signal. -/
def Unsignalled (M : Module Op Res Prot) (E : Env Op Res Event S) :
    Netpipe Prot → List (List Int) → S → Prop
  | _, [], _ => True
  | h, pyargs :: rest, st => Sent M E h pyargs st ∧
      ∀ r h₁ st₁, Exec E (netpipeRunIters M h pyargs) st (.returned (r, h₁)) st₁ →
        Unsignalled M E h₁ rest st₁

/-! ## The parts of a call -/

section parts

variable {M : Module Op Res Prot} {E : Env Op Res Event S} {h h₁ : Netpipe Prot} {n : Nat}

theorem safely_mark {m : Mark} : E.Safely (mark m) fun _ => True := .emit (.ret trivial)

/-- **The buffers are made.** -/
theorem safely_allocRun (hM : M.Generic) (halloc : ∀ n bs, E.alloc n (some bs) → bs.length = n)
    (htidy : Tidy h.heap) (size nrepeat : UInt32) :
    E.Safely (allocRun M h size nrepeat) fun h₁ =>
      Inside h h₁ (nbytes size) ∧ h₁.args.rBuffOrig ≠ .null ∧ h₁.args.sBuffOrig ≠ .null := by
  have hlen := toSizeT_length (nbytes_lt size)
  have hfresh := htidy _ (Nat.le_refl _)
  have hfresh' := htidy _ (Nat.le_succ _)
  refine .emit fun st => ?_
  simp only [Proc.bind_eq, Proc.bind, hM.myMalloc, myMalloc, toInt32_bytesOf]
  rintro (_ | r) hr
  · exact trivial
  · have hr' : r.length = nbytes size := (halloc _ _ hr).trans hlen
    cases hcache : h.args.cache with
    | true =>
      -- one buffer
      simp only [Heap.alloc, if_true]
      refine ⟨⟨?_, r, r, rfl, hr', hr', htidy.alloc r, h.heap.next, h.heap.next, ?_⟩, by simp,
        by simp⟩
      · simp [Netpipe.settings, hcache]
      · refine ⟨Function.update_self .., Function.update_self .., by simp, hfresh, hfresh,
          ?_, rfl, rfl, rfl, rfl, rfl, rfl⟩
        intro b hb _
        exact Function.update_of_ne hb _ _
    | false =>
      simp only [Heap.alloc]
      rintro (_ | s) hs
      · exact trivial
      · have hs' : s.length = nbytes size := by
          refine (halloc _ _ hs).trans ?_
          simpa using hlen
        refine ⟨⟨?_, r, s, rfl, hr', hs', (htidy.alloc r).alloc s, h.heap.next,
          h.heap.next + 1, ?_⟩,
          by simp, by simp⟩
        · simp [Netpipe.settings, hcache]
        · refine ⟨?_, Function.update_self .., by simp, hfresh, hfresh', ?_, rfl, rfl, rfl, rfl,
            rfl, rfl⟩
          · exact (Function.update_of_ne (by omega) _ _).trans (Function.update_self ..)
          · intro b hb hb'
            exact (Function.update_of_ne hb' _ _).trans (Function.update_of_ne hb _ _)

/-- `lfsrset` leaves the length alone. -/
theorem lfsrset_length (o : ByteOrder) (c : Int) {n : Nat} {bs : List UInt8}
    (hlen : bs.length = n) :
    ∃ bs' d, lfsrset o bs c n = some (bs', d) ∧ bs'.length = n := by
  refine ⟨_, _, lfsrset_eq o c (Nat.le_of_eq hlen.symm), ?_⟩
  rw [List.length_append, pattern_length, List.length_drop]
  omega

/-- **They are filled**, every store being inside them. -/
theorem safely_initBufferData (hin : Inside h h₁ n) (hn : n < 2 ^ 31)
    (hcached : h₁.args.cache = true → 0 < n) :
    E.Safely (initBufferData h₁ n 0 0) fun h₂ => Inside h h₂ n := by
  obtain ⟨hset, r, s, hh⟩ := hin
  obtain ⟨r₁, d₁, hset₁, hlen₁⟩ := lfsrset_length h₁.order 97 hh.length_r
  obtain ⟨heap₁, s₁, hmod₁, hh₁⟩ := hh.modify_r (f := (lfsrset h₁.order · 97 n)) hset₁ hlen₁
  unfold initBufferData
  rw [toSizeT_length hn]
  simp only [hmod₁, Proc.ofOption, Proc.bind_eq, Proc.bind]
  cases hcache : h₁.args.cache with
  | true =>
    have hpos := hcached hcache
    -- the last byte of the receive buffer, split off
    have hsplit : r₁ = r₁.take (n - 1) ++ (r₁.drop (n - 1) ++ []) := by
      rw [List.append_nil, List.take_append_drop]
    have hpre : (r₁.take (n - 1)).length = n - 1 := by
      rw [List.length_take, hlen₁]
      omega
    rw [hsplit] at hh₁
    obtain ⟨heap₂, s₂, hstore, hh₂⟩ := hh₁.store_r [0] (by
      rw [List.length_drop, hlen₁, List.length_singleton]
      omega)
    rw [hpre] at hstore
    simp only [if_true, if_neg hpos.ne', hstore]
    refine .ret ⟨?_, _, s₂, hh₂⟩
    rw [← hset]
    simp [Netpipe.settings, hcache]
  | false =>
    obtain ⟨s₂, d₂, hset₂, hlen₂⟩ := lfsrset_length h₁.order 98 hh₁.length_s
    obtain ⟨heap₂, r₂, hmod₂, hh₂⟩ := hh₁.modify_s (f := (lfsrset h₁.order · 98 n)) hset₂ hlen₂
    simp only [Bool.false_eq_true, if_false, hmod₂]
    refine .ret ⟨?_, r₂, s₂, hh₂⟩
    rw [← hset]
    simp [Netpipe.settings, hcache]

theorem safely_report (ms : List Mismatch) :
    E.Safely (report ms : Proc Op Res Event Unit) fun _ => True := by
  induction ms with
  | nil => exact .ret trivial
  | cons m ms ih => exact .emit ih

/-- **They are checked**, every load being inside them. -/
theorem safely_checkBufferData (hin : Inside h h₁ n) (hn : n < 2 ^ 31) :
    E.Safely (checkBufferData h₁ n 0 0) fun h₂ => Inside h h₂ n := by
  obtain ⟨hset, r, s, hh⟩ := hin
  obtain ⟨⟨ms, d⟩, hms⟩ := lfsrcheck_total h₁.order 98 (Nat.le_of_eq hh.length_r.symm)
  obtain ⟨i, j, hi, -, -, -, -, -, hrb, -⟩ := hh.blocks
  unfold checkBufferData
  rw [toSizeT_length hn]
  simp only [hrb, Heap.view_addr hi, hms, Proc.ofOption, Proc.bind_eq, Proc.bind]
  exact (safely_report ms).bind fun _ _ => .ret ⟨hset, r, s, hh⟩

/-- **They are given back**: what is left is what was there before.  In cached mode there is one
    block, and it is freed once. -/
theorem safely_freeBuff (hin : Inside h h₁ n) :
    (h₁.args.cache = true → E.Safely (freeBuff h₁ h₁.args.sBuffOrig .null) (Balanced h)) ∧
    (h₁.args.cache = false →
      E.Safely (freeBuff h₁ h₁.args.sBuffOrig h₁.args.rBuffOrig) (Balanced h)) := by
  obtain ⟨hset, r, s, hh⟩ := hin
  obtain ⟨i, j, hi, hj, hij, hbi, hbj, hrest, -, -, hro, -, -, hso⟩ := hh.blocks
  constructor
  · intro hcache
    obtain rfl := hij.mp hcache
    simp only [freeBuff, hso, Heap.free, hj, Proc.ofOption, Proc.bind_eq, Proc.bind]
    refine .ret ⟨hset, funext fun b => ?_, hh.tidy.free i⟩
    show Function.update h₁.heap.block i none b = h.heap.block b
    by_cases hb : b = i
    · rw [hb, Function.update_self, hbi]
    · rw [Function.update_of_ne hb, hrest b hb hb]
  · intro hcache
    have hne : i ≠ j := fun heq => by simp [hij.mpr heq] at hcache
    have hi' : Function.update h₁.heap.block j none i = some r := by
      rw [Function.update_of_ne hne, hi]
    simp only [freeBuff, hso, hro, Heap.free, hj, hi',
      Proc.ofOption, Proc.bind_eq, Proc.bind]
    refine .ret ⟨hset, funext fun b => ?_, (hh.tidy.free j).free i⟩
    show Function.update (Function.update h₁.heap.block j none) i none b = h.heap.block b
    by_cases hb : b = i
    · rw [hb, Function.update_self, hbi]
    · by_cases hb' : b = j
      · rw [hb', Function.update_of_ne (Ne.symm hne), Function.update_self, hbj]
      · rw [Function.update_of_ne hb, Function.update_of_ne hb', hrest b hb hb']

end parts

/-! ## Whole calls -/

section calls

variable {M : Module Op Res Prot} {E : Env Op Res Event S} (hM : Careful M E)
  {h h₁ : Netpipe Prot} {n : Nat}

include hM

theorem safely_sendMarked (hin : Inside h h₁ n) :
    E.Safely (sendMarked M h₁) fun h₂ => Inside h h₂ n :=
  safely_mark.bind fun _ _ => hM.sendData h h₁ n hin

theorem safely_recvMarked (hin : Inside h h₁ n) :
    E.Safely (recvMarked M h₁) fun h₂ => Inside h h₂ n :=
  (hM.recvData h h₁ n hin).bind fun _ hin₂ => safely_mark.bind fun _ _ => .ret hin₂

/-- **The timed loop**, by induction on the iterations to go. -/
theorem safely_timedLoop (k : Nat) : ∀ h₁, Inside h h₁ n →
    E.Safely (timedLoop M k h₁) fun h₂ => Inside h h₂ n := by
  induction k with
  | zero => exact fun h₁ hin => .ret hin
  | succ k ih =>
    intro h₁ hin
    have hrest : ∀ h₂, Inside h h₂ n →
        E.Safely ((mark .iterated).bind fun _ => timedLoop M k h₂) fun h₃ => Inside h h₃ n :=
      fun h₂ hin₂ => safely_mark.bind fun _ _ => ih h₂ hin₂
    rw [timedLoop]
    split
    · refine (safely_sendMarked hM hin).bind fun h₂ hin₂ => ?_
      exact (safely_recvMarked hM hin₂).bind hrest
    · refine (safely_recvMarked hM hin).bind fun h₂ hin₂ => ?_
      exact (safely_sendMarked hM hin₂).bind hrest

theorem safely_syncRun (hin : Inside h h₁ n) :
    E.Safely (syncRun M h₁) fun h₂ => Inside h h₂ n := by
  rw [syncRun]
  have hsync : ∀ h₂, Inside h h₂ n → E.Safely (M.sync h₂) fun h₃ => Inside h h₃ n :=
    fun h₂ hin₂ => (hM.sync h₂).mono fun h₃ => hin₂.aside
  split
  · refine (hM.prepareToReceive h₁).bind fun h₂ haside => safely_mark.bind fun _ _ => ?_
    exact hsync h₂ (hin.aside haside)
  · exact hsync h₁ hin

theorem safely_measureRun (hin : Inside h h₁ n) (hn : n < 2 ^ 31) (size nrepeat : UInt32) :
    E.Safely (measureRun M h₁ size nrepeat) fun a =>
      Balanced h a.2 ∧ ∃ t, a.1 = .tuple (toInt32 size) (toInt32 nrepeat) t := by
  intro st t0
  refine (safely_mark.bind fun _ _ => ?_) st
  refine (safely_timedLoop hM _ h₁ hin).bind fun h₂ hin₂ => safely_mark.bind fun _ _ => ?_
  intro st t
  have ⟨_, r, s, hh⟩ := hin₂
  rw [hM.generic.checkBufferData, hM.generic.freeBuff, hh.bufflen]
  refine (safely_checkBufferData hin₂ hn).bind (fun h₃ hin₃ => ?_) st
  obtain ⟨hone, htwo⟩ := safely_freeBuff hin₃
  show E.Safely (if h₃.args.cache = true then _ else _) _
  split
  · rename_i hcache
    refine (hone hcache).bind fun h₄ hbal => safely_mark.bind fun _ _ => ?_
    exact .ret ⟨hbal, _, rfl⟩
  · rename_i hcache
    refine (htwo (Bool.eq_false_of_not_eq_true hcache)).bind fun h₄ hbal => ?_
    exact safely_mark.bind fun _ _ => .ret ⟨hbal, _, rfl⟩

theorem safely_runBody (htidy : Tidy h.heap) {size : UInt32} (hsized : Sized h size)
    (nrepeat : UInt32) :
    E.Safely (runBody M h size nrepeat) fun a =>
      Balanced h a.2 ∧ ∃ t, a.1 = .tuple (toInt32 size) (toInt32 nrepeat) t := by
  refine (safely_allocRun hM.generic hM.alloc htidy size nrepeat).bind ?_
  rintro h₁ ⟨hin, hr, hs⟩
  have hcached : h₁.args.cache = true → 0 < nbytes size := fun hc =>
    nbytes_pos (hsized ((congrArg Settings.cache hin.1).symm.trans hc))
  -- `MyMalloc` does not return without both buffers
  rw [if_neg (not_or.mpr ⟨hr, hs⟩)]
  have hinit : E.Safely (initRun M h₁) fun h₂ => Inside h h₂ (nbytes size) := by
    have ⟨_, r, s, hh⟩ := hin
    rw [initRun, hM.generic.initBufferData, hM.generic.afterAlignmentInit, hh.bufflen]
    refine (safely_initBufferData hin (nbytes_lt size) hcached).bind fun h₂ hin₂ => ?_
    exact safely_mark.bind fun _ _ => (Env.Safely.ret hin₂).bind fun h₃ hin₃ =>
      safely_mark.bind fun _ _ => .ret hin₃
  refine hinit.bind fun h₂ hin₂ => (safely_syncRun hM hin₂).bind fun h₃ hin₃ => ?_
  exact safely_measureRun hM hin₃ (nbytes_lt size) size nrepeat

theorem safely_runWith (htidy : Tidy h.heap) {size : UInt32} (hsized : Sized h size)
    (nrepeat : UInt32) :
    E.Safely (runWith M h size nrepeat) fun a =>
      Balanced h a.2 ∧ ∃ t, a.1 = .tuple (toInt32 size) (toInt32 nrepeat) t := by
  have hbody : ∀ h₁, Aside h h₁ → E.Safely (runBody M h₁ size nrepeat) fun a =>
      Balanced h a.2 ∧ ∃ t, a.1 = .tuple (toInt32 size) (toInt32 nrepeat) t := by
    rintro h₁ ⟨prot, rfl⟩
    refine (safely_runBody hM (h := { h with args.prot := prot }) htidy hsized nrepeat).mono ?_
    rintro a ⟨hbal, ht⟩
    exact ⟨⟨hbal.settings, hbal.block, hbal.tidy⟩, ht⟩
  rw [runWith]
  split
  · refine (hM.sendRepeat h size).bind ?_
    rintro h₁ ⟨prot, rfl⟩
    refine (hM.sendRepeat _ nrepeat).bind ?_
    rintro h₂ ⟨prot', rfl⟩
    exact hbody _ ⟨prot', rfl⟩
  · exact hbody h .rfl

/-- **One call.**  A call that is refused touches no memory; any other one makes its buffers,
    works inside them whatever the peer does, and gives them back. -/
theorem balanced_runIters (htidy : Tidy h.heap) {pyargs : List Int} {st : S}
    (hsized : ∀ a, pyArgParseTuple pyargs = some a → Sized h a.1) (hsent : Sent M E h pyargs st) :
    wp (E.strict fun _ => True) (netpipeRunIters M h pyargs)
      (fun a _ => Balanced h a.2 ∧ Answered h pyargs a.1) st := by
  rw [netpipeRunIters]
  cases hparse : pyArgParseTuple pyargs with
  | some a =>
    refine wp_mono ?_ (safely_runWith hM htidy (hsized a hparse) a.2 st)
    rintro ⟨_, h'⟩ _ ⟨hbal, t, rfl⟩
    refine ⟨hbal, ?_⟩
    unfold Answered
    rw [hparse]
    exact ⟨rfl, rfl⟩
  | none =>
    have hbal : Balanced h h := ⟨rfl, rfl, htidy⟩
    simp only
    split
    · -- the arguments are what the other side sends, and not the signal
      rename_i hrcv
      refine wp_bind (wp_mono ?_ (wp_exec (hM.recvRepeat h st)))
      rintro ⟨size, h₁⟩ st₁ ⟨⟨prot, rfl⟩, hexec⟩
      have hsize : size ≠ 0 := hsent hparse hrcv _ _ _ hexec
      refine (hM.recvRepeat _).bind ?_ st₁
      rintro ⟨nrepeat, h₂⟩ ⟨prot', rfl⟩
      show E.Safely (if size = 0 then _ else _) _
      rw [if_neg hsize]
      refine (safely_runWith hM (h := { h with args.prot := prot' }) htidy (fun _ => hsize)
        nrepeat).mono ?_
      rintro ⟨_, h'⟩ ⟨hbal', t, rfl⟩
      refine ⟨⟨hbal'.settings, hbal'.block, hbal'.tidy⟩, ?_⟩
      unfold Answered
      rw [hparse]
      exact hrcv
    · rename_i hrcv
      exact (safely_mark.bind fun _ _ =>
        .ret ⟨hbal, hparse, Bool.eq_false_of_not_eq_true hrcv⟩) st

end calls

/-! ## Any number of calls -/

/-- The calls one after the other, and the process they leave. -/
def calls (M : Module Op Res Prot) :
    Netpipe Prot → List (List Int) → Proc Op Res Event (List PyResult × Netpipe Prot)
  | h, [] => .ret ([], h)
  | h, pyargs :: rest => do
    let (r, h) ← netpipeRunIters M h pyargs
    let (rs, h) ← calls M h rest
    .ret (r :: rs, h)

/-- **All calls**: what each of them hands back is what it may, and the heap is what it was. -/
theorem balanced_calls {M : Module Op Res Prot} {E : Env Op Res Event S} (hM : Careful M E)
    (tuples : List (List Int)) : ∀ (h : Netpipe Prot) (st : S), Tidy h.heap →
    (∀ pyargs ∈ tuples, ∀ a, pyArgParseTuple pyargs = some a → Sized h a.1) →
    Unsignalled M E h tuples st →
    wp (E.strict fun _ => True) (calls M h tuples)
      (fun a _ => Balanced h a.2 ∧ List.Forall₂ (Answered h) tuples a.1) st := by
  induction tuples with
  | nil => exact fun h st htidy _ _ => ⟨⟨rfl, rfl, htidy⟩, .nil⟩
  | cons pyargs rest ih =>
    rintro h st htidy hsized ⟨hsent, hrest⟩
    rw [List.forall_mem_cons] at hsized
    refine wp_bind (wp_mono ?_ (wp_exec (balanced_runIters hM htidy hsized.1 hsent)))
    rintro ⟨r, h₁⟩ st₁ ⟨⟨hbal₁, hr⟩, hexec⟩
    -- the settings decide what may be answered, and no call changes them
    have hcache : h₁.args.cache = h.args.cache := congrArg Settings.cache hbal₁.settings
    have hrcv : h₁.args.rcv = h.args.rcv := congrArg Settings.rcv hbal₁.settings
    have hanswered : ∀ pyargs r, Answered h₁ pyargs r → Answered h pyargs r := by
      intro pyargs r ha
      unfold Answered at ha ⊢
      rwa [hrcv] at ha
    refine wp_bind (wp_mono ?_ (ih h₁ st₁ hbal₁.tidy (fun pyargs hmem a ha hc =>
      hsized.2 pyargs hmem a ha (hcache ▸ hc)) (hrest r h₁ st₁ hexec)))
    rintro ⟨rs, h₂⟩ st₂ ⟨hbal₂, hrs⟩
    exact ⟨⟨hbal₂.settings.trans hbal₁.settings, hbal₂.block.trans hbal₁.block, hbal₂.tidy⟩,
      .cons hr (hrs.imp hanswered)⟩

end NetPipe
