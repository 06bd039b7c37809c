/-
  What the generic buffer functions of `netpipe.c` do in cached mode, where `run_iters` makes the
  send buffer the receive buffer.

  The counterpart of `NetPipe.Buffers`, lemma by lemma.  `Single h n b` is the state they speak of:
  one live block of `n` bytes with contents `b`, and every pointer of the argument structure points
  to its start.  So what a process receives is what it sends next, and a message that has been
  bounced once is the other side's first fill for good.

  `InitBufferData` leaves the pattern of 'a' in it, the last byte being 0 (`cachedFill`).  That byte
  is written at index `n - 1`: a message of no bytes has none, which is why all of this asks for a
  byte at least.
-/
import NetPipe.Buffers

namespace NetPipe

open Memory Process

variable {Op : Type} {Res : Op → Type} {Prot S : Type}

/-- The one buffer is in place, `n` bytes with contents `b`.  The send pointer is the receive
    pointer: a store at the one is seen through the other. -/
structure Single (h : Netpipe Prot) (n : Nat) (b : List UInt8) : Prop where
  bufflen : h.args.bufflen = n
  length : b.length = n
  block : ∃ i, h.heap.block i = some b ∧
    h.args.rBuff = .addr i 0 ∧ h.args.rPtr = .addr i 0 ∧ h.args.rBuffOrig = .addr i 0 ∧
    h.args.sBuff = .addr i 0 ∧ h.args.sPtr = .addr i 0 ∧ h.args.sBuffOrig = .addr i 0

/-- What `InitBufferData` leaves: the pattern of 'a', the last byte being 0. -/
def cachedFill (o : ByteOrder) (n : Nat) : List UInt8 :=
  (pattern o 97 n).take (n - 1) ++ [0]

theorem cachedFill_length (o : ByteOrder) {n : Nat} (hn : 0 < n) : (cachedFill o n).length = n := by
  rw [cachedFill, List.length_append, List.length_take, pattern_length, List.length_singleton]
  omega

/-- What the send pointer points to, which is what the receive pointer points to. -/
theorem Single.load_sPtr {h : Netpipe Prot} {n : Nat} {b : List UInt8} (hh : Single h n b) :
    h.heap.load h.args.sPtr h.args.bufflen.toNat = some b := by
  obtain ⟨i, hi, -, -, -, -, hs, -⟩ := hh.block
  have hlen := hh.length
  rw [hs, hh.bufflen, Int.toNat_natCast, Heap.load_addr hi (by omega), List.drop_zero,
    List.take_of_length_le (by omega)]

theorem Single.sPtr_eq {h : Netpipe Prot} {n : Nat} {b : List UInt8} (hh : Single h n b) :
    h.args.sPtr = h.args.rPtr := by
  obtain ⟨i, -, -, hr, -, -, hs, -⟩ := hh.block
  rw [hr, hs]

/-- What the receive pointer points to. -/
theorem Single.load_rPtr {h : Netpipe Prot} {n : Nat} {b : List UInt8} (hh : Single h n b) :
    h.heap.load h.args.rPtr h.args.bufflen.toNat = some b := by
  have hload := hh.load_sPtr
  rwa [hh.sPtr_eq] at hload

/-- A store inside the buffer replaces the bytes it covers. -/
theorem Single.store_rPtr {h : Netpipe Prot} {n : Nat} {pre bs mid post : List UInt8}
    (hh : Single h n (pre ++ (mid ++ post))) (hlen : bs.length = mid.length) :
    ∃ heap, h.heap.store (h.args.rPtr.add pre.length) bs = some heap ∧
      Single { h with heap } n (pre ++ (bs ++ post)) := by
  obtain ⟨i, hi, hrb, hrp, hrest⟩ := hh.block
  have hb := hh.length
  have hstore := Heap.store_addr hi rfl hlen
  rw [hrp, Ptr.add, Nat.zero_add]
  refine ⟨_, hstore, hh.bufflen, ?_, i, Function.update_self .., hrb, hrp, hrest⟩
  rw [← hb]
  simp only [List.length_append, hlen]

/-! ## Specifications -/

section specs

variable {H : Handler Op Res Event S} {Q : Netpipe Prot → S → Prop} {st : S} {h : Netpipe Prot}
  {n : Nat} {b : List UInt8}

/-- `allocRun` in cached mode: one buffer, with arbitrary contents. -/
theorem wp_allocRun_cached {M : Module Op Res Prot} (hM : M.Generic) (hH : Sane H)
    (hcache : h.args.cache = true) {size nrepeat : UInt32}
    (hQ : H.emit (.mark (.params size (bytesOf size) nrepeat)) st fun st =>
      H.emit (.mark .myMalloc) st fun st => ∀ h' b, h'.settings = h.settings →
        Single h' (nbytes size) b → Q h' st) :
    wp H (allocRun M h size nrepeat) Q st := by
  have hlen := toSizeT_length (nbytes_lt size)
  unfold allocRun
  refine H.emit_mono (fun st hst => ?_) hQ
  simp only [Proc.bind_eq, Proc.bind, hM.myMalloc, myMalloc, toInt32_bytesOf]
  intro m hm
  cases m with
  | none => exact hH.alloc_fail hm _ _ _
  | some b =>
    have hb : b.length = nbytes size := (hH.alloc_length hm).trans hlen
    simp only [Heap.alloc, hcache, if_true]
    refine H.emit_mono (fun st hst => ?_) hst
    refine hst _ b ?_ ⟨rfl, hb, h.heap.next, ?_⟩
    · simp [Netpipe.settings, hcache]
    · simp

variable (Op Res) in
/-- `InitBufferData` in cached mode. -/
theorem initBufferData_cached (hh : Single h n b) (hpos : 0 < n) (hn : n < 2 ^ 31)
    (hcache : h.args.cache = true) :
    ∃ h', (initBufferData h n 0 0 : Proc Op Res Event _) = .ret h' ∧ h'.settings = h.settings ∧
      Single h' n (cachedFill h.order n) := by
  obtain ⟨i, hi, hrb, hrp, hro, hsb, hsp, hso⟩ := hh.block
  have hset := lfsrset_eq h.order 97 (Nat.le_of_eq hh.length.symm)
  rw [List.drop_eq_nil_of_le (Nat.le_of_eq hh.length), List.append_nil] at hset
  have hmod : h.heap.modify (.addr i 0) (lfsrset h.order · 97 n) = some (_, _) :=
    Heap.modify_addr hi hset
  -- the last byte of the pattern, split off
  have hsplit : pattern h.order 97 n = (pattern h.order 97 n).take (n - 1) ++
      ((pattern h.order 97 n).drop (n - 1) ++ []) := by
    rw [List.append_nil, List.take_append_drop]
  have hlast : (Heap.mk h.heap.next (Function.update h.heap.block i
      (some (pattern h.order 97 n)))).block i = some ((pattern h.order 97 n).take (n - 1) ++
        ((pattern h.order 97 n).drop (n - 1) ++ [])) :=
    (Function.update_self ..).trans (congrArg some hsplit)
  have hlen₁ : n - 1 = ((pattern h.order 97 n).take (n - 1)).length := by
    rw [List.length_take, pattern_length, Nat.min_eq_left (Nat.sub_le n 1)]
  have hlen₂ : [(0 : UInt8)].length = ((pattern h.order 97 n).drop (n - 1)).length := by
    rw [List.length_drop, pattern_length, List.length_singleton]
    omega
  have hstore := Heap.store_addr hlast hlen₁ hlen₂
  rw [List.append_nil] at hstore
  unfold initBufferData
  rw [toSizeT_length hn]
  simp only [hrb, hmod, Proc.ofOption, Proc.bind_eq, Proc.bind, hcache, if_true,
    if_neg hpos.ne', Ptr.add, Nat.zero_add, hstore]
  refine ⟨_, rfl, by simp [Netpipe.settings, hcache],
    ⟨hh.bufflen, cachedFill_length h.order hpos, i, Function.update_self .., ?_⟩⟩
  exact ⟨hrb, hrp, hro, hsb, hsp, hso⟩

variable (Op Res) in
/-- `CheckBufferData` in cached mode. -/
theorem checkBufferData_cached (hh : Single h n b) (hn : n < 2 ^ 31) {ms : List Mismatch}
    {d : UInt32} (hms : lfsrcheck h.order b 98 n = some (ms, d)) :
    ∃ h', (checkBufferData h n 0 0 : Proc Op Res Event _) = (report ms).bind (fun _ => .ret h') ∧
      h'.settings = h.settings ∧ Single h' n b := by
  obtain ⟨i, hi, hr, hrest⟩ := hh.block
  unfold checkBufferData
  rw [toSizeT_length hn]
  simp only [hr, Heap.view_addr hi, hms, Proc.ofOption, Proc.bind_eq, Proc.bind]
  exact ⟨_, rfl, rfl, hh.bufflen, hh.length, i, hi, hr, hrest⟩

variable (Op Res) in
/-- `FreeBuff` on the one buffer. -/
theorem freeBuff_cached (hh : Single h n b) :
    ∃ h', (freeBuff h h.args.sBuffOrig .null : Proc Op Res Event _) = .ret h' ∧
      h'.settings = h.settings := by
  obtain ⟨i, hi, -, -, -, -, -, hs⟩ := hh.block
  unfold freeBuff
  simp only [hs, Heap.free, hi, Proc.ofOption, Proc.bind_eq, Proc.bind]
  exact ⟨_, rfl, rfl⟩

variable {M : Module Op Res Prot}

/-- `run_iters` up to `Sync` in cached mode, for a message of at least one byte. -/
theorem wp_runBody_cached (hM : M.Generic) (hH : Sane H) (hcache : h.args.cache = true)
    {size nrepeat : UInt32} (hsize : size ≠ 0) {Q : PyResult × Netpipe Prot → S → Prop}
    (hQ : H.emit (.mark (.params size (bytesOf size) nrepeat)) st fun st =>
      H.emit (.mark .myMalloc) st fun st =>
      H.emit (.mark .initBufferData) st fun st =>
      H.emit (.mark .afterAlignmentInit) st fun st => ∀ h', h'.settings = h.settings →
        Single h' (nbytes size) (cachedFill h.order (nbytes size)) →
        wp H (syncRun M h') (fun h' st => wp H (measureRun M h' size nrepeat) Q st) st) :
    wp H (runBody M h size nrepeat) Q st := by
  refine wp_bind (wp_allocRun_cached hM hH hcache (H.emit_mono (fun st hst => ?_) hQ))
  refine H.emit_mono (fun st hst h' b hset hh => ?_) hst
  have hcache' : h'.args.cache = true := (congrArg Settings.cache hset).trans hcache
  have horder : h'.order = h.order := congrArg Settings.order hset
  obtain ⟨i, -, -, -, hr, -, -, hs⟩ := hh.block
  rw [if_neg (by simp [hr, hs])]
  apply wp_bind
  unfold initRun
  obtain ⟨h'', hinit, hset', hh'⟩ :=
    initBufferData_cached Op Res hh (nbytes_pos hsize) (nbytes_lt size) hcache'
  rw [hM.initBufferData, hM.afterAlignmentInit, hh.bufflen, hinit]
  refine H.emit_mono (fun st hst => ?_) hst
  refine H.emit_mono (fun st hst => ?_) hst
  rw [horder] at hh'
  have := wp_bind (hst h'' (hset'.trans hset) hh')
  exact this

/-- The end of `run_iters` in cached mode: the one buffer is checked and given back. -/
theorem wp_closeRun_cached (hM : M.Generic) (hcache : h.args.cache = true) (hh : Single h n b)
    (hn : n < 2 ^ 31) {size nrepeat : UInt32} {t0 : Nat} {ms : List Mismatch} {d : UInt32}
    (hms : lfsrcheck h.order b 98 n = some (ms, d)) {Q : PyResult × Netpipe Prot → S → Prop}
    (hQ : H.emit (.mark .timedLoopEnd) st fun st =>
      wp H (report ms) (fun _ st => H.emit (.mark .returned) st fun st =>
        ∀ h' t, h'.settings = h.settings →
          Q (.tuple (toInt32 size) (toInt32 nrepeat) t, h') st) st) :
    wp H (closeRun M h size nrepeat t0) Q st := by
  refine H.emit_mono (fun st hst t => ?_) hQ
  obtain ⟨h', hcheck, hset, hh'⟩ := checkBufferData_cached Op Res hh hn hms
  obtain ⟨h'', hfree, hset'⟩ := freeBuff_cached Op Res hh'
  have hcache' : h'.args.cache = true := (congrArg Settings.cache hset).trans hcache
  rw [hM.checkBufferData, hM.freeBuff, hh.bufflen, hcheck]
  refine wp_bind (wp_bind (wp_mono (fun _ st hst => ?_) hst))
  simp only [wp, hcache', if_true, hfree]
  exact H.emit_mono (fun st hst => hst _ _ (hset'.trans hset)) hst

end specs

end NetPipe
