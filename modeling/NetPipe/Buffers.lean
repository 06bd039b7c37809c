/-
  What the generic buffer functions of `netpipe.c` do, for a process with separate send and
  receive buffers (`cache` off).

  The specifications hold for every handler under which allocation behaves (`Sane`), so the
  session, end-of-file and counting arguments all use the same ones: each of them walks through
  `run_iters` with a handler of its own, and none of them unfolds a buffer function.

  1. `Armed h n r s` — the state they speak of: both buffers are live blocks of `n` bytes, with
     contents `r` and `s`, and every pointer of the argument structure points to the start of its
     buffer.  It holds from `MyMalloc` to `FreeBuff`.

  2. **Specifications**, one for each function, and from them `wp_runBody` and `wp_closeRun`: what
     `run_iters` does before its `Sync` and behind its loop, in any module that leaves the buffers
     to `netpipe.c` (`Module.Generic`).

  3. **Reports** (`wp_report`): the mismatches of a check are emitted one after the other, whatever
     the handler makes of them.
-/
import NetPipe.Netpipe

namespace NetPipe

open Memory Process

variable {Op : Type} {Res : Op → Type} {Prot S : Type}

/-- Allocation gives blocks of the length asked for, and a program may leave the process where it
    fails.  This is all the buffer functions ask of a handler. -/
structure Sane (H : Handler Op Res Event S) : Prop where
  alloc_length : ∀ {n bs}, H.alloc n (some bs) → bs.length = n
  alloc_fail : ∀ {n}, H.alloc n none → ∀ c msg s, H.exit c msg s

/-- **Reports**, one after the other, for any handler: `st l` is the state once `l` has been
    reported. -/
theorem wp_report {H : Handler Op Res Event S} (st : List Mismatch → S)
    (hst : ∀ l m (P : S → Prop), P (st (l ++ [m])) → H.emit (.mismatch m) (st l) P)
    (ms : List Mismatch) : ∀ {l : List Mismatch} {Q : Unit → S → Prop},
    Q () (st (l ++ ms)) → wp H (report ms) Q (st l) := by
  induction ms with
  | nil =>
    intro l Q hQ
    rwa [List.append_nil] at hQ
  | cons m ms ih =>
    intro l Q hQ
    refine hst l m _ (ih ?_)
    rwa [List.append_assoc, List.singleton_append]

/-- For a handler that takes no note of them. -/
theorem wp_report_const {H : Handler Op Res Event S} {st : S}
    (hst : ∀ m (P : S → Prop), P st → H.emit (.mismatch m) st P) (ms : List Mismatch)
    {Q : Unit → S → Prop} (hQ : Q () st) : wp H (report ms) Q st :=
  wp_report (fun _ => st) (fun _ m P => hst m P) ms (l := []) hQ

/-- The part of the state `run_iters` never changes. -/
structure Settings where
  cache : Bool
  tr : Bool
  rcv : Bool
  asyncReceive : Bool
  order : ByteOrder
  deriving DecidableEq, Repr

def Netpipe.settings (h : Netpipe Prot) : Settings :=
  ⟨h.args.cache, h.args.tr, h.args.rcv, h.asyncReceive, h.order⟩

/-- The two differ in their memory and buffers only. -/
structure Same (h h' : Netpipe Prot) : Prop where
  settings : h'.settings = h.settings
  prot : h'.args.prot = h.args.prot
  sourceNode : h'.args.sourceNode = h.args.sourceNode

theorem Same.rfl {h : Netpipe Prot} : Same h h := ⟨Eq.refl _, Eq.refl _, Eq.refl _⟩

theorem Same.trans {h₁ h₂ h₃ : Netpipe Prot} (h : Same h₁ h₂) (h' : Same h₂ h₃) : Same h₁ h₃ :=
  ⟨h'.settings.trans h.settings, h'.prot.trans h.prot, h'.sourceNode.trans h.sourceNode⟩

/-- Both buffers are in place, `n` bytes each, with contents `r` and `s`.  They are different
    blocks, so what is stored in the one does not change the other; which block has which number
    does not matter. -/
structure Armed (h : Netpipe Prot) (n : Nat) (r s : List UInt8) : Prop where
  bufflen : h.args.bufflen = n
  length_r : r.length = n
  length_s : s.length = n
  blocks : ∃ i j, i ≠ j ∧ h.heap.block i = some r ∧ h.heap.block j = some s ∧
    h.args.rBuff = .addr i 0 ∧ h.args.rPtr = .addr i 0 ∧ h.args.rBuffOrig = .addr i 0 ∧
    h.args.sBuff = .addr j 0 ∧ h.args.sPtr = .addr j 0 ∧ h.args.sBuffOrig = .addr j 0

/-- The module leaves the buffers to `netpipe.c`, and needs nothing done after alignment. -/
structure Module.Generic (M : Module Op Res Prot) : Prop where
  myMalloc : M.myMalloc = NetPipe.myMalloc
  initBufferData : M.initBufferData = NetPipe.initBufferData
  afterAlignmentInit : M.afterAlignmentInit = fun h => .ret h
  checkBufferData : M.checkBufferData = NetPipe.checkBufferData
  freeBuff : M.freeBuff = NetPipe.freeBuff

/-- A transmitter with these two buffers and nothing else. -/
def twoBuffers (order : ByteOrder) (prot : Prot) (r s : List UInt8) : Netpipe Prot :=
  let h := netpipeObject order prot (some "localhost")
  let (rBuff, heap) := h.heap.alloc r
  let (sBuff, heap) := heap.alloc s
  { h with
    heap
    args.bufflen := r.length, args.rBuff := rBuff, args.rBuffOrig := rBuff, args.rPtr := rBuff
    args.sBuff := sBuff, args.sBuffOrig := sBuff, args.sPtr := sBuff }

theorem armed_twoBuffers (order : ByteOrder) (prot : Prot) {r s : List UInt8}
    (h : s.length = r.length) : Armed (twoBuffers order prot r s) r.length r s :=
  ⟨rfl, rfl, h, 0, 1, by decide, rfl, rfl, rfl, rfl, rfl, rfl, rfl, rfl⟩

/-- Either side of a pair, with these bytes in both buffers. -/
def oneSide (tr : Bool) (s : List UInt8) : Netpipe Unit :=
  { twoBuffers .little () s s with args.tr := tr }

theorem armed_oneSide (tr : Bool) (s : List UInt8) : Armed (oneSide tr s) s.length s s :=
  have h : Armed (twoBuffers .little () s s) s.length s s := armed_twoBuffers .little () rfl
  ⟨h.bufflen, h.length_r, h.length_s, h.blocks⟩

/-! ## The buffer length -/

/-- `bufflen` as a number of bytes. -/
def nbytes (size : UInt32) : Nat := (bytesOf size).toNat

theorem nbytes_eq (size : UInt32) : nbytes size = (size.toNat + 7) / 8 := by
  have hsize := size.toNat_lt
  unfold nbytes bytesOf
  split
  · rename_i h
    have h' : size.toNat % 8 = 0 := by
      simpa using congrArg UInt32.toNat h
    simp only [UInt32.toNat_div, UInt32.reduceToNat]
    omega
  · rename_i h
    have h' : size.toNat % 8 ≠ 0 := by
      intro h0
      exact h (UInt32.toNat_inj.mp (by simpa using h0))
    simp only [UInt32.toNat_add, UInt32.toNat_div, UInt32.reduceToNat]
    omega

theorem nbytes_lt (size : UInt32) : nbytes size < 2 ^ 31 := by
  have hsize := size.toNat_lt
  rw [nbytes_eq]
  omega

theorem nbytes_pos {size : UInt32} (h : size ≠ 0) : 0 < nbytes size := by
  have h' : size.toNat ≠ 0 := fun h0 => h (UInt32.toNat_inj.mp (by simpa using h0))
  rw [nbytes_eq]
  omega

theorem toInt32_bytesOf (size : UInt32) : toInt32 (bytesOf size) = nbytes size := by
  have h := nbytes_lt size
  unfold toInt32 nbytes at *
  rw [BitVec.toInt_eq_toNat_of_lt (by simp only [UInt32.toNat_toBitVec]; omega),
    UInt32.toNat_toBitVec]

/-- The length argument of the buffer functions, for the offsets `run_iters` passes. -/
theorem toSizeT_length {n : Nat} (hn : n < 2 ^ 31) :
    toSizeT (wrap32 ((n : Int) + max 0 0)) = n := by
  rw [wrap32_eq (by simp) (by simp; omega), toSizeT_eq (by simp) (by simp; omega)]
  simp

/-- What the send pointer points to. -/
theorem Armed.load_sPtr {h : Netpipe Prot} {n : Nat} {r s : List UInt8} (hh : Armed h n r s) :
    h.heap.load h.args.sPtr h.args.bufflen.toNat = some s := by
  obtain ⟨i, j, -, -, hj, -, -, -, -, hs, -⟩ := hh.blocks
  have hlen := hh.length_s
  rw [hs, hh.bufflen, Int.toNat_natCast, Heap.load_addr hj (by omega), List.drop_zero,
    List.take_of_length_le (by omega)]

/-- What the receive pointer points to. -/
theorem Armed.load_rPtr {h : Netpipe Prot} {n : Nat} {r s : List UInt8} (hh : Armed h n r s) :
    h.heap.load h.args.rPtr h.args.bufflen.toNat = some r := by
  obtain ⟨i, j, -, hi, -, -, hr, -⟩ := hh.blocks
  have hlen := hh.length_r
  rw [hr, hh.bufflen, Int.toNat_natCast, Heap.load_addr hi (by omega), List.drop_zero,
    List.take_of_length_le (by omega)]

/-- `p->r_buff` and `p->r_ptr` are the same here. -/
theorem Armed.rBuff_eq {h : Netpipe Prot} {n : Nat} {r s : List UInt8} (hh : Armed h n r s) :
    h.args.rBuff = h.args.rPtr.add 0 := by
  obtain ⟨i, j, -, -, -, hrb, hrp, -⟩ := hh.blocks
  rw [hrb, hrp]
  rfl

/-- The first bytes of the send buffer. -/
theorem Armed.load_sBuff {h : Netpipe Prot} {n k : Nat} {r s : List UInt8} (hh : Armed h n r s)
    (hk : k ≤ n) : h.heap.load h.args.sBuff k = some (s.take k) := by
  obtain ⟨i, j, -, -, hj, -, -, -, hs, -⟩ := hh.blocks
  have hlen := hh.length_s
  rw [hs, Heap.load_addr hj (by omega), List.drop_zero]

/-- A store inside the receive buffer replaces the bytes it covers. -/
theorem Armed.store_rPtr {h : Netpipe Prot} {n : Nat} {pre bs mid post s : List UInt8}
    (hh : Armed h n (pre ++ (mid ++ post)) s) (hlen : bs.length = mid.length) :
    ∃ heap, h.heap.store (h.args.rPtr.add pre.length) bs = some heap ∧
      Armed { h with heap } n (pre ++ (bs ++ post)) s := by
  obtain ⟨i, j, hij, hi, hj, hrb, hrp, hro, hrest⟩ := hh.blocks
  have hr := hh.length_r
  have hstore := Heap.store_addr hi rfl hlen
  rw [hrp, Ptr.add, Nat.zero_add]
  refine ⟨_, hstore, hh.bufflen, ?_, hh.length_s, i, j, hij, ?_, ?_, hrb, hrp, hro, hrest⟩
  · rw [← hr]
    simp only [List.length_append, hlen]
  · exact Function.update_self ..
  · exact (Function.update_of_ne hij.symm _ _).trans hj

/-! ## Specifications -/

section specs

variable {H : Handler Op Res Event S} {Q : Netpipe Prot → S → Prop} {st : S} {h : Netpipe Prot}
  {n : Nat} {r s : List UInt8}

/-- `allocRun` of a module with the generic `MyMalloc`: after its two marks the buffers are in
    place, with arbitrary contents. -/
theorem wp_allocRun {M : Module Op Res Prot} (hM : M.Generic) (hH : Sane H)
    (hcache : h.args.cache = false) {size nrepeat : UInt32}
    (hQ : H.emit (.mark (.params size (bytesOf size) nrepeat)) st fun st =>
      H.emit (.mark .myMalloc) st fun st => ∀ h' r s, Same h h' →
        Armed h' (nbytes size) r s → Q h' st) :
    wp H (allocRun M h size nrepeat) Q st := by
  have hlen := toSizeT_length (nbytes_lt size)
  unfold allocRun
  refine H.emit_mono (fun st hst => ?_) hQ
  simp only [Proc.bind_eq, Proc.bind, hM.myMalloc, myMalloc, toInt32_bytesOf]
  intro m hm
  cases m with
  | none => exact hH.alloc_fail hm _ _ _
  | some r =>
    have hr : r.length = nbytes size := (hH.alloc_length hm).trans hlen
    simp only [Heap.alloc, hcache]
    intro m hm
    cases m with
    | none => exact hH.alloc_fail hm _ _ _
    | some s =>
      have hs : s.length = nbytes size := by
        refine (hH.alloc_length hm).trans ?_
        simpa using hlen
      refine H.emit_mono (fun st hst => ?_) hst
      refine hst _ r s ⟨?_, rfl, rfl⟩ ⟨rfl, hr, hs, h.heap.next, h.heap.next + 1, by omega, ?_⟩
      · simp [Netpipe.settings, hcache]
      · simp [Function.update_of_ne]

variable (Op Res) in
/-- `InitBufferData`: the receive buffer holds the pattern of 'a', the send buffer that of 'b'. -/
theorem initBufferData_eq (hh : Armed h n r s) (hn : n < 2 ^ 31) (hcache : h.args.cache = false) :
    ∃ h', (initBufferData h n 0 0 : Proc Op Res Event _) = .ret h' ∧ Same h h' ∧
      Armed h' n (pattern h.order 97 n) (pattern h.order 98 n) := by
  obtain ⟨i, j, hij, hi, hj, hr, hr', hr'', hs, hs', hs''⟩ := hh.blocks
  have hset := lfsrset_eq h.order 97 (Nat.le_of_eq hh.length_r.symm)
  have hset' := lfsrset_eq h.order 98 (Nat.le_of_eq hh.length_s.symm)
  rw [List.drop_eq_nil_of_le (Nat.le_of_eq hh.length_r), List.append_nil] at hset
  rw [List.drop_eq_nil_of_le (Nat.le_of_eq hh.length_s), List.append_nil] at hset'
  have hmod : h.heap.modify (.addr i 0) (lfsrset h.order · 97 n) = some (_, _) :=
    Heap.modify_addr hi hset
  have hj' : (Heap.mk h.heap.next
      (Function.update h.heap.block i (some (pattern h.order 97 n)))).block j = some s :=
    (Function.update_of_ne hij.symm _ _).trans hj
  have hmod' := Heap.modify_addr (f := (lfsrset h.order · 98 n)) hj' hset'
  unfold initBufferData
  rw [toSizeT_length hn]
  simp only [hr, hmod, hmod', Proc.ofOption, Proc.bind_eq, Proc.bind, hcache, hs,
    Bool.false_eq_true, if_false]
  refine ⟨_, rfl, ⟨by simp [Netpipe.settings, hcache], rfl, rfl⟩,
    ⟨hh.bufflen, by simp, by simp, i, j, hij, ?_⟩⟩
  simp [Function.update_of_ne hij, hr, hr', hr'', hs, hs', hs'']

variable (Op Res) in
/-- `CheckBufferData` reports the mismatches of the receive buffer with the pattern of 'b'. -/
theorem checkBufferData_eq (hh : Armed h n r s) (hn : n < 2 ^ 31) {ms : List Mismatch}
    {d : UInt32} (hms : lfsrcheck h.order r 98 n = some (ms, d)) :
    ∃ h', (checkBufferData h n 0 0 : Proc Op Res Event _) = (report ms).bind (fun _ => .ret h') ∧
      Same h h' ∧ Armed h' n r s := by
  obtain ⟨i, j, hij, hi, hj, hr, hrest⟩ := hh.blocks
  unfold checkBufferData
  rw [toSizeT_length hn]
  simp only [hr, Heap.view_addr hi, hms, Proc.ofOption, Proc.bind_eq, Proc.bind]
  exact ⟨_, rfl, ⟨rfl, rfl, rfl⟩, hh.bufflen, hh.length_r, hh.length_s, i, j, hij, hi, hj, hr,
    hrest⟩

variable (Op Res) in
/-- `FreeBuff` on the two original buffers. -/
theorem freeBuff_eq (hh : Armed h n r s) :
    ∃ h', (freeBuff h h.args.sBuffOrig h.args.rBuffOrig : Proc Op Res Event _) = .ret h' ∧
      Same h h' := by
  obtain ⟨i, j, hij, hi, hj, -, -, hr, -, -, hs⟩ := hh.blocks
  have hi' : (Function.update h.heap.block j none) i = some r := by
    rw [Function.update_of_ne hij, hi]
  unfold freeBuff
  simp only [hr, hs, Heap.free, hj, hi', Proc.ofOption, Proc.bind_eq, Proc.bind]
  exact ⟨_, rfl, rfl, rfl, rfl⟩

variable {M : Module Op Res Prot}

/-- The part of `run_iters` every such module has in common, up to where the sides meet in
    `Sync`: four marks, and the buffers hold the patterns. -/
theorem wp_runBody (hM : M.Generic) (hH : Sane H) (hcache : h.args.cache = false)
    {size nrepeat : UInt32} {Q : PyResult × Netpipe Prot → S → Prop}
    (hQ : H.emit (.mark (.params size (bytesOf size) nrepeat)) st fun st =>
      H.emit (.mark .myMalloc) st fun st =>
      H.emit (.mark .initBufferData) st fun st =>
      H.emit (.mark .afterAlignmentInit) st fun st => ∀ h', Same h h' →
        Armed h' (nbytes size) (pattern h.order 97 (nbytes size))
          (pattern h.order 98 (nbytes size)) →
        wp H (syncRun M h') (fun h' st => wp H (measureRun M h' size nrepeat) Q st) st) :
    wp H (runBody M h size nrepeat) Q st := by
  refine wp_bind (wp_allocRun hM hH hcache (H.emit_mono (fun st hst => ?_) hQ))
  refine H.emit_mono (fun st hst h' r s hset hh => ?_) hst
  obtain ⟨i, j, -, -, -, -, -, hr, -, -, hs⟩ := hh.blocks
  have hcache' : h'.args.cache = false := (congrArg Settings.cache hset.settings).trans hcache
  have horder : h'.order = h.order := congrArg Settings.order hset.settings
  rw [if_neg (by simp [hr, hs])]
  apply wp_bind
  unfold initRun
  obtain ⟨h'', hinit, hset', hh'⟩ :=
    initBufferData_eq Op Res hh (nbytes_lt size) hcache'
  rw [hM.initBufferData, hM.afterAlignmentInit, hh.bufflen, hinit]
  refine H.emit_mono (fun st hst => ?_) hst
  refine H.emit_mono (fun st hst => ?_) hst
  rw [horder] at hh'
  have := wp_bind (hst h'' (hset.trans hset') hh')
  exact this

/-- The end of `run_iters`: the mismatches are reported, the buffers given back. -/
theorem wp_closeRun (hM : M.Generic) (hcache : h.args.cache = false) (hh : Armed h n r s)
    (hn : n < 2 ^ 31) {size nrepeat : UInt32} {t0 : Nat} {ms : List Mismatch} {d : UInt32}
    (hms : lfsrcheck h.order r 98 n = some (ms, d)) {Q : PyResult × Netpipe Prot → S → Prop}
    (hQ : H.emit (.mark .timedLoopEnd) st fun st =>
      wp H (report ms) (fun _ st => H.emit (.mark .returned) st fun st =>
        ∀ h' t, Same h h' →
          Q (.tuple (toInt32 size) (toInt32 nrepeat) t, h') st) st) :
    wp H (closeRun M h size nrepeat t0) Q st := by
  refine H.emit_mono (fun st hst t => ?_) hQ
  obtain ⟨h', hcheck, hset, hh'⟩ := checkBufferData_eq Op Res hh hn hms
  obtain ⟨h'', hfree, hset'⟩ := freeBuff_eq Op Res hh'
  have hcache' : h'.args.cache = false := (congrArg Settings.cache hset.settings).trans hcache
  rw [hM.checkBufferData, hM.freeBuff, hh.bufflen, hcheck]
  refine wp_bind (wp_bind (wp_mono (fun _ st hst => ?_) hst))
  simp only [wp, hcache', Bool.false_eq_true, if_false, hfree]
  exact H.emit_mono (fun st hst => hst _ _ (hset.trans hset')) hst

end specs

end NetPipe
