/-
  `netpipe.c` and `netpipe.h`: the state `run_iters` works on, the generic buffer functions, and
  `run_iters` itself.

  `netpipe.c` is compiled once per communication module and calls the module by name; here the
  module is a structure of functions (`Module`) over its own operations, and the buffer functions
  that are generic across the point-to-point modules stand on their own.

  1. `ArgStruct` and `Netpipe` — the two structures, with what the modelled code uses of them.
  2. `initBufferData` … `freeBuff` — the generic buffer functions.  Every access goes through the
     heap of `Lib.Memory`, which answers nothing outside a live block; a program that goes on
     from such an access is a `fault`.
  3. `netpipeRunIters` — `netpipe_run_iters`, cut into the stretches that the proofs about it
     take one by one: `runWith` (the header), `allocRun`, `initRun`, `syncRun`, `timedLoop` and
     `closeRun`.

  Beside what the source prints, `netpipeRunIters` emits a `Mark` at those points of a run that
  the theorems about whole sessions read off a log (the source has `ns_timestamp` comments at some
  of them).  A mark changes nothing.  `advance` makes a position out of `returned` and `iterated`,
  and the bytes of a TCP session are stamped with it; what the two sides agreed on and what
  arrived, `Tcp.session_intact` reads off `params`, `sending` and `received`; that both sides are
  ready when the clock starts, `Tcp.session_synchronised` reads off `timedLoop`, `timedLoopEnd`
  and the marks before them.
-/
import NetPipe.Lib.Process
import NetPipe.Lfsr

namespace NetPipe

open Memory Process

/-! ## C integers -/

/-- 32-bit signed arithmetic, wrapping around. -/
def wrap32 (i : Int) : Int := i.bmod (2 ^ 32)

/-- Conversion of an `int` to `size_t`. -/
def toSizeT (i : Int) : Nat := (i % 2 ^ 64).toNat

/-- Conversion of a `uint32_t` to `int`. -/
def toInt32 (w : UInt32) : Int := w.toBitVec.toInt

theorem wrap32_eq {i : Int} (h₀ : 0 ≤ i) (h : i < 2 ^ 31) : wrap32 i = i := by
  unfold wrap32
  rw [Int.bmod_eq_of_le] <;> omega

theorem toSizeT_eq {i : Int} (h₀ : 0 ≤ i) (h : i < 2 ^ 31) : toSizeT i = i.toNat := by
  unfold toSizeT
  rw [Int.emod_eq_of_lt h₀ (by omega)]

theorem toNat_toUint32 {i : Int} (h₀ : 0 ≤ i) (h : i < 2 ^ 32) :
    (toUint32 i).toNat = i.toNat := by
  rw [toUint32, UInt32.ofInt, Int.emod_eq_of_lt h₀ (by exact_mod_cast h), UInt32.toNat_ofNat',
    Nat.mod_eq_of_lt (by omega)]

theorem toInt32_toUint32 {i : Int} (h₀ : -2 ^ 31 ≤ i) (h : i < 2 ^ 31) :
    toInt32 (toUint32 i) = i := by
  have hlt : (i % 2 ^ 32).toNat < 2 ^ 32 := by omega
  rw [toInt32, BitVec.toInt_eq_toNat_bmod, UInt32.toNat_toBitVec, toUint32, UInt32.ofInt,
    UInt32.toNat_ofNat', Nat.mod_eq_of_lt hlt, Int.toNat_of_nonneg (by omega), Int.bmod]
  omega

/-! ## Data -/

/-- `struct argstruct`: the fields the modelled code uses.  `prot` is the protocol structure of
    the module. -/
structure ArgStruct (Prot : Type) where
  /-- Cache flag, false: limit cache, true: use cache. -/
  cache : Bool
  rBuff : Ptr
  rBuffOrig : Ptr
  rPtr : Ptr
  sBuff : Ptr
  sBuffOrig : Ptr
  sPtr : Ptr
  /-- Length of transmitted buffer. -/
  bufflen : Int
  /-- Transmit and Recv flags, or maybe neither. -/
  tr : Bool
  rcv : Bool
  sourceNode : Int
  syncflag : Bool
  prot : Prot

/-- The `Netpipe` object, with the memory of its process: the heap, the global `lfsr_data` and
    the byte order of the host. -/
structure Netpipe (Prot : Type) where
  args : ArgStruct Prot
  asyncReceive : Bool
  heap : Heap
  lfsrData : UInt32
  order : ByteOrder

/-- What `netpipe_object` leaves before `Init`: everything zero, and `tr` set where a host was
    given to connect to. -/
def netpipeObject {Prot : Type} (order : ByteOrder) (prot : Prot) (host : Option String) :
    Netpipe Prot where
  args :=
    { cache := false, rBuff := .null, rBuffOrig := .null, rPtr := .null, sBuff := .null,
      sBuffOrig := .null, sPtr := .null, bufflen := 0, tr := host.isSome, rcv := false,
      sourceNode := 0, syncflag := false, prot }
  asyncReceive := false
  heap := .empty
  lfsrData := 0
  order

/-- Points of `run_iters`: where the log of a session is cut, and what it has to say there. -/
inductive Mark where
  /-- The `DEBUG` line: size, bytes and repeat count are known. -/
  | params (size bytes nrepeat : UInt32)
  | myMalloc
  | initBufferData
  | afterAlignmentInit
  | prepareToReceive
  /-- `t0 = When()` is done. -/
  | timedLoop
  /-- `SendData` is about to be called with these bytes at `s_ptr`. -/
  | sending (buf : List UInt8)
  /-- `RecvData` has returned and these bytes are at `r_ptr`. -/
  | received (buf : List UInt8)
  /-- One iteration of the timed loop is over. -/
  | iterated
  | timedLoopEnd
  /-- `run_iters` returns. -/
  | returned
  deriving DecidableEq, Repr

/-- What a process shows. -/
inductive Event where
  | mark (m : Mark)
  | printf (msg : String)
  | mismatch (m : Mismatch)
  deriving DecidableEq, Repr

/-- The reports among what a process shows. -/
def mismatchOf : Event → Option Mismatch
  | .mismatch m => some m
  | _ => none

/-- Where a process is: the number of calls of `run_iters` behind it, and the number of
    iterations of the timed loop done in the current one. -/
structure Pos where
  run : Nat
  iter : Nat
  deriving DecidableEq, Repr

/-- How events move the position. -/
def advance : Event → Pos → Pos
  | .mark .returned, p => ⟨p.run + 1, 0⟩
  | .mark .iterated, p => ⟨p.run, p.iter + 1⟩
  | _, p => p

/-- What `run_iters` hands back to Python. -/
inductive PyResult where
  /-- `NULL`, with an exception set. -/
  | null
  /-- `None`, which the drivers test for.  No branch of `run_iters` gives it: the one that is
      meant to, for a size of 0, gives `null`. -/
  | none
  /-- `(size, nrepeat, t1, t1 / nrepeat)`, the time in microseconds. -/
  | tuple (size nrepeat t1 : Int)
  deriving DecidableEq, Repr

/-- The `i` format: a Python integer as a C `int`, refused with `OverflowError` out of range. -/
def intArg (i : Int) : Option UInt32 :=
  if -2 ^ 31 ≤ i ∧ i < 2 ^ 31 then some (toUint32 i) else none

/-- `PyArg_ParseTuple(pyargs, "ii", &size, &nrepeat)` on a tuple of Python integers. -/
def pyArgParseTuple : List Int → Option (UInt32 × UInt32)
  | [a, b] => (intArg a).bind fun size => (intArg b).map fun nrepeat => (size, nrepeat)
  | _ => none

/-! ## The generic buffer functions -/

section functions

variable {Op : Type} {Res : Op → Type} {Prot : Type}

/-- The rest of the process after the mark. -/
def mark (m : Mark) : Proc Op Res Event Unit := .emit (.mark m) (.ret ())

/-- `MyMalloc(p, bufflen, soffset, roffset)`. -/
def myMalloc (h : Netpipe Prot) (bufflen soffset roffset : Int) :
    Proc Op Res Event (Netpipe Prot) :=
  .malloc (toSizeT (wrap32 (bufflen + max soffset roffset))) fun
    | none => .exit (-1) "couldn't allocate memory for receive buffer\n"
    | some bs =>
      let (rBuff, heap) := h.heap.alloc bs
      let h := { h with heap, args.rBuff := rBuff }
      if h.args.cache then .ret h
      else .malloc (toSizeT (wrap32 (bufflen + soffset))) fun
        | none => .exit (-1) "couldn't allocate memory for send buffer\n"
        | some bs =>
          let (sBuff, heap) := h.heap.alloc bs
          .ret { h with heap, args.sBuff := sBuff }

/-- `InitBufferData(p, nbytes, soffset, roffset)`; 97 and 98 are 'a' and 'b'. -/
def initBufferData (h : Netpipe Prot) (nbytes soffset roffset : Int) :
    Proc Op Res Event (Netpipe Prot) := do
  let n := toSizeT (wrap32 (nbytes + max soffset roffset))
  let (heap, lfsrData) ← Proc.ofOption (h.heap.modify h.args.rBuff (lfsrset h.order · 97 n))
  let h := { h with heap, lfsrData }
  if h.args.cache then do
    -- the last byte of the buffer; with no byte in it the index is -1
    let heap ← Proc.ofOption
      (if n = 0 then none else h.heap.store (h.args.rBuff.add (n - 1)) [0])
    .ret { h with heap }
  else do
    let (heap, lfsrData) ← Proc.ofOption (h.heap.modify h.args.sBuff (lfsrset h.order · 98 n))
    .ret { h with heap, lfsrData }

/-- Reports, one after the other. -/
def report : List Mismatch → Proc Op Res Event Unit
  | [] => .ret ()
  | m :: ms => .emit (.mismatch m) (report ms)

/-- `CheckBufferData(p, nbytes, soffset, roffset)`. -/
def checkBufferData (h : Netpipe Prot) (nbytes soffset roffset : Int) :
    Proc Op Res Event (Netpipe Prot) := do
  let n := toSizeT (wrap32 (nbytes + max soffset roffset))
  let (mismatches, lfsrData) ← Proc.ofOption (h.heap.view h.args.rBuff (lfsrcheck h.order · 98 n))
  report mismatches
  .ret { h with lfsrData }

/-- `FreeBuff(buff1, buff2)`. -/
def freeBuff (h : Netpipe Prot) (buff1 buff2 : Ptr) : Proc Op Res Event (Netpipe Prot) := do
  let heap ← Proc.ofOption (h.heap.free buff1)
  let heap ← Proc.ofOption (heap.free buff2)
  .ret { h with heap }

/-! ## `run_iters` -/

/-- The functions a module defines, over its operations `Op`.  `SendRepeat` and `RecvRepeat` are
    given and give the value; the buffer functions take `nbytes`, `soffset`, `roffset`. -/
structure Module (Op : Type) (Res : Op → Type) (Prot : Type) where
  sendRepeat : Netpipe Prot → UInt32 → Proc Op Res Event (Netpipe Prot)
  recvRepeat : Netpipe Prot → Proc Op Res Event (UInt32 × Netpipe Prot)
  myMalloc : Netpipe Prot → Int → Int → Int → Proc Op Res Event (Netpipe Prot)
  initBufferData : Netpipe Prot → Int → Int → Int → Proc Op Res Event (Netpipe Prot)
  afterAlignmentInit : Netpipe Prot → Proc Op Res Event (Netpipe Prot)
  prepareToReceive : Netpipe Prot → Proc Op Res Event (Netpipe Prot)
  sync : Netpipe Prot → Proc Op Res Event (Netpipe Prot)
  sendData : Netpipe Prot → Proc Op Res Event (Netpipe Prot)
  recvData : Netpipe Prot → Proc Op Res Event (Netpipe Prot)
  checkBufferData : Netpipe Prot → Int → Int → Int → Proc Op Res Event (Netpipe Prot)
  freeBuff : Netpipe Prot → Ptr → Ptr → Proc Op Res Event (Netpipe Prot)

variable (M : Module Op Res Prot)

/-- `SendData`, between its marks. -/
def sendMarked (h : Netpipe Prot) : Proc Op Res Event (Netpipe Prot) := do
  mark (.sending ((h.heap.load h.args.sPtr h.args.bufflen.toNat).getD []))
  M.sendData h

/-- `RecvData`, between its marks. -/
def recvMarked (h : Netpipe Prot) : Proc Op Res Event (Netpipe Prot) := do
  let h ← M.recvData h
  mark (.received ((h.heap.load h.args.rPtr h.args.bufflen.toNat).getD []))
  .ret h

/-- The timed loop, `n` iterations still to go. -/
def timedLoop : (n : Nat) → Netpipe Prot → Proc Op Res Event (Netpipe Prot)
  | 0, h => .ret h
  | n + 1, h => do
    let h ←
      if h.args.tr then do
        let h ← sendMarked M h
        recvMarked M h
      else do
        let h ← recvMarked M h
        sendMarked M h
    mark .iterated
    timedLoop n h

/-- The buffer length: size is in bits, rounded up to bytes. -/
def bytesOf (size : UInt32) : UInt32 :=
  if size % 8 = 0 then size / 8 else size / 8 + 1

/-- `run_iters`: buffers of the length the size asks for, and the pointers into them. -/
def allocRun (h : Netpipe Prot) (size nrepeat : UInt32) : Proc Op Res Event (Netpipe Prot) := do
  mark (.params size (bytesOf size) nrepeat)
  let h := { h with args.bufflen := toInt32 (bytesOf size) }
  let h ← M.myMalloc h h.args.bufflen 0 0
  mark .myMalloc
  let h := if h.args.cache then { h with args.sBuff := h.args.rBuff } else h
  .ret { h with
    args.rPtr := h.args.rBuff, args.rBuffOrig := h.args.rBuff,
    args.sPtr := h.args.sBuff, args.sBuffOrig := h.args.sBuff }

/-- `run_iters`: the buffers filled, and `AfterAlignmentInit`. -/
def initRun (h : Netpipe Prot) : Proc Op Res Event (Netpipe Prot) := do
  let h ← M.initBufferData h h.args.bufflen 0 0
  mark .initBufferData
  let h ← M.afterAlignmentInit h
  mark .afterAlignmentInit
  .ret h

/-- `run_iters`: a receive posted ahead, where that is asked for, and `Sync`. -/
def syncRun (h : Netpipe Prot) : Proc Op Res Event (Netpipe Prot) := do
  let h ← if h.asyncReceive then do
      let h ← M.prepareToReceive h
      mark .prepareToReceive
      .ret h
    else .ret h
  M.sync h

/-- `run_iters` from the end of the timed loop on; `t0` is when it started. -/
def closeRun (h : Netpipe Prot) (size nrepeat : UInt32) (t0 : Nat) :
    Proc Op Res Event (PyResult × Netpipe Prot) := do
  mark .timedLoopEnd
  .clock fun t => do
    let h ← M.checkBufferData h h.args.bufflen 0 0
    let h ← if h.args.cache then M.freeBuff h h.args.sBuffOrig .null
      else M.freeBuff h h.args.sBuffOrig h.args.rBuffOrig
    mark .returned
    .ret (.tuple (toInt32 size) (toInt32 nrepeat) (t - t0), h)

/-- `run_iters` from the first reading of the clock on. -/
def measureRun (h : Netpipe Prot) (size nrepeat : UInt32) :
    Proc Op Res Event (PyResult × Netpipe Prot) :=
  .clock fun t0 => do
    mark .timedLoop
    let h ← timedLoop M nrepeat.toNat h
    closeRun M h size nrepeat t0

/-- `run_iters` once both sides know size and repeat count. -/
def runBody (h : Netpipe Prot) (size nrepeat : UInt32) :
    Proc Op Res Event (PyResult × Netpipe Prot) := do
  let h ← allocRun M h size nrepeat
  if h.args.rBuffOrig = .null ∨ h.args.sBuffOrig = .null then do
    -- couldn't allocate memory
    mark .returned
    .ret (.null, h)
  else do
    let h ← initRun M h
    let h ← syncRun M h
    measureRun M h size nrepeat

/-- `run_iters` once its own size and repeat count are known. -/
def runWith (h : Netpipe Prot) (size nrepeat : UInt32) :
    Proc Op Res Event (PyResult × Netpipe Prot) := do
  let h ← if h.args.tr then do
      let h ← M.sendRepeat h size
      M.sendRepeat h nrepeat
    else .ret h
  runBody M h size nrepeat

/-- `netpipe_run_iters(self, pyargs)`. -/
def netpipeRunIters (h : Netpipe Prot) (pyargs : List Int) :
    Proc Op Res Event (PyResult × Netpipe Prot) :=
  match pyArgParseTuple pyargs with
  | some (size, nrepeat) => runWith M h size nrepeat
  | none =>
    if h.args.rcv then do
      let (size, h) ← M.recvRepeat h
      let (nrepeat, h) ← M.recvRepeat h
      if size = 0 then do
        -- signal to exit: `Py_BuildValue("None")` reads its argument as four format units; `N`
        -- wants an object that is not there, and `o` is no unit, so it ends with an exception
        mark .returned
        .ret (.null, h)
      else runWith M h size nrepeat
    else do
      -- bail out
      mark .returned
      .ret (.null, h)

/-- One process calling `run_iters` with each of the argument tuples in turn. -/
def session : Netpipe Prot → List (List Int) → Proc Op Res Event (List PyResult)
  | _, [] => .ret []
  | h, pyargs :: rest => do
    let (r, h) ← netpipeRunIters M h pyargs
    let rs ← session h rest
    .ret (r :: rs)

end functions

end NetPipe
