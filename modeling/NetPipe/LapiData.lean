/-
  `lapi.c`: the timed loop, with a counter in place of polling the last byte.

  `SendData` puts to the other task's receive buffer and waits until its own buffer has been copied
  out; `RecvData` polls the target counter and takes one off.  `AfterAlignmentInit` has exchanged
  the offsets of the receive buffers before.

  1. The functions, and the program of a task; after each `RecvData` the receive buffer is read,
     which is how one can speak of what it leaves there.

  2. The program is a rally of `Lib.Rally` (`start_eq`): the offsets cancel out, so that every put
     is the whole send buffer to the start of the other one's receive buffer.  The two buffers of a
     task are different blocks, and so the puts are apart (`apart`), which is all a rally asks for.

  3. Every run comes to its end, and what is read each time is the other one's send buffer
     (`bounces_complete`): unlike in the modules that poll, whatever the buffers hold, and in
     whatever order bytes and puts arrive.
-/
import NetPipe.Lib.Rally
import NetPipe.Polling

namespace NetPipe.Lapi

open Memory Counted Polling
open OneSided (other_other)
open scoped OneSided

variable {Prot : Type}

/-! ## The functions -/

abbrev DataCode := List (Instr Ptr UInt8)

/-- `AfterAlignmentInit(p)`: `my_r_buff_offset`, which the other task is sent. -/
def afterAlignmentInit (h : Netpipe Prot) : Int := ptrdiff h.args.rBuff h.args.rBuffOrig

/-- `SendData(p)`, with the address the other task has registered and the offset it has sent. -/
def sendData (h : Netpipe Prot) (globalAddr : Ptr) (nborRBuffOffset : Int) : DataCode :=
  let offset := ptrdiff h.args.sPtr h.args.sBuff
  let dest := (globalAddr.shift nborRBuffOffset).shift offset
  [.put (bytes h.args.sPtr dest h.args.bufflen.toNat), .waitOrigin]

/-- `RecvData(p)`. -/
def recvData : DataCode := [.poll, .waitTarget]

/-- What is in the receive buffer then. -/
def received (h : Netpipe Prot) : DataCode :=
  (List.range h.args.bufflen.toNat).map fun i => .read (h.args.rPtr.add i)

/-- The timed loop, with `k` iterations to go. -/
def bounces (h peer : Netpipe Prot) : (k : Nat) → DataCode
  | 0 => []
  | k + 1 =>
    let send := sendData h peer.args.rBuffOrig (afterAlignmentInit peer)
    (if h.args.tr then send ++ (recvData ++ received h) else (recvData ++ received h) ++ send) ++
      bounces h peer k

/-- Both tasks at the start of it. -/
def dataStart (h : Fin 2 → Netpipe Prot) (k : Nat) : Config Ptr UInt8 :=
  fun x => .start (memory (h x)) (bounces (h x) (h (1 - x)) k)

/-! ## The timed loop is a rally -/

section rally

variable {n : Nat} {h : Fin 2 → Netpipe Prot} {r s : Fin 2 → List UInt8}

/-- The words a task puts. -/
def words (n : Nat) (h : Fin 2 → Netpipe Prot) (x : Fin 2) : List (Ptr × Ptr) :=
  bytes (h x).args.sPtr (h (1 - x)).args.rPtr n

theorem sendData_eq (hh : ∀ x, Armed (h x) n (r x) (s x)) (x : Fin 2) :
    sendData (h x) (h (1 - x)).args.rBuffOrig (afterAlignmentInit (h (1 - x))) =
      [.put (words n h x), .waitOrigin] := by
  obtain ⟨i, j, -, -, -, -, -, -, hsb, hsp, -⟩ := (hh x).blocks
  obtain ⟨i', j', -, -, -, hrb, hrp, hro, -, -, -⟩ := (hh (1 - x)).blocks
  rw [sendData, afterAlignmentInit, words, hsp, hsb, hrb, hrp, hro, (hh x).bufflen, ptrdiff_self,
    ptrdiff_self, Int.toNat_natCast, Ptr.shift_zero, Ptr.shift_zero]

theorem received_eq (hh : ∀ x, Armed (h x) n (r x) (s x)) (x : Fin 2) :
    received (h x) = (Rally.cells (words n h) x).map .read := by
  rw [received, Rally.cells, words, bytes, other_other, (hh x).bufflen, List.map_map, List.map_map]
  rfl

theorem bounces_rally (hh : ∀ x, Armed (h x) n (r x) (s x))
    (htr : (h 0).args.tr = true ∧ (h 1).args.tr = false) (k : Nat) :
    bounces (h 0) (h 1) k = Rally.hold (words n h) 0 (2 * k) ∧
      bounces (h 1) (h 0) k = Rally.wait (words n h) 1 (2 * k) := by
  induction k with
  | zero => exact ⟨rfl, rfl⟩
  | succ k ih =>
    constructor
    · rw [bounces, htr.1, if_pos rfl, ih.1, show h 1 = h (1 - 0) from rfl, sendData_eq hh 0,
        received_eq hh 0]
      simp [recvData, Rally.hold, Rally.wait, Nat.mul_add]
    · rw [bounces, htr.2, if_neg Bool.false_ne_true, ih.2, show h 0 = h (1 - 1) from rfl,
        sendData_eq hh 1, received_eq hh 1]
      simp [recvData, Rally.hold, Rally.wait, Nat.mul_add]

/-- **The timed loop is a rally**, the transmitter having the first turn.  All pointers point to
    the starts of their buffers, so the offsets that are added and taken away come to nothing. -/
theorem dataStart_eq (hh : ∀ x, Armed (h x) n (r x) (s x))
    (htr : (h 0).args.tr = true ∧ (h 1).args.tr = false) (k : Nat) :
    dataStart h k = Rally.start (words n h) (fun x => memory (h x)) k := by
  funext x
  match x with
  | 0 => exact congrArg (Pe.start _) (bounces_rally hh htr k).1
  | 1 => exact congrArg (Pe.start _) (bounces_rally hh htr k).2

/-- The send buffer is no part of the receive buffer, and its bytes go to different places. -/
theorem apart (hh : ∀ x, Armed (h x) n (r x) (s x)) : Rally.Apart (words n h) where
  kept x w hw w' hw' := by
    obtain ⟨i, j, hij, -, -, -, hrp, -, -, hsp, -⟩ := (hh x).blocks
    obtain ⟨a, -, rfl⟩ := List.mem_map.mp hw
    obtain ⟨b, -, rfl⟩ := List.mem_map.mp hw'
    rw [other_other, hsp, hrp, Ptr.add, Ptr.add, Ne, Ptr.addr.injEq]
    exact fun heq => hij heq.1.symm
  once x w hw w' hw' heq := by
    obtain ⟨i, j, -, -, -, -, hrp, -⟩ := (hh (1 - x)).blocks
    obtain ⟨a, -, rfl⟩ := List.mem_map.mp hw
    obtain ⟨b, -, rfl⟩ := List.mem_map.mp hw'
    simp only [hrp, Ptr.add, Ptr.addr.injEq, true_and, Nat.zero_add] at heq
    rw [heq]

/-- What a task puts is its send buffer. -/
theorem content_eq (hh : ∀ x, Armed (h x) n (r x) (s x)) (x : Fin 2) :
    Rally.content (words n h) (fun x => memory (h x)) x = s x := by
  obtain ⟨i, j, -, -, hj, -, -, -, -, hsp, -⟩ := (hh x).blocks
  have hlen := (hh x).length_s
  rw [Rally.content, words, bytes, List.map_map]
  refine List.ext_getElem (by simp [hlen]) fun a ha ha' => ?_
  simp [hsp, Ptr.add, memory, hj, List.getElem?_eq_getElem ha']

end rally

/-- **The timed loop of `lapi.c`**, whatever the buffers hold, in whatever order the bytes are
    stored, and whether or not the network is ordered: every run comes to its end, and after each
    `RecvData` the receive buffer is the other task's send buffer. -/
theorem bounces_complete {n : Nat} {h : Fin 2 → Netpipe Prot} {r s : Fin 2 → List UInt8}
    (hh : ∀ x, Armed (h x) n (r x) (s x))
    (htr : (h 0).args.tr = true ∧ (h 1).args.tr = false) (k : Nat) (ordered : Bool) :
    Completes ordered (dataStart h k) fun c =>
      ∀ x, (c x).got = (List.replicate k (s (1 - x))).flatten := by
  have hcomplete := Rally.completes (apart hh) (fun x => memory (h x)) k ordered
  rw [← dataStart_eq hh htr k] at hcomplete
  simpa only [content_eq hh] using hcomplete

/-- Two bytes each way, twice. -/
theorem bounces_complete_two :
    Completes false (dataStart ![oneSide true [1, 2], oneSide false [3, 4]] 2) fun c =>
      ∀ x, (c x).got = (List.replicate 2 (![([1, 2] : List UInt8), [3, 4]] (1 - x))).flatten :=
  bounces_complete (n := 2) (r := ![[1, 2], [3, 4]])
    (Fin.forall_fin_two.mpr ⟨armed_oneSide true [1, 2], armed_oneSide false [3, 4]⟩)
    ⟨rfl, rfl⟩ 2 false

end NetPipe.Lapi
