/-
  `shmem.c`, `ibv.c` (RDMA write), `mpi2.c` (no fence) and `armci.c`: a message has arrived when
  its last byte has.

  `RecvData` waits until the last byte of the receive buffer is the one the transmitter's buffer is
  expected to end with, and sets it back.  What the buffers hold is for the generic
  `InitBufferData` to say, which used to fill them with the letters that are waited for and now
  fills them with the patterns.

  1. **The program of a PE**: the modules put to the other one's buffer in four ways and poll in
     one (`sendData`, `recvData`, `bounces`).

  2. **The program is a game** of `Lib.Sentinel`, whatever the way (`sendData_eq`, `start_eq`):
     each of the four finds the start of the other one's receive buffer, `shmem.c` by allocating
     the two buffers in the other order on one of the PEs (`Shmem.ready`).

  3. **What the buffers hold** (`Primed`): the patterns, in either mode.  So what a game asks for
     becomes a question about the last byte of a pattern.

  4. **Polling agrees** with the buffers where the pattern of 'b' happens to end with 'b' and that
     of 'a' does not (`Fits`), and never in cached mode, where the last byte is 0
     (`polling_agrees_iff`).
-/
import NetPipe.Cached
import NetPipe.Lib.Sentinel

namespace NetPipe.Polling

open Memory Process OneSided Sentinel

variable {Prot : Type}

/-! ## The programs -/

/-- The modules that poll. -/
inductive Polled where
  | shmem
  | ibv
  | mpi2
  | armci
  deriving DecidableEq, Repr

/-- The `n` bytes from `p` on, to `q`. -/
def bytes (p q : Ptr) (n : Nat) : List (Ptr × Ptr) :=
  (List.range n).map fun i => (p.add i, q.add i)

abbrev Code := List (Instr Ptr UInt8)

/-- `shmem.c`: `shmem_put64` or `shmem_putmem`, to the same address. -/
def Shmem.sendData (h : Netpipe Prot) : Code :=
  if h.args.bufflen % 8 = 0 then
    [.put (bytes h.args.sPtr h.args.sPtr (8 * (h.args.bufflen / 8).toNat))]
  else [.put (bytes h.args.sPtr h.args.sPtr h.args.bufflen.toNat)]

/-- `ibv.c`: to the address the other side has sent. -/
def Ibv.sendData (h : Netpipe Prot) (remoteAddress : Ptr) : Code :=
  [.put (bytes h.args.sPtr (remoteAddress.shift (ptrdiff h.args.sPtr h.args.sBuff))
    h.args.bufflen.toNat)]

/-- `mpi2.c`: to the window of the other side. -/
def Mpi2.sendData (h : Netpipe Prot) (win : Ptr) : Code :=
  let bufOffset := if !h.args.cache then ptrdiff h.args.sPtr h.args.sBuff else 0
  [.put (bytes h.args.sPtr (win.shift bufOffset) h.args.bufflen.toNat)]

/-- `armci.c`: to the address the registry has for the other side. -/
def Armci.sendData (h : Netpipe Prot) (remote : Ptr) (nborRBuffOffset : Int) : Code :=
  let bufOffset := nborRBuffOffset + ptrdiff h.args.sPtr h.args.sBuff
  [.put (bytes h.args.sPtr (remote.shift bufOffset) h.args.bufflen.toNat)]

/-- `SendData(p)`, once `AfterAlignmentInit` has found out about the buffer of `peer`. -/
def sendData (m : Polled) (h peer : Netpipe Prot) : Code :=
  match m with
  | .shmem => Shmem.sendData h
  | .ibv => Ibv.sendData h peer.args.rBuff
  | .mpi2 => Mpi2.sendData h peer.args.rBuff
  | .armci => Armci.sendData h peer.args.rBuffOrig (ptrdiff peer.args.rBuff peer.args.rBuffOrig)

/-- The last byte of the receive buffer. -/
def cell (h : Netpipe Prot) : Ptr := h.args.rPtr.add (h.args.bufflen - 1).toNat

/-- `'a' + (p->cache ? 1 - p->tr : 1)`. -/
def waitChar (h : Netpipe Prot) : UInt8 :=
  97 + if h.args.cache then 1 - (if h.args.tr then 1 else 0) else 1

/-- `'a' + (p->cache ? p->tr : 0)`. -/
def resetChar (h : Netpipe Prot) : UInt8 :=
  97 + if h.args.cache then (if h.args.tr then 1 else 0) else 0

/-- `RecvData(p)`. -/
def recvData (h : Netpipe Prot) : Code :=
  [.await (cell h) (waitChar h), .store (cell h) (resetChar h)]

/-- The timed loop, with `k` iterations to go. -/
def bounces (m : Polled) (h peer : Netpipe Prot) : (k : Nat) → Code
  | 0 => []
  | k + 1 =>
    (if h.args.tr then sendData m h peer ++ recvData h else recvData h ++ sendData m h peer) ++
      bounces m h peer k

/-- The bytes of a heap, as far as there are any. -/
def memory (h : Netpipe Prot) : Ptr → UInt8
  | .null => 0
  | .addr b off => ((h.heap.block b).bind (·[off]?)).getD 0

/-- Both PEs at the start of the timed loop. -/
def start (m : Polled) (h : Fin 2 → Netpipe Prot) (k : Nat) : Config Ptr UInt8 :=
  fun x => .start (memory (h x)) (bounces m (h x) (h (1 - x)) k)

/-- What `MyMalloc` leaves on the two PEs: PE 0 transmits, both have their buffers of `n` bytes, and
    those of `shmem.c` are at the same addresses. -/
structure Ready (m : Polled) (cache : Bool) (n : Nat) (h : Fin 2 → Netpipe Prot) : Prop where
  cached : ∀ x, (h x).args.cache = cache
  tr : (h 0).args.tr = true ∧ (h 1).args.tr = false
  armed : cache = false → ∀ x, ∃ r s, Armed (h x) n r s
  single : cache = true → ∀ x, ∃ b, Single (h x) n b
  symmetric : m = .shmem → ∀ x, (h x).args.sPtr = (h (1 - x)).args.rPtr

/-- The pattern of 'b' ends with 'b', and that of 'a' does not. -/
def Fits (o : ByteOrder) (n : Nat) : Prop :=
  (pattern o 98 n).getLast? = some 98 ∧ (pattern o 97 n).getLast? ≠ some 98

instance (o : ByteOrder) (n : Nat) : Decidable (Fits o n) := inferInstanceAs (Decidable (_ ∧ _))

/-! ## The buffers of `shmem.c` -/

/-- `MyMalloc(p, bufflen, soffset, roffset)` of `shmem.c`. -/
def Shmem.myMalloc {Op : Type} {Res : Op → Type} (h : Netpipe Prot)
    (bufflen soffset roffset : Int) : Proc Op Res Event (Netpipe Prot) :=
  .malloc (toSizeT (wrap32 (bufflen + max soffset roffset))) fun
    | none => .exit (-1) "couldn't allocate memory\n"
    | some bs =>
      let (buff1, heap) := h.heap.alloc bs
      let h := { h with heap }
      if h.args.cache then .ret { h with args.rBuff := buff1 }
      else .malloc (toSizeT (wrap32 (bufflen + soffset))) fun
        | none => .exit (-1) "Couldn't allocate memory\n"
        | some bs =>
          let (buff2, heap) := h.heap.alloc bs
          -- flip-flop, so that what one PE sends is what the other one receives
          .ret { h with
            heap
            args.rBuff := if h.args.tr then buff1 else buff2
            args.sBuff := if h.args.tr then buff2 else buff1 }

section shmem

variable {Op : Type} {Res : Op → Type} {S : Type} {M : Module Op Res Prot} {cache : Bool}

/-- What `run_iters` makes of `h` up to the pointers. -/
structure Shmem.Allocated (h : Netpipe Prot) (n : Nat) (h' : Netpipe Prot) : Prop where
  settings : h'.settings = h.settings
  armed : h.args.cache = false → ∃ r s, Armed h' n r s
  single : h.args.cache = true → ∃ b, Single h' n b
  rPtr : h'.args.rPtr = .addr (h.heap.next + if h.args.cache || h.args.tr then 0 else 1) 0
  sPtr : h'.args.sPtr = .addr (h.heap.next + if h.args.cache || !h.args.tr then 0 else 1) 0

theorem Shmem.wp_allocRun {H : Handler Op Res Event S} {Q : Netpipe Prot → S → Prop} {st : S}
    {h : Netpipe Prot} (hM : M.myMalloc = Shmem.myMalloc) (hH : Sane H) {size nrepeat : UInt32}
    (hQ : H.emit (.mark (.params size (bytesOf size) nrepeat)) st fun st =>
      H.emit (.mark .myMalloc) st fun st => ∀ h', Shmem.Allocated h (nbytes size) h' → Q h' st) :
    wp H (allocRun M h size nrepeat) Q st := by
  have hlen := toSizeT_length (nbytes_lt size)
  unfold allocRun
  refine H.emit_mono (fun st hst => ?_) hQ
  simp only [Proc.bind_eq, Proc.bind, hM, Shmem.myMalloc, toInt32_bytesOf]
  intro a ha
  cases a with
  | none => exact hH.alloc_fail ha _ _ _
  | some bs₁ =>
    have hlen₁ : bs₁.length = nbytes size := (hH.alloc_length ha).trans hlen
    cases hcache : h.args.cache with
    | true =>
      -- one block, which `run_iters` uses for sending too
      simp only [Heap.alloc, if_true]
      refine H.emit_mono (fun st hst => hst _ ⟨?_, ?_, ?_, ?_, ?_⟩) hst
      · simp [Netpipe.settings, hcache]
      · intro hc
        cases hcache.symm.trans hc
      · intro _
        exact ⟨bs₁, rfl, hlen₁, h.heap.next, Function.update_self .., rfl, rfl, rfl, rfl, rfl, rfl⟩
      · simp [hcache]
      · simp [hcache]
    | false =>
      simp only [Heap.alloc, Bool.false_eq_true, if_false]
      intro a ha
      cases a with
      | none => exact hH.alloc_fail ha _ _ _
      | some bs₂ =>
        have hlen₂ : bs₂.length = nbytes size := (hH.alloc_length ha).trans (by simpa using hlen)
        refine H.emit_mono (fun st hst => hst _ ⟨?_, ?_, ?_, ?_, ?_⟩) hst
        · simp [Netpipe.settings, hcache]
        · -- which block is for receiving depends on the role
          intro _
          cases htr : h.args.tr with
          | true =>
            refine ⟨bs₁, bs₂, rfl, hlen₁, hlen₂, h.heap.next, h.heap.next + 1, by omega, ?_⟩
            simp [Function.update_of_ne]
          | false =>
            refine ⟨bs₂, bs₁, rfl, hlen₂, hlen₁, h.heap.next + 1, h.heap.next, by omega, ?_⟩
            simp [Function.update_of_ne]
        · intro hc
          cases hcache.symm.trans hc
        · cases htr : h.args.tr <;> simp [hcache]
        · cases htr : h.args.tr <;> simp [hcache]

/-- **Both PEs have their buffers** at each other's addresses, where they had allocated the same
    before. -/
theorem Shmem.ready {E : Env Op Res Event S} {size nrepeat : UInt32} {h h' : Fin 2 → Netpipe Prot}
    (hM : M.myMalloc = Shmem.myMalloc)
    (halloc : ∀ n bs, E.alloc n (some bs) → bs.length = n)
    (hnext : ∀ x, (h x).heap.next = (h 0).heap.next) (hcache : ∀ x, (h x).args.cache = cache)
    (htr : (h 0).args.tr = true ∧ (h 1).args.tr = false)
    (hrun : ∀ x, ∃ s s', Exec E (allocRun M (h x) size nrepeat) s (.returned (h' x)) s') :
    Ready .shmem cache (nbytes size) h' := by
  have hH : Sane (E.handler True) := ⟨fun {n bs} => halloc n bs, fun _ _ _ _ => trivial⟩
  have hafter : ∀ x, Shmem.Allocated (h x) (nbytes size) (h' x) := by
    intro x
    obtain ⟨s, s', hexec⟩ := hrun x
    refine hexec.returned (Q := fun h' _ => Shmem.Allocated (h x) (nbytes size) h') ?_
    exact Shmem.wp_allocRun hM hH fun h' hh => hh
  refine ⟨?_, ⟨?_, ?_⟩, fun hc x => (hafter x).armed ((hcache x).trans hc),
    fun hc x => (hafter x).single ((hcache x).trans hc), ?_⟩
  · intro x
    exact (congrArg Settings.cache (hafter x).settings).trans (hcache x)
  · exact (congrArg Settings.tr (hafter 0).settings).trans htr.1
  · exact (congrArg Settings.tr (hafter 1).settings).trans htr.2
  · -- the flip-flop: the first block of one PE is the second of the other
    intro _ x
    rw [(hafter x).sPtr, (hafter (1 - x)).rPtr, hnext x, hnext (1 - x), hcache x, hcache (1 - x)]
    match x with
    | 0 => simp [htr]
    | 1 => simp [htr]

end shmem

/-! ## The program is a game -/

section game

variable {m : Polled} {cache : Bool} {n : Nat} {h : Fin 2 → Netpipe Prot}

/-- Every pointer points to the start of its buffer, of `n` bytes.  What is in the buffers does not
    matter for where a put goes. -/
structure Placed (h : Netpipe Prot) (n i j : Nat) : Prop where
  bufflen : h.args.bufflen = n
  rBuff : h.args.rBuff = .addr i 0
  rPtr : h.args.rPtr = .addr i 0
  rBuffOrig : h.args.rBuffOrig = .addr i 0
  sBuff : h.args.sBuff = .addr j 0
  sPtr : h.args.sPtr = .addr j 0

theorem Ready.placed (hh : Ready m cache n h) (x : Fin 2) :
    ∃ i j, Placed (h x) n i j ∧ (i = j ↔ cache = true) := by
  cases cache with
  | false =>
    obtain ⟨r, s, harmed⟩ := hh.armed rfl x
    obtain ⟨i, j, hij, -, -, hrb, hrp, hro, hsb, hsp, -⟩ := harmed.blocks
    exact ⟨i, j, ⟨harmed.bufflen, hrb, hrp, hro, hsb, hsp⟩, by simpa using hij⟩
  | true =>
    obtain ⟨b, hsingle⟩ := hh.single rfl x
    obtain ⟨i, -, hrb, hrp, hro, hsb, hsp, -⟩ := hsingle.block
    exact ⟨i, i, ⟨hsingle.bufflen, hrb, hrp, hro, hsb, hsp⟩, by simp⟩

/-- **The four ways** to put lead to the start of the other one's buffer. -/
theorem sendData_eq (hh : Ready m cache n h) (x : Fin 2) :
    sendData m (h x) (h (1 - x)) = [.put (bytes (h x).args.sPtr (h (1 - x)).args.rPtr n)] := by
  obtain ⟨i, j, hx, -⟩ := hh.placed x
  obtain ⟨i', j', hy, -⟩ := hh.placed (1 - x)
  cases m with
  | shmem =>
    -- whole words are all the bytes where they are used
    have hsize : (if (h x).args.bufflen % 8 = 0 then 8 * ((h x).args.bufflen / 8).toNat
        else (h x).args.bufflen.toNat) = n := by
      have hlen := hx.bufflen
      split <;> omega
    rw [sendData, Shmem.sendData, ← hh.symmetric rfl x]
    split at hsize
    · rw [if_pos ‹_›, hsize]
    · rw [if_neg ‹_›, hsize]
  | ibv =>
    rw [sendData, Ibv.sendData, hx.sPtr, hx.sBuff, hx.bufflen, hy.rBuff, hy.rPtr, ptrdiff_self,
      Ptr.shift_zero]
    rfl
  | mpi2 =>
    have hoff :
        (if !(h x).args.cache then ptrdiff (h x).args.sPtr (h x).args.sBuff else 0) = 0 := by
      rw [hx.sPtr, hx.sBuff, ptrdiff_self, ite_self]
    rw [sendData, Mpi2.sendData, hoff, hx.bufflen, hy.rBuff, hy.rPtr, Ptr.shift_zero]
    rfl
  | armci =>
    rw [sendData, Armci.sendData, hx.sPtr, hx.sBuff, hx.bufflen, hy.rBuff, hy.rBuffOrig, hy.rPtr,
      ptrdiff_self, ptrdiff_self]
    rfl

/-- The game the two PEs play. -/
def game (n : Nat) (h : Fin 2 → Netpipe Prot) : Game Ptr UInt8 where
  words x := bytes (h x).args.sPtr (h (1 - x)).args.rPtr n
  cell x := cell (h x)
  full x := waitChar (h x)
  empty x := resetChar (h x)

theorem bounces_eq (hh : Ready m cache n h) (k : Nat) :
    bounces m (h 0) (h 1) k = (game n h).hold 0 (2 * k) ∧
      bounces m (h 1) (h 0) k = (game n h).wait 1 (2 * k) := by
  have hput₀ : sendData m (h 0) (h 1) = [.put ((game n h).words 0)] := sendData_eq hh 0
  have hput₁ : sendData m (h 1) (h 0) = [.put ((game n h).words 1)] := sendData_eq hh 1
  induction k with
  | zero => exact ⟨rfl, rfl⟩
  | succ k ih =>
    constructor
    · rw [bounces, hh.tr.1, if_pos rfl, ih.1, hput₀]
      rfl
    · rw [bounces, hh.tr.2, if_neg Bool.false_ne_true, ih.2, hput₁]
      rfl

/-- **The timed loop is a game**, whichever of the four modules it is: the words of a put are
    those of the send buffer, and what is polled is the last byte of the receive buffer. -/
theorem start_eq (hh : Ready m cache n h) (k : Nat) :
    start m h k = (game n h).start (fun x => memory (h x)) k := by
  funext x
  match x with
  | 0 => exact congrArg (Pe.start _) (bounces_eq hh k).1
  | 1 => exact congrArg (Pe.start _) (bounces_eq hh k).2

/-- Where the last byte of a put comes from. -/
def src (n : Nat) (h : Fin 2 → Netpipe Prot) (x : Fin 2) : Ptr := (h x).args.sPtr.add (n - 1)

theorem bytes_eq (p q : Ptr) (hpos : 0 < n) :
    bytes p q n = bytes p q (n - 1) ++ [(p.add (n - 1), q.add (n - 1))] := by
  obtain ⟨n, rfl⟩ := Nat.exists_eq_succ_of_ne_zero hpos.ne'
  rw [bytes, List.range_succ, List.map_append]
  rfl

theorem Placed.cell_eq {h : Netpipe Prot} {i j : Nat} (hx : Placed h n i j) (hpos : 0 < n) :
    cell h = h.args.rPtr.add (n - 1) := by
  rw [cell, hx.bufflen]
  congr 1
  omega

/-- The last byte put goes to the cell of the other one. -/
theorem game_ends (hh : Ready m cache n h) (hpos : 0 < n) : (game n h).Ends (src n h) where
  words x := by
    obtain ⟨i, j, hy, -⟩ := hh.placed (1 - x)
    have hcell : (game n h).cell (1 - x) = (h (1 - x)).args.rPtr.add (n - 1) := hy.cell_eq hpos
    refine ⟨bytes (h x).args.sPtr (h (1 - x)).args.rPtr (n - 1), ?_, ?_⟩
    · rw [hcell]
      exact bytes_eq _ _ hpos
    · intro w hw
      obtain ⟨a, ha, rfl⟩ := List.mem_map.mp hw
      have ha := List.mem_range.mp ha
      rw [hcell, hy.rPtr, Ptr.add, Ptr.add, Ne, Ptr.addr.injEq]
      omega

end game

/-! ## What the buffers hold -/

section contents

variable {Op : Type} {Res : Op → Type} {m : Polled} {cache : Bool} {n : Nat}
  {h h' : Fin 2 → Netpipe Prot}

theorem ofOption_bind_eq {α β : Type} {o : Option α} {f : α → Proc Op Res Event β} {b : β}
    (h : (Proc.ofOption o).bind f = .ret b) : ∃ a, o = some a ∧ f a = .ret b := by
  cases o with
  | none => cases h
  | some a => exact ⟨a, rfl, h⟩

/-- `InitBufferData` leaves the arguments alone. -/
theorem initBufferData_args {h h' : Netpipe Prot} {nbytes soffset roffset : Int}
    (hinit : (initBufferData h nbytes soffset roffset : Proc Op Res Event _) = .ret h') :
    h'.args = h.args := by
  unfold initBufferData at hinit
  obtain ⟨r, -, hfill⟩ := ofOption_bind_eq hinit
  dsimp only at hfill
  split at hfill
  · obtain ⟨heap, -, hret⟩ := ofOption_bind_eq hfill
    rw [← Proc.ret.inj hret]
  · obtain ⟨r', -, hret⟩ := ofOption_bind_eq hfill
    rw [← Proc.ret.inj hret]

/-- Both PEs at the start of the timed loop. -/
structure Primed (m : Polled) (cache : Bool) (n : Nat) (o : Fin 2 → ByteOrder)
    (h : Fin 2 → Netpipe Prot) : Prop where
  ready : Ready m cache n h
  armed : cache = false → ∀ x, Armed (h x) n (pattern (o x) 97 n) (pattern (o x) 98 n)
  single : cache = true → ∀ x, Single (h x) n (cachedFill (o x) n)

variable (Op Res) in
/-- The generic `InitBufferData` on both sides. -/
theorem Ready.primed (hh : Ready m cache n h) (hpos : 0 < n) (hn : n < 2 ^ 31)
    (hinit : ∀ x, (initBufferData (h x) n 0 0 : Proc Op Res Event _) = .ret (h' x)) :
    Primed m cache n (fun x => (h x).order) h' := by
  have hargs := fun x => initBufferData_args (hinit x)
  have harmed : cache = false → ∀ x,
      Armed (h' x) n (pattern (h x).order 97 n) (pattern (h x).order 98 n) := by
    intro hcache x
    obtain ⟨r, s, hx⟩ := hh.armed hcache x
    obtain ⟨h₁, heq, -, hx₁⟩ := initBufferData_eq Op Res hx hn ((hh.cached x).trans hcache)
    obtain rfl : h' x = h₁ := Proc.ret.inj ((hinit x).symm.trans heq)
    exact hx₁
  have hsingle : cache = true → ∀ x, Single (h' x) n (cachedFill (h x).order n) := by
    intro hcache x
    obtain ⟨b, hx⟩ := hh.single hcache x
    obtain ⟨h₁, heq, -, hx₁⟩ :=
      initBufferData_cached Op Res hx hpos hn ((hh.cached x).trans hcache)
    obtain rfl : h' x = h₁ := Proc.ret.inj ((hinit x).symm.trans heq)
    exact hx₁
  refine ⟨⟨?_, ?_, ?_, ?_, ?_⟩, harmed, hsingle⟩
  · intro x
    rw [hargs x, hh.cached x]
  · rw [hargs 0, hargs 1]
    exact hh.tr
  · exact fun hcache x => ⟨_, _, harmed hcache x⟩
  · exact fun hcache x => ⟨_, hsingle hcache x⟩
  · intro hm x
    rw [hargs x, hargs (1 - x)]
    exact hh.symmetric hm x

end contents

/-! ## Polling and the buffers -/

section main

variable {m : Polled} {n : Nat} {o : Fin 2 → ByteOrder} {h : Fin 2 → Netpipe Prot}

/-- The last byte of a buffer. -/
theorem memory_last {h : Netpipe Prot} {i n : Nat} {b : List UInt8} (hi : h.heap.block i = some b)
    (hlen : b.length = n) : memory h (.addr i (n - 1)) = b.getLast?.getD 0 := by
  rw [memory, hi, Option.bind_some, List.getLast?_eq_getElem?, hlen]

/-- Without cache mode everybody waits for 'b', and sets back to 'a'. -/
theorem Primed.uncached (hh : Primed m false n o h) (hpos : 0 < n) (x : Fin 2) :
    waitChar (h x) = 98 ∧ resetChar (h x) = 97 ∧
      (∀ y, src n h x ≠ cell (h x) ∧ ∀ w ∈ bytes y (h x).args.rPtr n, w.2 ≠ src n h x) ∧
      memory (h x) (src n h x) = (pattern (o x) 98 n).getLast?.getD 0 ∧
      memory (h x) (cell (h x)) = (pattern (o x) 97 n).getLast?.getD 0 := by
  have hcache := hh.ready.cached x
  have harmed := hh.armed rfl x
  obtain ⟨i, j, hij, hi, hj, hrb, hrp, hro, hsb, hsp, -⟩ := harmed.blocks
  have hx : Placed (h x) n i j := ⟨harmed.bufflen, hrb, hrp, hro, hsb, hsp⟩
  have hcell : cell (h x) = .addr i (n - 1) := by
    rw [hx.cell_eq hpos, hrp, Ptr.add, Nat.zero_add]
  have hsrc : src n h x = .addr j (n - 1) := by
    rw [src, hsp, Ptr.add, Nat.zero_add]
  refine ⟨?_, ?_, fun y => ⟨?_, ?_⟩, ?_, ?_⟩
  · rw [waitChar, hcache]
    rfl
  · rw [resetChar, hcache]
    rfl
  · rw [hcell, hsrc, Ne, Ptr.addr.injEq]
    exact fun heq => hij heq.1.symm
  · intro w hw
    obtain ⟨a, -, rfl⟩ := List.mem_map.mp hw
    rw [hsrc, hrp, Ptr.add, Ne, Ptr.addr.injEq]
    exact fun heq => hij heq.1
  · rw [hsrc, memory_last hj harmed.length_s]
  · rw [hcell, memory_last hi harmed.length_r]

theorem getLast?_getD {b : List UInt8} (hb : b ≠ []) (v : UInt8) :
    b.getLast?.getD 0 = v ↔ b.getLast? = some v := by
  rw [List.getLast?_eq_some_getLast hb, Option.getD_some, Option.some.injEq]

theorem pattern_ne_nil (o : ByteOrder) (c : Int) (hpos : 0 < n) : pattern o c n ≠ [] := by
  rw [← List.length_pos_iff, pattern_length]
  exact hpos

/-- **Polling agrees** with the buffers where the patterns end as expected. -/
theorem Primed.agrees (hh : Primed m false n o h) (hpos : 0 < n) (hfits : ∀ x, Fits (o x) n)
    (k : Nat) : Agrees (start m h k) k := by
  rw [start_eq hh.ready k]
  have hsound : Sound (game n h) (fun x => memory (h x)) (src n h) := by
    refine ⟨game_ends hh.ready hpos, ?_, ?_, ?_, ?_⟩
    · -- the buffer that is sent from is not received into
      intro x
      obtain ⟨-, -, hkept, -⟩ := hh.uncached hpos x
      have hx := hkept (h (1 - x)).args.sPtr
      refine ⟨hx.1, ?_⟩
      show ∀ w ∈ bytes _ (h (1 - (1 - x))).args.rPtr n, _
      rw [other_other]
      exact hx.2
    · -- the pattern of 'b' ends with 'b'
      intro x
      obtain ⟨-, -, -, hvalue, -⟩ := hh.uncached hpos x
      obtain ⟨hwait, -⟩ := hh.uncached hpos (1 - x)
      show memory (h x) (src n h x) = waitChar (h (1 - x))
      rw [hvalue, hwait, getLast?_getD (pattern_ne_nil _ _ hpos)]
      exact (hfits x).1
    · -- that of 'a' does not
      intro x
      obtain ⟨hwait, -, -, -, hclear⟩ := hh.uncached hpos x
      show memory (h x) (cell (h x)) ≠ waitChar (h x)
      rw [hclear, hwait, Ne, getLast?_getD (pattern_ne_nil _ _ hpos)]
      exact (hfits x).2
    · intro x
      obtain ⟨hwait, hreset, -⟩ := hh.uncached hpos x
      show resetChar (h x) ≠ waitChar (h x)
      rw [hwait, hreset]
      decide
  exact hsound.agrees k

/-- **And only there**: with an iteration to make and a byte to send, the first turn of either
    PE shows the last bytes of all four buffers. -/
theorem Primed.fits {k : Nat} (hh : Primed m false n o h) (hpos : 0 < n)
    (hagrees : Agrees (start m h k) k) (hk : 0 < k) : ∀ x, Fits (o x) n := by
  rw [start_eq hh.ready k] at hagrees
  obtain ⟨hclear₁, hclear₀, hvalue₀, hvalue₁⟩ :=
    hagrees.values (game_ends hh.ready hpos) hk
  obtain ⟨hwait₀, -, -, hlast₀, hcell₀⟩ := hh.uncached hpos 0
  obtain ⟨hwait₁, -, hkept, hlast₁, hcell₁⟩ := hh.uncached hpos 1
  replace hvalue₁ := hvalue₁ (hkept (h 0).args.sPtr)
  change memory (h 1) (cell (h 1)) ≠ waitChar (h 1) at hclear₁
  change memory (h 0) (cell (h 0)) ≠ waitChar (h 0) at hclear₀
  change memory (h 0) (src n h 0) = waitChar (h 1) at hvalue₀
  change memory (h 1) (src n h 1) = waitChar (h 0) at hvalue₁
  rw [hcell₁, hwait₁, Ne, getLast?_getD (pattern_ne_nil _ _ hpos)] at hclear₁
  rw [hcell₀, hwait₀, Ne, getLast?_getD (pattern_ne_nil _ _ hpos)] at hclear₀
  rw [hlast₀, hwait₁, getLast?_getD (pattern_ne_nil _ _ hpos)] at hvalue₀
  rw [hlast₁, hwait₀, getLast?_getD (pattern_ne_nil _ _ hpos)] at hvalue₁
  intro x
  match x with
  | 0 => exact ⟨hvalue₀, hclear₀⟩
  | 1 => exact ⟨hvalue₁, hclear₁⟩

/-- **In cached mode** the first put ends with the 0 of `InitBufferData`, which neither PE waits
    for. -/
theorem Primed.cached {k : Nat} (hh : Primed m true n o h) (hpos : 0 < n)
    (hagrees : Agrees (start m h k) k) : k = 0 := by
  by_contra hk
  rw [start_eq hh.ready k] at hagrees
  obtain ⟨-, -, hvalue, -⟩ :=
    hagrees.values (game_ends hh.ready hpos) (Nat.pos_of_ne_zero hk)
  change memory (h 0) (src n h 0) = waitChar (h 1) at hvalue
  have hsingle := hh.single rfl 0
  obtain ⟨i, hi, -, -, -, -, hsp, -⟩ := hsingle.block
  -- PE 1 waits for 'b', and gets a 0
  rw [src, hsp, Ptr.add, Nat.zero_add, memory_last hi hsingle.length, cachedFill,
    List.getLast?_concat, waitChar, hh.ready.cached 1,
    hh.ready.tr.2] at hvalue
  revert hvalue
  decide

/-- **Polling the last byte** agrees with how the buffers are initialised only where there is
    nothing to wait for or, without cache mode, where the patterns of both hosts end as they would
    if the letters themselves had been filled in. -/
theorem polling_agrees_iff {Op : Type} {Res : Op → Type} {m : Polled} {cache : Bool} {n : Nat}
    {h h' : Fin 2 → Netpipe Prot} (hready : Ready m cache n h) (hpos : 0 < n) (hn : n < 2 ^ 31)
    (hinit : ∀ x, (initBufferData (h x) n 0 0 : Proc Op Res Event _) = .ret (h' x)) (k : Nat) :
    Agrees (start m h' k) k ↔ k = 0 ∨ cache = false ∧ ∀ x, Fits (h x).order n := by
  have hprimed := hready.primed Op Res hpos hn hinit
  by_cases hk : k = 0
  · subst hk
    rw [start_eq hprimed.ready 0]
    exact iff_of_true (agrees_zero _ _) (Or.inl rfl)
  cases cache with
  | false =>
    constructor
    · exact fun hagrees => Or.inr ⟨rfl, hprimed.fits hpos hagrees (Nat.pos_of_ne_zero hk)⟩
    · exact fun hfits => hprimed.agrees hpos (hfits.resolve_left hk).2 k
  | true =>
    constructor
    · exact fun hagrees => Or.inl (hprimed.cached hpos hagrees)
    · exact fun hfits => absurd (hfits.resolve_left hk).1 (by decide)

/-- The two PEs with buffers of these contents. -/
def pes (bs : List UInt8) (x : Fin 2) : Netpipe Unit :=
  let h := twoBuffers .little () bs bs
  let a := h.args
  if x = 0 then h
  else { h with args := { a with
    tr := false, rcv := true, rBuff := a.sBuff, rBuffOrig := a.sBuff, rPtr := a.sBuff,
    sBuff := a.rBuff, sBuffOrig := a.rBuff, sPtr := a.rBuff } }

theorem ready_pes (m : Polled) (bs : List UInt8) : Ready m false bs.length (pes bs) where
  cached x := by
    match x with
    | 0 => rfl
    | 1 => rfl
  tr := ⟨rfl, rfl⟩
  armed _ x := by
    match x with
    | 0 => exact ⟨bs, bs, armed_twoBuffers .little () rfl⟩
    | 1 => exact ⟨bs, bs, rfl, rfl, rfl, 1, 0, by decide, rfl, rfl, rfl, rfl, rfl, rfl, rfl, rfl⟩
  single hc := nomatch hc
  symmetric _ x := by
    match x with
    | 0 => rfl
    | 1 => rfl

/-- What the generic `InitBufferData` makes of them. -/
theorem exists_init (bs : List UInt8) (hn : bs.length < 2 ^ 31) : ∃ h' : Fin 2 → Netpipe Unit, ∀ x,
    (initBufferData (pes bs x) bs.length 0 0 : Proc Unit (fun _ => Unit) Event _) =
      .ret (h' x) := by
  have hready := ready_pes .ibv bs
  have hinit : ∀ x, ∃ h' : Netpipe Unit,
      (initBufferData (pes bs x) bs.length 0 0 : Proc Unit (fun _ => Unit) Event _) = .ret h' := by
    intro x
    obtain ⟨r, s, harmed⟩ := hready.armed rfl x
    obtain ⟨h', hinit, -⟩ := initBufferData_eq Unit (fun _ => Unit) harmed hn (hready.cached x)
    exact ⟨h', hinit⟩
  exact Classical.skolem.mp hinit

/-- Patterns of 103 bytes happen to end as expected. -/
theorem polling_agrees_bytes : ∃ h' : Fin 2 → Netpipe Unit, ∀ k, Agrees (start .ibv h' k) k := by
  obtain ⟨h', hinit⟩ := exists_init (.replicate 103 0) (by decide)
  refine ⟨h', ?_⟩
  intro k
  refine (polling_agrees_iff (ready_pes .ibv (.replicate 103 0)) (by decide) (by decide)
    hinit k).mpr (Or.inr ⟨rfl, ?_⟩)
  intro x
  match x with
  | 0 => decide
  | 1 => decide

/-- One byte does not: the single ping-pong hangs, or is over before it has begun. -/
theorem polling_disagrees : ¬ ∀ (m : Polled) (cache : Bool) (n : Nat) (h h' : Fin 2 → Netpipe Unit),
    Ready m cache n h → 0 < n → n < 2 ^ 31 →
    (∀ x, (initBufferData (h x) n 0 0 : Proc Unit (fun _ => Unit) Event _) = .ret (h' x)) →
    ∀ k, Agrees (start m h' k) k := by
  intro hall
  obtain ⟨h', hinit⟩ := exists_init [0] (by decide)
  have hready := ready_pes .shmem [0]
  have hagrees := hall .shmem false 1 _ h' hready (by decide) (by decide) hinit 1
  have hprimed := hready.primed Unit (fun _ => Unit) (by decide) (by decide) hinit
  have hfits := hprimed.fits (by decide) hagrees (by decide) 0
  revert hfits
  decide

end main

end NetPipe.Polling
