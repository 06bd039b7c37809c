/-
  The three loops of `tcp.c` against any handler.

  `readFully`, `SendData` and `RecvData` repeat one call until all bytes are through.  Each has one
  rule here, by strong induction on the bytes left: given an invariant of the bytes already
  through, it is enough to look at a single `read` or `write`.  What the single call may answer is
  up to the handler; `Reads` and `Writes` say how the loop takes the answer.

  The buffer comes in as a predicate (`Sends`, `Receives`), so that the rules serve for separate
  buffers and for cached mode alike.  With a script as the handler's state they give
  `NetPipe.TcpScript`, with what is left of a feed `NetPipe.TcpEof`, with a count
  `NetPipe.TcpExplicit`, and with nothing but the bounds of the buffer `NetPipe.TcpMemory`.
-/
import NetPipe.Tcp

namespace NetPipe.Tcp

open Memory Process Duplex

variable {S : Type} {H : Handler (StreamOp Site) StreamOp.Res Event S} {st : S}

/-- How a loop takes the answer of a `read` into `room` bytes. -/
def Reads (err eof : S → Prop) (room : Nat) (next : List UInt8 → S → Prop) :
    Option (List UInt8) → S → Prop
  | none, st => err st
  | some [], st => eof st
  | some (b :: bs), st => (b :: bs).length ≤ room ∧ next (b :: bs) st

/-- How a loop takes the answer of a `write` of `room` bytes. -/
def Writes (err zero : S → Prop) (room : Nat) (next : Nat → S → Prop) : Option Nat → S → Prop
  | none, st => err st
  | some 0, st => zero st
  | some (n + 1), st => n + 1 ≤ room ∧ next (n + 1) st

theorem Reads.of_ne_nil {err eof : S → Prop} {room : Nat} {next : List UInt8 → S → Prop}
    {bs : List UInt8} (hne : bs ≠ []) (hlen : bs.length ≤ room) (h : next bs st) :
    Reads err eof room next (some bs) st := by
  cases bs with
  | nil => exact absurd rfl hne
  | cons b bs => exact ⟨hlen, h⟩

theorem Writes.of_pos {err zero : S → Prop} {room n : Nat} {next : Nat → S → Prop}
    (hpos : 0 < n) (hlen : n ≤ room) (h : next n st) : Writes err zero room next (some n) st := by
  cases n with
  | zero => exact absurd hpos (lt_irrefl _)
  | succ n => exact ⟨hlen, h⟩

/-! ## `readFully` -/

section readFully

variable {site : Site} {len : Nat} {buf post : List UInt8} {I : List UInt8 → S → Prop}
  {Q : Int × List UInt8 → S → Prop} (hbuf : buf.length = len)
  (hread : ∀ got st, I got st → got.length < len → H.io (.read site (len - got.length)) st
    (Reads (Q (-1, got ++ (buf.drop got.length ++ post)))
      (Q (0, got ++ (buf.drop got.length ++ post)))
      (len - got.length) fun bs st => I (got ++ bs) st))
  (hdone : ∀ got st, I got st → got.length = len → Q (len, got ++ post) st)

include hbuf hread hdone

/-- The loop of `readFully`, with `got` in place of the first bytes of `buf`. -/
theorem wp_readFully_loop (bytesLeft : Nat) :
    ∀ (got : List UInt8) (r : Int) (st : S), got.length + bytesLeft = len →
      0 < bytesLeft ∨ 0 < r → I got st →
      wp H (readFully.loop site len bytesLeft got.length r
        (got ++ (buf.drop got.length ++ post))) Q st := by
  induction bytesLeft using Nat.strong_induction_on with
  | _ bytesLeft ih =>
    intro got r st hlen hpos hI
    rw [readFully.loop]
    by_cases hleft : 0 < bytesLeft
    · have hroom : len - got.length = bytesLeft := by omega
      have hcall := hread got st hI (by omega)
      rw [hroom] at hcall
      rw [dif_pos hleft]
      refine H.io_mono (fun ans st hans => ?_) hcall
      cases ans with
      | none => exact hans
      | some bs =>
        cases bs with
        | nil => exact hans
        | cons b bs =>
          obtain ⟨hle, hI'⟩ := hans
          -- what has come in replaces as many bytes behind `got`
          have hcover : (b :: bs).length =
              ((buf.drop got.length).take (b :: bs).length).length := by
            rw [List.length_take, List.length_drop]
            omega
          have hstore : storeAt (got ++ (buf.drop got.length ++ post)) got.length (b :: bs) =
              some (got ++ (b :: bs ++ (buf.drop (got ++ b :: bs).length ++ post))) := by
            rw [List.length_append, ← List.drop_drop, ← storeAt_append rfl hcover,
              ← List.append_assoc (List.take _ _), List.take_append_drop]
          have := ih (bytesLeft - (b :: bs).length) (by simp; omega) (got ++ b :: bs)
            (b :: bs).length st (by rw [List.length_append]; omega) (Or.inr (by simp)) hI'
          rw [List.append_assoc, List.length_append] at this
          rw [List.length_append] at hstore
          simp only [dif_pos (show 0 < (b :: bs).length by simp), hstore, Proc.ofOption,
            Proc.bind_eq, Proc.bind]
          exact this
    · -- nothing left to read: the last count was positive
      have hr : ¬ r ≤ 0 := by omega
      rw [dif_neg hleft, readFully.finish, if_neg hr, List.drop_eq_nil_of_le (by omega),
        List.nil_append]
      exact hdone got st hI (by omega)

/-- **`readFully`** fills its buffer, or answers what the last `read` did. -/
theorem wp_readFully (hlen : 0 < len) (hI : I [] st) :
    wp H (readFully site (buf ++ post) len) Q st :=
  wp_readFully_loop hbuf hread hdone len [] 0 st (Nat.zero_add _) (Or.inl hlen) hI

end readFully

/-! ## `SendData` -/

/-- What `SendData` sends: the `n` bytes `s` at `s_ptr`. -/
structure Sends (h : Host) (n : Nat) (s : List UInt8) : Prop where
  bufflen : h.args.bufflen = n
  length : s.length = n
  load : ∀ off ≤ n, h.heap.load (h.args.sPtr.add off) (n - off) = some (s.drop off)

section sendData

variable {h : Host} {n : Nat} {r s : List UInt8}

/-- A block at `s_ptr`. -/
theorem Sends.of_block (hlen : h.args.bufflen = n) (hs : s.length = n) {j : Nat}
    (hj : h.heap.block j = some s) (hp : h.args.sPtr = .addr j 0) : Sends h n s := by
  refine ⟨hlen, hs, ?_⟩
  intro off hoff
  rw [hp, Ptr.add, Nat.zero_add, Heap.load_addr hj (by omega), List.take_of_length_le]
  rw [List.length_drop]
  omega

theorem Sends.load_sPtr (hh : Sends h n s) :
    h.heap.load h.args.sPtr h.args.bufflen.toNat = some s := by
  have hload := hh.load 0 (Nat.zero_le n)
  rwa [Ptr.add_zero, Nat.sub_zero, List.drop_zero, ← Int.toNat_natCast n, ← hh.bufflen] at hload

theorem armed_sends (hh : Armed h n r s) : Sends h n s := by
  obtain ⟨i, j, -, -, hj, -, -, -, -, hs, -⟩ := hh.blocks
  exact .of_block hh.bufflen hh.length_s hj hs

variable (hh : Sends h n s) {I : Nat → S → Prop} {Q : Host → S → Prop}
  (hwrite : ∀ off st, I off st → off < n → H.io (.write .data (s.drop off)) st
    (Writes (fun st => H.exit 401 "NetPIPE: write: error encountered, errno=%d\n" st) (Q h)
      (n - off) fun m st => I (off + m) st))
  (hdone : ∀ st, I n st → Q h st)

include hh hwrite hdone

/-- The loop of `SendData`, with `off` bytes sent. -/
theorem wp_sendData_loop (bytesLeft : Nat) :
    ∀ (off : Nat) (w : Int) (st : S), off + bytesLeft = n → w ≠ -1 → I off st →
      wp H (sendData.loop h bytesLeft off w) Q st := by
  induction bytesLeft using Nat.strong_induction_on with
  | _ bytesLeft ih =>
    intro off w st hoff hw hI
    rw [sendData.loop]
    by_cases hleft : 0 < bytesLeft
    · have hload := hh.load off (by omega)
      rw [show n - off = bytesLeft by omega] at hload
      rw [dif_pos hleft, hload]
      refine H.io_mono (fun ans st hans => ?_) (hwrite off st hI (by omega))
      cases ans with
      | none => exact hans
      | some m =>
        cases m with
        | zero => exact hans
        | succ m =>
          -- a short count: the loop goes on behind it
          obtain ⟨hle, hI'⟩ := hans
          simp only [dif_pos (Nat.succ_pos m)]
          exact ih (bytesLeft - (m + 1)) (by omega) (off + (m + 1)) (m + 1) st (by omega)
            (by omega) hI'
    · rw [dif_neg hleft, sendData.finish, if_neg hw]
      obtain rfl : off = n := by omega
      exact hdone st hI

/-- **`SendData`** sends the send buffer. -/
theorem wp_sendData (hI : I 0 st) : wp H (sendData h) Q st := by
  unfold sendData
  rw [hh.bufflen, Int.toNat_natCast]
  exact wp_sendData_loop hh hwrite hdone n 0 0 st (Nat.zero_add n) (by decide) hI

end sendData

/-! ## `RecvData` -/

/-- `R h r` describes hosts with the `n` bytes `r` at `r_ptr`, whatever is stored there. -/
structure Receives (n : Nat) (R : Host → List UInt8 → Prop) : Prop where
  bufflen : ∀ {h r}, R h r → h.args.bufflen = n
  length : ∀ {h r}, R h r → r.length = n
  load : ∀ {h r}, R h r → h.heap.load h.args.rPtr h.args.bufflen.toNat = some r
  store : ∀ {h} {pre bs mid post : List UInt8}, R h (pre ++ (mid ++ post)) →
    bs.length = mid.length → ∃ heap, h.heap.store (h.args.rPtr.add pre.length) bs = some heap ∧
      R { h with heap } (pre ++ (bs ++ post))

/-- A receive buffer beside the send buffer. -/
theorem receives_armed (c : Settings) (n : Nat) (s : List UInt8) :
    Receives n fun h r => h.settings = c ∧ Armed h n r s where
  bufflen hh := hh.2.bufflen
  length hh := hh.2.length_r
  load hh := hh.2.load_rPtr
  store hh hlen := by
    obtain ⟨heap, hstore, hh'⟩ := hh.2.store_rPtr hlen
    exact ⟨heap, hstore, hh.1, hh'⟩

section recvData

variable {n : Nat} {R : Host → List UInt8 → Prop} (hR : Receives n R) {I : List UInt8 → S → Prop}
  {Q : Host → S → Prop}
  (hread : ∀ got st, I got st → got.length < n → H.io (.read .data (n - got.length)) st
    (Reads (fun st => H.exit 401 "NetPIPE: read: error encountered, errno=%d\n" st)
      (fun st => H.emit
        (.printf "NetPIPE: \"end of file\" encountered on reading from socket\n") st
        fun st => ∀ h r, R h r → Q h st)
      (n - got.length) fun bs st => I (got ++ bs) st))
  (hdone : ∀ got h st, I got st → R h got → Q h st)

include hR hread hdone

/-- The loop of `RecvData`, with `got` in place and `mid` still to be filled. -/
theorem wp_recvData_loop (bytesLeft : Nat) :
    ∀ (h : Host) (got mid : List UInt8) (r : Int) (st : S), R h (got ++ mid) →
      mid.length = bytesLeft → r ≠ -1 → I got st →
      wp H (recvData.loop h bytesLeft got.length r) Q st := by
  induction bytesLeft using Nat.strong_induction_on with
  | _ bytesLeft ih =>
    intro h got mid r st hh hmid hr hI
    have hlen := hR.length hh
    rw [List.length_append] at hlen
    rw [recvData.loop]
    by_cases hleft : 0 < bytesLeft
    · have hroom : n - got.length = bytesLeft := by omega
      have hcall := hread got st hI (by omega)
      rw [hroom] at hcall
      rw [dif_pos hleft]
      refine H.io_mono (fun ans st hans => ?_) hcall
      cases ans with
      | none =>
        rw [recvData.finish, if_neg (by simp), if_pos rfl]
        exact hans
      | some bs =>
        cases bs with
        | nil =>
          -- end of stream with bytes to go: reported, and the host is as it was
          simp only [List.length_nil, lt_irrefl, dite_false]
          rw [recvData.finish, if_pos ⟨hleft, rfl⟩]
          exact H.emit_mono (fun st hst => hst h _ hh) hans
        | cons b bs =>
          obtain ⟨hle, hI'⟩ := hans
          -- the first bytes of `mid` are replaced and count as got
          have hcover : (b :: bs).length = (mid.take (b :: bs).length).length := by
            rw [List.length_take]
            omega
          rw [← List.take_append_drop (b :: bs).length mid] at hh
          obtain ⟨heap, hstore, hh'⟩ := hR.store hh hcover
          simp only [dif_pos (show 0 < (b :: bs).length by simp), hstore, Proc.ofOption,
            Proc.bind_eq, Proc.bind]
          have hlen' : (got ++ b :: bs).length = got.length + (b :: bs).length :=
            List.length_append
          rw [← List.append_assoc] at hh'
          rw [← hlen']
          refine ih (bytesLeft - (b :: bs).length) (by simp; omega) _ (got ++ b :: bs)
            (mid.drop (b :: bs).length) _ st hh' ?_ ?_ hI'
          · rw [List.length_drop, hmid]
          · simp only [List.length_cons]
            omega
    · have hmid' : mid = [] := List.eq_nil_of_length_eq_zero (by omega)
      rw [hmid', List.append_nil] at hh
      rw [dif_neg hleft, recvData.finish, if_neg (fun hc => hleft hc.1), if_neg hr]
      exact hdone got h st hI hh

/-- **`RecvData`** fills the receive buffer, or reports the end of the stream and returns. -/
theorem wp_recvData {h : Host} {r : List UInt8} (hh : R h r) (hI : I [] st) :
    wp H (recvData h) Q st := by
  unfold recvData
  rw [hR.bufflen hh, Int.toNat_natCast]
  exact wp_recvData_loop hR hread hdone n h [] r 0 st hh (hR.length hh) (by decide) hI

end recvData

end NetPipe.Tcp
