/-
  The memory of a TCP process, whatever comes from the other end of the socket.

  Next to nothing is assumed of the peer.  `Posix` is what POSIX says of one call: `read` stores no
  more than it is asked for, `write` takes no more than it is given, and both may give any such
  answer, fail, or end the stream at any point.  So the peer may be another NetPIPE, a broken one,
  or one that sends sizes and data of its own making; the one thing it must not send is the exit
  signal (`Unsignalled`), for what `run_iters` does on that is undefined.

  1. **Each function keeps to the buffers** (`careful_tcp`).  For the loops that is the invariant of
     `NetPipe.TcpLoops` with nothing said of the bytes: `off` bytes have been stored, and as many
     are left as the buffer is longer, so the next `read` is asked for no more than that.

  2. `tcp_memory_safe` — with `NetPipe.HeapBalance`, any number of calls.
-/
import NetPipe.HeapBalance
import NetPipe.TcpLoops

namespace NetPipe.Tcp

open Memory Process Duplex

variable {S : Type}

/-- What the calls of the process may answer. -/
structure Posix (E : Env (StreamOp Site) StreamOp.Res Event S) : Prop where
  alloc : ∀ n bs, E.alloc n (some bs) → bs.length = n
  read : ∀ site n st bs st', E.answer (.read site n) st (some bs) st' → bs.length ≤ n
  write : ∀ site bs st n st', E.answer (.write site bs) st (some n) st' → n ≤ bs.length

section careful

variable {E : Env (StreamOp Site) StreamOp.Res Event S} (hE : Posix E)

include hE

/-- An answer of `read` is one a loop can take. -/
theorem Posix.reads {site : Site} {room : Nat} {err eof : S → Prop} {next : List UInt8 → S → Prop}
    (herr : ∀ st, err st) (heof : ∀ st, eof st) (hnext : ∀ bs st, next bs st) (st : S) :
    (E.strict fun _ => True).io (.read site room) st (Reads err eof room next) := by
  rintro (_ | _ | ⟨b, bs⟩) st' hans
  · exact herr st'
  · exact heof st'
  · exact ⟨hE.read _ _ _ _ _ hans, hnext _ st'⟩

/-- An answer of `write` is one a loop can take. -/
theorem Posix.writes {site : Site} {bs : List UInt8} {err zero : S → Prop} {next : Nat → S → Prop}
    (herr : ∀ st, err st) (hzero : ∀ st, zero st) (hnext : ∀ n st, next n st) (st : S) :
    (E.strict fun _ => True).io (.write site bs) st (Writes err zero bs.length next) := by
  rintro (_ | _ | n) st' hans
  · exact herr st'
  · exact hzero st'
  · exact ⟨hE.write _ _ _ _ _ hans, hnext _ st'⟩

/-- `readFully` stays inside the buffer it is given. -/
theorem safely_readFully {site : Site} {buf : List UInt8} {len : Nat} (hlen : 0 < len)
    (hbuf : len ≤ buf.length) : E.Safely (readFully site buf len) fun _ => True := by
  intro st
  rw [← List.take_append_drop len buf]
  refine wp_readFully (I := fun _ _ => True) ?_ (fun got st _ _ => ?_) (fun _ _ _ _ => trivial) hlen
    trivial
  · rw [List.length_take, Nat.min_eq_left hbuf]
  · exact hE.reads (fun _ => trivial) (fun _ => trivial) (fun _ _ => trivial) st

omit hE in
theorem safely_sendRepeat (h : Host) (rpt : UInt32) : E.Safely (sendRepeat h rpt) (Aside h) := by
  rintro st (_ | n) st' -
  · exact trivial
  · exact Aside.rfl

theorem safely_recvRepeat (h : Host) : E.Safely (recvRepeat h) fun a => Aside h a.2 := by
  refine (safely_readFully hE (by decide) (by decide)).bind ?_
  rintro ⟨bytesRead, nrpt⟩ -
  show E.Safely (if bytesRead < 0 then _ else _) _
  split
  · exact .exit
  · split
    · exact .exit
    · exact .ret Aside.rfl

theorem safely_sync (h : Host) : E.Safely (sync h) (Aside h) := by
  rintro st (_ | n) st' -
  · exact trivial
  · refine (safely_readFully hE (by decide) (by decide)).bind ?_ st'
    rintro ⟨bytesRead, response⟩ -
    show E.Safely (if bytesRead < 0 then _ else _) _
    split
    · exact .exit
    · split
      · exact .exit
      · exact .ret Aside.rfl

/-- `SendData` reads the send buffer only. -/
theorem safely_sendData {h h₁ : Host} {n : Nat} (hin : Inside h h₁ n) :
    E.Safely (sendData h₁) fun h₂ => Inside h h₂ n := by
  intro st
  have ⟨_, r, s, hh⟩ := hin
  obtain ⟨j, hj, hs⟩ := hh.send_block
  refine wp_sendData (I := fun _ _ => True) (.of_block hh.bufflen hh.length_s hj hs)
    (fun off st _ _ => ?_) (fun _ _ => hin) trivial
  have hroom : n - off = (s.drop off).length := by rw [List.length_drop, hh.length_s]
  rw [hroom]
  exact hE.writes (fun _ => trivial) (fun _ => hin) (fun _ _ => trivial) st

/-- `RecvData` stores into the receive buffer only, wherever the stream ends. -/
theorem safely_recvData {h h₁ : Host} {n : Nat} (hin : Inside h h₁ n) :
    E.Safely (recvData h₁) fun h₂ => Inside h h₂ n := by
  intro st
  obtain ⟨hset, r, s, hh⟩ := hin
  have hR : Receives n fun (h₂ : Host) r =>
      h₂.settings = h.settings ∧ ∃ s, Owns h.heap h₂.heap h₂.args n r s := by
    refine ⟨?_, ?_, ?_, ?_⟩
    · rintro h₂ r ⟨-, s, hh⟩
      exact hh.bufflen
    · rintro h₂ r ⟨-, s, hh⟩
      exact hh.length_r
    · rintro h₂ r ⟨-, s, hh⟩
      exact hh.load_rPtr
    · rintro h₂ pre bs mid post ⟨hset, s, hh⟩ hlen
      obtain ⟨heap', s', hstore, hh'⟩ := hh.store_r _ hlen
      rw [hh.rPtr_eq]
      exact ⟨heap', hstore, hset, s', hh'⟩
  refine wp_recvData hR (I := fun _ _ => True) (fun got st _ _ => ?_) ?_ ⟨hset, s, hh⟩ trivial
  · refine hE.reads (fun _ => trivial) (fun st => ?_) (fun _ _ => trivial) st
    exact fun h₂ r ⟨hset, s, hh⟩ => ⟨hset, r, s, hh⟩
  · rintro got h₂ st - ⟨hset, s, hh⟩
    exact ⟨hset, got, s, hh⟩

/-- **The module** keeps to the buffers. -/
theorem careful_tcp : Careful tcp E where
  generic := tcp_generic
  alloc := hE.alloc
  sendRepeat := safely_sendRepeat
  recvRepeat := safely_recvRepeat hE
  prepareToReceive _ := .ret Aside.rfl
  sync := safely_sync hE
  sendData _ _ _ := safely_sendData hE
  recvData _ _ _ := safely_recvData hE

end careful

/-- **Memory safety** of a TCP process, in either cache mode, against any peer that does not send
    the exit signal: however many calls of `run_iters` it makes and with whatever arguments, no
    access is made outside a live block and nothing is freed twice.  Where the calls have returned,
    the heap is what it was before them, an exception was raised only for arguments a transmitter
    does not accept, and all other calls gave their result. -/
theorem tcp_memory_safe {E : Env (StreamOp Site) StreamOp.Res Event S} (hE : Posix E) (h : Host)
    (htidy : Tidy h.heap) (tuples : List (List Int))
    (hsized : ∀ pyargs ∈ tuples, ∀ a, pyArgParseTuple pyargs = some a → Sized h a.1)
    {st st' : S} (hpeer : Unsignalled tcp E h tuples st)
    {out : Outcome (List PyResult × Host)} (hexec : Exec E (calls tcp h tuples) st out st') :
    out ≠ .faulted ∧ ∀ rs h', out = .returned (rs, h') →
      h'.heap.block = h.heap.block ∧ h'.settings = h.settings ∧
        List.Forall₂ (Answered h) tuples rs := by
  obtain ⟨hnofault, hret⟩ :=
    hexec.safely (balanced_calls (careful_tcp hE) tuples h st htidy hsized hpeer)
  refine ⟨hnofault, ?_⟩
  rintro rs h' hout
  obtain ⟨hbal, hanswered⟩ := hret _ hout
  exact ⟨hbal.block, hbal.settings, hanswered⟩

/-- A peer whose every size and repeat count is 8, and whose data are zeros. -/
def eightPeer : Env (StreamOp Site) StreamOp.Res Event Unit where
  emit _ _ := ()
  alloc n r := r = some (List.replicate n 0)
  answer
    | .write _ bs, _, r, _ => r = some bs.length
    | .read .rpt n, _, r, _ => r = some ([0, 0, 0, 8].take n)
    | .read .sync n, _, r, _ => r = some (syncMe.take n)
    | .read _ n, _, r, _ => r = some (List.replicate n 0)

theorem posix_eightPeer : Posix eightPeer where
  alloc := by
    rintro n bs hbs
    obtain rfl := Option.some.inj hbs
    exact List.length_replicate
  read := by
    rintro (_ | _ | _ | _) n st bs st' hbs
    · obtain rfl : bs = [0, 0, 0, 8].take n := Option.some.inj hbs
      exact List.length_take_le _ _
    · obtain rfl : bs = List.replicate n 0 := Option.some.inj hbs
      exact List.length_replicate.le
    · obtain rfl : bs = syncMe.take n := Option.some.inj hbs
      exact List.length_take_le _ _
    · obtain rfl : bs = List.replicate n 0 := Option.some.inj hbs
      exact List.length_replicate.le
  write := by
    rintro site bs st n st' hn
    obtain rfl : n = bs.length := Option.some.inj hn
    exact Nat.le_refl _

/-- A receiver in cached mode. -/
def cachedReceiver : Host :=
  let h := init (netpipeObject .little () none)
  { h with args.cache := true }

/-- Its size is 8. -/
theorem eightPeer_size (h : Host) (horder : h.order = .little) :
    wp (eightPeer.handler True) (recvRepeat h) (fun a _ => a.1 = 8) () := by
  unfold recvRepeat readFully
  rw [readFully.loop, dif_pos (by decide)]
  rintro _ _ rfl
  simp [storeAt, Proc.ofOption, Proc.bind, readFully.loop, readFully.finish, wp, horder]
  decide

/-- A receiver in cached mode that takes its first size from the peer, and is given the second. -/
theorem tcp_memory_safe_cached :
    ∃ out st', Exec eightPeer (calls tcp cachedReceiver [[], [8, 1]]) () out st' ∧
      out ≠ .faulted := by
  obtain ⟨out, st', hexec⟩ := Exec.total (E := eightPeer) (fun n => ⟨_, rfl⟩)
    (fun o st => by rcases o with _ | ⟨_ | _ | _ | _, n⟩ <;> exact ⟨_, st, rfl⟩)
    (calls tcp cachedReceiver [[], [8, 1]]) ()
  refine ⟨out, st', hexec, (tcp_memory_safe posix_eightPeer _ tidy_empty _ ?_ ?_ hexec).1⟩
  · simp only [List.forall_mem_cons]
    refine ⟨?_, ?_, by simp⟩
    · rintro a ha
      cases ha
    · rintro a ha -
      obtain rfl : (8, 1) = a := Option.some.inj ha
      decide
  · refine ⟨?_, fun r h₁ st₁ _ => ⟨?_, fun _ _ _ _ => trivial⟩⟩
    swap
    · intro hparse
      cases hparse
    intro _ _ size h₁ st₁ h
    have hsize : size = 8 := h.returned (eightPeer_size cachedReceiver rfl)
    rw [hsize]
    decide

end NetPipe.Tcp
