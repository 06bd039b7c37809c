/-
  What the control functions of `tcp.c` leave on a stream whose writes may be short.

  `SendData` repeats a write that took fewer bytes than it was given.  `SendRepeat`, `SendTime` and
  `Sync` write once and look at the sign of the answer only.

  1. The three kinds of message, one write each (`Message`, `sendAll`), and what all of them put
     on the stream together (`stream`).

  2. What is promised: the messages are there when the calls have returned (`Whole`), and no
     receive of the peer gets bytes of two of them (`PeerUnmixed`).

  3. A write that succeeds and takes everything leaves the whole message (`wire_sendAll`), and a
     part of the stream is received message by message (`unmixed_of_prefix`).

  4. A short write is not noticed, and its message is never completed (`exists_short`).  What comes
     behind it on the stream is the next message, whose first bytes the peer takes for the rest.

  5. So the promise is kept exactly where no write that is reached is short
     (`all_or_exit_iff`); a write behind one that fails is not reached, the process being over.
-/
import NetPipe.TcpWire

namespace NetPipe.Tcp

open Memory Process Duplex

/-! ## Messages -/

/-- A control message; `T` is the type of the times. -/
inductive Message (T : Type) where
  | rpt (n : UInt32)
  | time (t : T)
  | sync
  deriving DecidableEq, Repr

section messages

variable {T : Type} (toTicks : T → UInt32) (ofTicks : UInt32 → T)

/-- The bytes that stand for a message. -/
def Message.encode : Message T → List UInt8
  | .rpt n => toBytes .big n
  | .time t => toBytes .big (toTicks t)
  | .sync => syncMe

/-- The function that sends a message. -/
def Message.send (h : Host) : Message T → TcpProg Host
  | .rpt n => sendRepeat h n
  | .time t => sendTime toTicks h t
  | .sync => Tcp.sync h

/-- What that function waits for: `Sync` for the other side's string. -/
def Message.answer : Message T → List UInt8
  | .rpt _ => []
  | .time _ => []
  | .sync => syncMe

/-- The function that gets a message of this kind; the value is left out. -/
def Message.recv (h : Host) : Message T → TcpProg Host
  | .rpt _ => (recvRepeat h).bind fun a => .ret a.2
  | .time _ => (recvTime ofTicks h).bind fun a => .ret a.2
  | .sync => Tcp.sync h

/-- The messages one after the other. -/
def sendAll (h : Host) : List (Message T) → TcpProg Host
  | [] => .ret h
  | m :: ms => do
    let h ← m.send toTicks h
    sendAll h ms

/-- The messages complete, as the writes from number `k` on put them. -/
def stream (k : Nat) : List (Message T) → List Tagged
  | [] => []
  | m :: ms => tagged k (m.encode toTicks) ++ stream (k + 1) ms

/-! ## All or exit -/

/-- Whenever the first calls have returned, their messages are on the stream. -/
def Whole (results : Results) (h : Host) (ms : List (Message T)) : Prop :=
  ∀ k incoming cut h' w,
    Exec (wireEnv results cut) (sendAll toTicks h (ms.take k)) ⟨0, [], incoming⟩
      (.returned h') w →
    w.outgoing = stream toTicks 0 (ms.take k)

/-- What is taken off the wire between two states. -/
def taken (w w' : Wire) : List Tagged := w.incoming.take (w.incoming.length - w'.incoming.length)

/-- Whenever a receive returns, what it has taken is of one message. -/
def Unmixed (E : Env (StreamOp Site) StreamOp.Res Event Wire) :
    Host → List (Message T) → Wire → Prop
  | _, [], _ => True
  | h, m :: ms, w => ∀ h' w', Exec E (m.recv ofTicks h) w (.returned h') w' →
      (∃ k, ∀ x ∈ taken w w', x.msg = k) ∧ Unmixed E h' ms w'

/-- A peer that gets the messages in the order they are sent in, from any part of the stream as
    the sender leaves it, does not mix them. -/
def PeerUnmixed (results : Results) (h : Host) (ms : List (Message T)) : Prop :=
  ∀ incoming cut out w, Exec (wireEnv results cut) (sendAll toTicks h ms) ⟨0, [], incoming⟩ out w →
    ∀ d results' cut' peer,
      Unmixed ofTicks (wireEnv results' cut') peer ms ⟨0, [], w.outgoing.take d⟩

/-- No write that is reached is short: each fails or takes everything.  A write that fails ends the
    process, so the ones behind it do not matter. -/
def NoneShort (results : Results) : Nat → List (Message T) → Prop
  | _, [] => True
  | k, m :: ms => ∀ n, results k = some n →
      (m.encode toTicks).length ≤ n ∧ NoneShort results (k + 1) ms

end messages

section sends

variable {T : Type} {toTicks : T → UInt32} {ofTicks : UInt32 → T} {results : Results} {cut : Cut}
  {w : Wire} {h : Host} {left : Wire → Prop}

/-! ## One message -/

/-- A control send puts what its write takes; `Sync` then takes the answer. -/
theorem wire_send {m : Message T} {Q : Host → Wire → Prop}
    (herr : results w.writes = none → left (w.put (m.encode toTicks) 0))
    (hok : ∀ n, results w.writes = some n →
      Q h ((w.put (m.encode toTicks) n).drop m.answer.length))
    (hwrong : ∀ n i, results w.writes = some n →
      bytes (w.incoming.take m.answer.length) ≠ m.answer →
      left ((w.put (m.encode toTicks) n).drop i)) :
    wp ((wireEnv results cut).strict left) (m.send toTicks h) Q w := by
  cases m with
  | rpt n =>
    show wp _ (.io (StreamOp.write Site.rpt (toBytes h.order (htonl h.order n))) _) Q w
    rw [toBytes_htonl]
    exact wire_write herr hok
  | time t =>
    show wp _ (.io (StreamOp.write Site.time (toBytes h.order (htonl h.order (toTicks t)))) _) Q w
    rw [toBytes_htonl]
    exact wire_write herr hok
  | sync => exact wire_sync herr (fun n hn _ => hok n hn) hwrong

/-- A receive takes one message's number of bytes. -/
theorem wire_recv {m : Message T} {Q : Host → Wire → Prop}
    (hfull : ∀ w', (m.encode toTicks).length ≤ w.incoming.length →
      w'.incoming = w.incoming.drop (m.encode toTicks).length → Q h w') :
    wp ((wireEnv results cut).strict fun _ => True) (m.recv ofTicks h) Q w := by
  cases m with
  | rpt n =>
    refine wp_bind (wire_recvRepeat (fun rpt hrpt => ?_) fun _ => trivial)
    exact hfull _ (Wire.le_incoming hrpt.symm (toBytes_length ..)) rfl
  | time t =>
    refine wp_bind (wire_recvTime (fun ltime hltime => ?_) fun _ => trivial)
    exact hfull _ (Wire.le_incoming hltime.symm (toBytes_length ..)) rfl
  | sync =>
    refine wire_sync (fun _ => trivial) (fun n _ hstring => ?_) fun _ _ _ _ => trivial
    exact hfull _ (Wire.le_incoming hstring rfl) rfl

/-! ## All of them -/

/-- Where no write is short, the messages are there, up to the one the process is left in. -/
theorem wire_sendAll {ms : List (Message T)} {Q : Host → Wire → Prop} :
    ∀ {h : Host} {w : Wire}, NoneShort toTicks results w.writes ms →
      (∀ h' w', w'.outgoing = w.outgoing ++ stream toTicks w.writes ms → Q h' w') →
      (∀ k w', w'.outgoing = w.outgoing ++ stream toTicks w.writes (ms.take k) → left w') →
      wp ((wireEnv results cut).strict left) (sendAll toTicks h ms) Q w := by
  induction ms with
  | nil =>
    intro h w _ hQ _
    exact hQ h w (List.append_nil _).symm
  | cons m ms ih =>
    intro h w hnone hQ hleft
    have hput : ∀ n, results w.writes = some n → ∀ i,
        ((w.put (m.encode toTicks) n).drop i).outgoing =
          w.outgoing ++ tagged w.writes (m.encode toTicks) := by
      intro n hn i
      show w.outgoing ++ tagged w.writes ((m.encode toTicks).take n) = _
      rw [List.take_of_length_le (hnone n hn).1]
    refine wp_bind (wire_send ?_ ?_ ?_)
    · intro _
      exact hleft 0 _ rfl
    · intro n hn
      refine ih (hnone n hn).2 (fun h' w' hw' => hQ h' w' ?_) fun k w' hw' => hleft (k + 1) w' ?_
      · rw [hw', hput n hn, List.append_assoc]
        rfl
      · rw [hw', hput n hn, List.append_assoc]
        rfl
    · intro n i hn _
      refine hleft 1 _ ?_
      rw [hput n hn i, List.take_succ_cons, List.take_zero, stream, stream, List.append_nil]

theorem NoneShort.take {ms : List (Message T)} {k : Nat} (hnone : NoneShort toTicks results k ms)
    (j : Nat) : NoneShort toTicks results k (ms.take j) := by
  induction ms generalizing k j with
  | nil =>
    rw [List.take_nil]
    trivial
  | cons m ms ih =>
    cases j with
    | zero => trivial
    | succ j =>
      intro n hn
      exact ⟨(hnone n hn).1, ih (hnone n hn).2 j⟩

theorem stream_take_prefix {ms : List (Message T)} {k : Nat} (j : Nat) :
    stream toTicks k (ms.take j) <+: stream toTicks k ms := by
  induction ms generalizing k j with
  | nil => rw [List.take_nil]
  | cons m ms ih =>
    cases j with
    | zero => exact List.nil_prefix
    | succ j => exact (List.prefix_append_right_inj _).mpr (ih j)

/-- What is left of a part of the stream behind its first message. -/
theorem prefix_drop {k : Nat} {m : Message T} {ms : List (Message T)} {xs : List Tagged}
    (hxs : xs <+: stream toTicks k (m :: ms)) (hlen : (m.encode toTicks).length ≤ xs.length) :
    xs.take (m.encode toTicks).length = tagged k (m.encode toTicks) ∧
      xs.drop (m.encode toTicks).length <+: stream toTicks (k + 1) ms := by
  obtain ⟨ys, hys⟩ := hxs
  rw [stream] at hys
  have htake := congrArg (List.take (m.encode toTicks).length) hys
  have hdrop := congrArg (List.drop (m.encode toTicks).length) hys
  rw [List.take_append_of_le_length hlen, List.take_left' (length_tagged ..)] at htake
  rw [List.drop_append_of_le_length hlen, List.drop_left' (length_tagged ..)] at hdrop
  exact ⟨htake, ys, hdrop⟩

/-- A part of the stream is received message by message. -/
theorem unmixed_of_prefix {ms : List (Message T)} :
    ∀ {h : Host} {w : Wire} {k : Nat}, w.incoming <+: stream toTicks k ms →
      Unmixed ofTicks (wireEnv results cut) h ms w := by
  induction ms with
  | nil =>
    intro h w k _
    trivial
  | cons m ms ih =>
    intro h w k hpre h' w' hexec
    have hrecv : wp ((wireEnv results cut).strict fun _ => True) (m.recv ofTicks h)
        (fun _ w' => (m.encode toTicks).length ≤ w.incoming.length ∧
          w'.incoming = w.incoming.drop (m.encode toTicks).length) w :=
      wire_recv fun w' hle hdrop => ⟨hle, hdrop⟩
    obtain ⟨hle, hdrop⟩ := hexec.ends hrecv
    obtain ⟨hhead, htail⟩ := prefix_drop hpre hle
    refine ⟨⟨k, ?_⟩, ?_⟩
    · intro x hx
      have hcount : w.incoming.length - w'.incoming.length = (m.encode toTicks).length := by
        rw [hdrop, List.length_drop]
        omega
      rw [taken, hcount, hhead] at hx
      obtain ⟨b, -, rfl⟩ := List.mem_map.mp hx
      rfl
    · rw [← hdrop] at htail
      exact ih htail

/-! ## A short write -/

/-- A send whose write succeeds can return, whatever the write has taken. -/
theorem send_returns {m : Message T} {n : ℕ+} (hn : results w.writes = some n) :
    Exec (wireEnv results cut) (m.send toTicks h)
      { w with incoming := tagged 0 m.answer ++ w.incoming } (.returned h)
      (w.put (m.encode toTicks) n) := by
  have hsend : wp ((wireEnv results cut).strict fun _ => False) (m.send toTicks h)
      (fun h' w' => h' = h ∧ w' = w.put (m.encode toTicks) n)
      { w with incoming := tagged 0 m.answer ++ w.incoming } := by
    refine wire_send (fun hnone => ?_) (fun j hj => ⟨rfl, ?_⟩) fun j i hj hwrong => hwrong ?_
    · rw [show results w.writes = none from hnone] at hn
      cases hn
    · obtain rfl : n = j := Option.some_injective _ (hn.symm.trans hj)
      have hdrop : (tagged 0 m.answer ++ w.incoming).drop m.answer.length = w.incoming :=
        List.drop_left' (length_tagged ..)
      simp only [Wire.put, Wire.drop, hdrop]
    · rw [List.take_left' (length_tagged ..), bytes_tagged]
  obtain ⟨_, _, hexec, rfl, rfl⟩ := (Ends.of_wp hsend).returns fun _ => id
  exact hexec

/-- A message whose write is short is never completed. -/
theorem exists_short (cut : Cut) {ms : List (Message T)} :
    ∀ w : Wire, ¬ NoneShort toTicks results w.writes ms →
      ∃ k incoming w', Exec (wireEnv results cut) (sendAll toTicks h (ms.take k))
          { w with incoming } (.returned h) w' ∧
        w'.outgoing.length < w.outgoing.length + (stream toTicks w.writes (ms.take k)).length := by
  induction ms with
  | nil =>
    intro w hshort
    exact absurd trivial hshort
  | cons m ms ih =>
    intro w hshort
    simp only [NoneShort, not_forall, not_and_or, not_le] at hshort
    obtain ⟨n, hn, hlt | htail⟩ := hshort
    · refine ⟨1, tagged 0 m.answer ++ w.incoming, _, (send_returns hn).bind .ret, ?_⟩
      show (w.outgoing ++ tagged w.writes ((m.encode toTicks).take n)).length <
        _ + (tagged w.writes (m.encode toTicks) ++ []).length
      simp only [List.length_append, length_tagged, List.length_take, List.length_nil]
      omega
    · obtain ⟨k, incoming, w', hexec, hlt⟩ := ih (w.put (m.encode toTicks) n) htail
      refine ⟨k + 1, tagged 0 m.answer ++ incoming, w', ?_, ?_⟩
      · exact (send_returns (w := { w with incoming }) hn).bind hexec
      · refine lt_of_lt_of_le hlt ?_
        show (w.outgoing ++ tagged w.writes ((m.encode toTicks).take n)).length + _ ≤
          _ + (tagged w.writes (m.encode toTicks) ++ stream toTicks (w.writes + 1) _).length
        simp only [List.length_append, length_tagged, List.length_take]
        have : (w.put (m.encode toTicks) n).writes = w.writes + 1 := rfl
        rw [this]
        omega

/-! ## All or exit, exactly -/

/-- **Control sends are all or exit** exactly where no write that is reached is short: then every
    message is complete on the stream when its call has returned, and the peer gets no message
    with bytes of another in it. -/
theorem all_or_exit_iff (toTicks : T → UInt32) (ofTicks : UInt32 → T) (results : Results)
    (h : Host) (ms : List (Message T)) :
    (Whole toTicks results h ms ∧ PeerUnmixed toTicks ofTicks results h ms) ↔
      NoneShort toTicks results 0 ms := by
  constructor
  · rintro ⟨hwhole, -⟩
    by_contra hshort
    obtain ⟨k, incoming, w, hexec, hlt⟩ := exists_short (h := h) .eof ⟨0, [], []⟩ hshort
    rw [hwhole k incoming .eof h w hexec, List.length_nil, Nat.zero_add] at hlt
    exact lt_irrefl _ hlt
  · intro hnone
    constructor
    · intro k incoming cut h' w hexec
      have hsend : wp ((wireEnv results cut).strict fun _ => True) (sendAll toTicks h (ms.take k))
          (fun _ w' => w'.outgoing = [] ++ stream toTicks 0 (ms.take k)) ⟨0, [], incoming⟩ :=
        wire_sendAll (hnone.take k) (fun _ _ hw => hw) fun _ _ _ => trivial
      exact hexec.ends hsend
    · intro incoming cut out w hexec d results' cut' peer
      -- however the sender ends, it leaves the first messages
      have hsend : wp ((wireEnv results cut).strict fun w' => ∃ k, w'.outgoing =
          stream toTicks 0 (ms.take k)) (sendAll toTicks h ms)
          (fun _ w' => w'.outgoing = stream toTicks 0 ms) ⟨0, [], incoming⟩ :=
        wire_sendAll hnone (fun _ _ hw => hw) fun k _ hw => ⟨k, hw⟩
      have hends := hexec.ends hsend
      have hpre : w.outgoing <+: stream toTicks 0 ms := by
        cases out with
        | returned h' => rw [hends]
        | exited c msg =>
          obtain ⟨k, hk⟩ := hends
          rw [hk]
          exact stream_take_prefix k
        | faulted => exact hends.elim
      exact unmixed_of_prefix ((List.take_prefix d _).trans hpre)

end sends

/-- The first write takes two bytes, the others all. -/
def shortFirst : Results := fun k => some (if k = 0 then 1 else 3 : Nat).succPNat

/-- Two repeat counts: the first is never complete, and the peer decodes two bytes of each. -/
theorem short_first_mixed :
    ¬ Whole id shortFirst littleHost [.rpt 1, .rpt 2] ∧
      ¬ PeerUnmixed id id shortFirst littleHost [.rpt 1, .rpt 2] := by
  have hfirst : Exec (wireEnv shortFirst .eof) (Message.send id littleHost (.rpt 1))
      ⟨0, [], []⟩ (.returned littleHost) ⟨1, tagged 0 [0, 0], []⟩ :=
    send_returns (w := ⟨0, [], []⟩) (n := 2) rfl
  have hsecond : Exec (wireEnv shortFirst .eof) (Message.send id littleHost (.rpt 2))
      ⟨1, tagged 0 [0, 0], []⟩ (.returned littleHost)
      ⟨2, tagged 0 [0, 0] ++ tagged 1 [0, 0, 0, 2], []⟩ :=
    send_returns (w := ⟨1, tagged 0 [0, 0], []⟩) (n := 4) rfl
  have hsent : Exec (wireEnv shortFirst .eof) (sendAll id littleHost [.rpt 1, .rpt 2])
      ⟨0, [], []⟩ (.returned littleHost)
      ⟨2, tagged 0 [0, 0] ++ tagged 1 [0, 0, 0, 2], []⟩ :=
    hfirst.bind (hsecond.bind .ret)
  constructor
  · intro hwhole
    exact absurd (hwhole 2 [] .eof _ _ hsent) (by decide)
  · intro hpeer
    have hunmixed := hpeer [] .eof _ _ hsent 6 shortFirst .eof littleHost
    have hrecv : wp ((wireEnv shortFirst .eof).strict fun _ => False)
        ((recvRepeat littleHost).bind fun a => .ret a.2)
        (fun _ w => w.incoming = tagged 1 [0, 2])
        ⟨0, [], tagged 0 [0, 0] ++ tagged 1 [0, 0, 0, 2]⟩ :=
      wp_bind (wire_recvRepeat (fun _ _ => rfl) fun hlt => absurd hlt (by decide))
    obtain ⟨h, w, hexec, hrest⟩ := (Ends.of_wp hrecv).returns fun _ => id
    obtain ⟨k, hk⟩ := (hunmixed h w hexec).1
    rw [taken, hrest] at hk
    have h₀ := hk ⟨0, 0⟩ (by decide)
    have h₁ := hk ⟨0, 1⟩ (by decide)
    exact absurd (h₀.trans h₁.symm) (by decide)

end NetPipe.Tcp
