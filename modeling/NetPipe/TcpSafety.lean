/-
  What no interleaving of a TCP session can break.

  Two results, for every list of runs the arguments of which are accepted.

  1. `session_intact`: the receiver decodes what the transmitter sent, every message is received
     whole and by the call it is for, and nothing is left over.

  2. `session_synchronised`: whoever is in the timed loop of a run knows the other side ready for
     that run, and no synchronisation string serves another run.

  Both are read off the logs, and neither mentions a step.  A log is a prefix of the script
  (`log_prefix_session`), what was got was put (`Inv.put_of_got`), and in a script the acts of a
  run come in program order.  The last of these carries the module (`before_of_run`): a log that
  holds an act of a run holds whatever the run does before it.  So a side in its timed loop has
  got the other one's string of this run (`got_sync`), that one has put it, and with it done all
  that comes before (`ready_of_put`); and the bytes of a message can only have come from the
  `SendData` of the same iteration (`sending_of_received`).
-/
import NetPipe.Lib.Drive
import NetPipe.TcpOrder

namespace NetPipe.Tcp

open Memory Process Duplex

/-! ## Where the acts of a script are -/

section acts

variable {H : Hosts} {s : Side}

/-- The act is at a position with `P`, an event is one with `E`; a byte got was written for the
    call that gets it. -/
def At (P : Pos → Prop) (E : Event → Prop) : TcpAct → Prop
  | .put x => P x.stamp.pos
  | .got call x => P call.pos ∧ x.stamp = call
  | .did p e => P p ∧ E e

/-- The events of a run: marks, with its own size and repeat count, and reports of the check. -/
def RunEvent (H : Hosts) (s : Side) (r : Run) : Event → Prop
  | .mark (.params size _ nrepeat) => size = toUint32 r.size ∧ nrepeat = toUint32 r.nrepeat
  | .mark _ => True
  | .printf _ => False
  | .mismatch m => m ∈ H.reports s (nbytes (toUint32 r.size)) (toUint32 r.nrepeat).toNat

section positions

variable {P : Pos → Prop} {E : Event → Prop} {p : Pos}

theorem At.pos {a : TcpAct} (h : At P E a) : P a.pos := by
  cases a with
  | put x => exact h
  | got call x => exact h.1
  | did p e => exact h.1

theorem at_putMsg (hp : P p) (site : Site) (bs : List UInt8) :
    ∀ a ∈ putMsg ⟨p, site⟩ bs, At P E a := by
  intro a ha
  obtain ⟨b, -, rfl⟩ := mem_putMsg.mp ha
  exact hp

theorem at_gotMsg (hp : P p) (site : Site) (bs : List UInt8) :
    ∀ a ∈ gotMsg ⟨p, site⟩ bs, At P E a := by
  intro a ha
  obtain ⟨b, -, rfl⟩ := mem_gotMsg.mp ha
  exact ⟨hp, rfl⟩

theorem at_did (hp : P p) {k : Mark} (hk : E (.mark k)) : At P E (did p k) := ⟨hp, hk⟩

theorem at_headScript (hp : P p) (s : Side) (size nrepeat : UInt32) :
    ∀ a ∈ headScript s p size nrepeat, At P E a := by
  cases s with
  | left => exact List.forall_mem_append.mpr ⟨at_putMsg hp _ _, at_putMsg hp _ _⟩
  | right => exact List.forall_mem_append.mpr ⟨at_gotMsg hp _ _, at_gotMsg hp _ _⟩

theorem at_iterScript (hp : P p) (s : Side) {own peer : List UInt8}
    (hE : ∀ k ∈ [.sending own, .received peer, .iterated], E (.mark k)) :
    ∀ a ∈ iterScript s p own peer, At P E a := by
  simp only [List.forall_mem_cons] at hE
  obtain ⟨hs, hr, hi, -⟩ := hE
  have hsend : ∀ a ∈ sendScript p own, At P E a :=
    List.forall_mem_cons.mpr ⟨at_did hp hs, at_putMsg hp _ _⟩
  have hrecv : ∀ a ∈ recvScript p peer, At P E a :=
    List.forall_mem_append.mpr ⟨at_gotMsg hp _ _, List.forall_mem_singleton.mpr (at_did hp hr)⟩
  have hmark : ∀ a ∈ [did p .iterated], At P E a := List.forall_mem_singleton.mpr (at_did hp hi)
  cases s with
  | left => exact List.forall_mem_append.mpr ⟨List.forall_mem_append.mpr ⟨hsend, hrecv⟩, hmark⟩
  | right => exact List.forall_mem_append.mpr ⟨List.forall_mem_append.mpr ⟨hrecv, hsend⟩, hmark⟩

theorem at_loopScript {i j k : Nat} (hP : ∀ m, j ≤ m → m < j + k → P ⟨i, m⟩) (s : Side)
    {own peer : List UInt8}
    (hE : ∀ k ∈ [.sending own, .received peer, .iterated], E (.mark k)) :
    ∀ a ∈ loopScript s i own peer j k, At P E a := by
  intro a ha
  obtain ⟨m, hm, ha⟩ := List.mem_flatMap.mp ha
  rw [List.mem_range'_1] at hm
  exact at_iterScript (hP m hm.1 hm.2) s hE a ha

end positions

/-- **The acts of a run**: they are at positions of the run, what a call gets was written for it,
    and the events are those of the run. -/
theorem at_runScript (H : Hosts) (s : Side) (i : Nat) (r : Run) :
    ∀ a ∈ runScript H s i r, At (·.run = i) (RunEvent H s r) a := by
  have h₀ : (fun p : Pos => p.run = i) ⟨i, 0⟩ := rfl
  simp only [runScript, bodyScript, syncScript, closeScript, List.forall_mem_append,
    List.forall_mem_cons]
  refine ⟨at_headScript h₀ _ _ _, ?_, ⟨at_putMsg h₀ _ _, at_gotMsg h₀ _ _⟩,
    ⟨rfl, trivial⟩, at_loopScript (fun _ _ _ => rfl) _ (by simp [RunEvent]),
    ⟨rfl, trivial⟩, ?_, ⟨rfl, trivial⟩, by simp⟩
  · cases H.asyncReceive s <;> simp [prepScript, did, At, RunEvent]
  · intro a ha
    obtain ⟨m, hm, rfl⟩ := List.mem_map.mp ha
    exact ⟨rfl, hm⟩

/-- An act of a session is an act of the run it is at. -/
theorem mem_sessionScript (H : Hosts) (s : Side) {a : TcpAct} (runs : List Run) :
    ∀ i, a ∈ sessionScript H s i runs →
      ∃ j r, runs[j]? = some r ∧ a ∈ runScript H s (i + j) r := by
  induction runs with
  | nil => exact fun i h => absurd h List.not_mem_nil
  | cons r runs ih =>
    intro i h
    rcases List.mem_append.mp h with h | h
    · exact ⟨0, r, rfl, h⟩
    · obtain ⟨j, r', hr', h⟩ := ih (i + 1) h
      exact ⟨j + 1, r', by simpa using hr', by rwa [Nat.add_right_comm] at h⟩

/-- What lies before a run is of earlier runs. -/
theorem sessionScript_split (H : Hosts) (s : Side) {r : Run} (runs : List Run) :
    ∀ i j, runs[j]? = some r → ∃ A B, sessionScript H s i runs =
      A ++ (runScript H s (i + j) r ++ B) ∧ ∀ a ∈ A, a.pos.run < i + j := by
  induction runs with
  | nil => exact fun i j h => by simp at h
  | cons r' runs ih =>
    intro i j h
    cases j with
    | zero =>
      obtain rfl : r' = r := by simpa using h
      exact ⟨[], _, rfl, by simp⟩
    | succ j =>
      obtain ⟨A, B, hsplit, hA⟩ := ih (i + 1) j (by simpa using h)
      refine ⟨runScript H s i r' ++ A, B, ?_, ?_⟩
      · rw [sessionScript, hsplit, List.append_assoc, Nat.add_right_comm i 1 j]
        rfl
      · intro a ha
        rcases List.mem_append.mp ha with ha | ha
        · rw [(at_runScript H s i r' a ha).pos]
          omega
        · have := hA a ha
          omega

/-- **Program order.**  A log that holds an act of run `i` holds whatever the run does before
    it.  The log is a prefix of the script, in which what lies before the run is of earlier runs, so
    the act is found in the part of run `i` and everything in front of it there is in the log. -/
theorem before_of_run {l : List TcpAct} {runs : List Run}
    (hl : l <+: sessionScript H s 0 runs) {i : Nat} {r : Run} (hr : runs[i]? = some r)
    {u : List TcpAct} (hu : u <+: runScript H s i r) {a b : TcpAct} (hb : b ∈ l)
    (hbi : b.pos.run = i) (hbu : b ∉ u) (ha : a ∈ u) : a ∈ l := by
  obtain ⟨A, B, hAB, hA⟩ := sessionScript_split H s runs 0 i hr
  obtain ⟨v, hv⟩ := hu
  rw [Nat.zero_add, ← hv, List.append_assoc, ← List.append_assoc] at hAB
  rw [hAB] at hl
  refine mem_of_prefix hl hb (fun hmem => ?_) (List.mem_append_right _ ha)
  rcases List.mem_append.mp hmem with hmem | hmem
  · have := hA b hmem
    omega
  · exact hbu hmem

/-- `run_iters` up to the timed loop. -/
def frontScript (H : Hosts) (s : Side) (i : Nat) (size nrepeat : UInt32) : List TcpAct :=
  headScript s ⟨i, 0⟩ size nrepeat ++ (prepScript (H.asyncReceive s) ⟨i, 0⟩ size nrepeat ++
    (syncScript ⟨i, 0⟩ ++ [did ⟨i, 0⟩ .timedLoop]))

/-- A run as far as iteration `j`. -/
theorem runScript_upTo (H : Hosts) (s : Side) (i : Nat) (r : Run) {j : Nat}
    (hj : j < (toUint32 r.nrepeat).toNat) :
    let own := H.payload s (nbytes (toUint32 r.size))
    let peer := H.payload s.other (nbytes (toUint32 r.size))
    frontScript H s i (toUint32 r.size) (toUint32 r.nrepeat) ++
      (loopScript s i own peer 0 j ++ iterScript s ⟨i, j⟩ own peer) <+: runScript H s i r := by
  intro own peer
  obtain ⟨k, hk⟩ := Nat.exists_eq_add_of_lt hj
  have hrange : List.range' 0 (toUint32 r.nrepeat).toNat =
      List.range' 0 j ++ j :: List.range' (j + 1) k := by
    have happend := @List.range'_append_1 0 j (k + 1)
    rw [hk, ← List.range'_succ, Nat.add_assoc, ← happend, Nat.zero_add]
  have hloop : loopScript s i own peer 0 (toUint32 r.nrepeat).toNat =
      loopScript s i own peer 0 j ++ (iterScript s ⟨i, j⟩ own peer ++
        loopScript s i own peer (j + 1) k) := by
    simp only [loopScript, hrange, List.flatMap_append, List.flatMap_cons]
  refine ⟨loopScript s i own peer (j + 1) k ++ closeScript ⟨i, (toUint32 r.nrepeat).toNat⟩
    (H.reports s (nbytes (toUint32 r.size)) (toUint32 r.nrepeat).toNat), ?_⟩
  simp only [runScript, bodyScript, frontScript, own, peer] at hloop ⊢
  simp only [hloop, List.append_assoc, List.cons_append, List.nil_append]

/-- Before the timed loop no payload moves, and nothing is reported received. -/
theorem not_mem_frontScript {i : Nat} {size nrepeat : UInt32} {a : TcpAct}
    (ha : (∃ x, a = .put x ∧ x.stamp.site = .data) ∨ ∃ p buf, a = did p (.received buf)) :
    a ∉ frontScript H s i size nrepeat := by
  rcases ha with ⟨x, rfl, hx⟩ | ⟨p, buf, rfl⟩
  · have hne : ∀ st : Stamp Pos Site, st.site ≠ .data → ∀ bs, Act.put x ∉ putMsg st bs := by
      intro st hst bs h
      obtain ⟨b, -, hb⟩ := mem_putMsg.mp h
      cases hb
      exact hst hx
    cases s <;> simp [frontScript, headScript, prepScript, syncScript, did, hne]
  · cases s <;> simp [frontScript, headScript, prepScript, syncScript, did]

/-- In an iteration the message of the peer is got before it is reported. -/
theorem got_prefix (s : Side) (p : Pos) (own peer : List UInt8) :
    ∃ u, u <+: iterScript s p own peer ∧
      (∀ b ∈ peer, .got ⟨p, .data⟩ ⟨b, ⟨p, .data⟩⟩ ∈ u) ∧ ∀ buf, did p (.received buf) ∉ u := by
  cases s with
  | left =>
    refine ⟨sendScript p own ++ gotMsg ⟨p, .data⟩ peer,
      ⟨[did p (.received peer), did p .iterated], ?_⟩, ?_, ?_⟩
    · simp [iterScript, recvScript]
    · exact fun b hb => List.mem_append_right _ (by simpa using hb)
    · simp [sendScript, did]
  | right =>
    refine ⟨gotMsg ⟨p, .data⟩ peer,
      ⟨did p (.received peer) :: (sendScript p own ++ [did p .iterated]), ?_⟩, ?_, ?_⟩
    · simp [iterScript, recvScript]
    · simp
    · simp [did]

/-- In an iteration a message is shown before it is put. -/
theorem sending_prefix (s : Side) (p : Pos) (own peer : List UInt8) :
    ∃ u, u <+: iterScript s p own peer ∧ did p (.sending own) ∈ u ∧ ∀ x, .put x ∉ u := by
  cases s with
  | left =>
    refine ⟨[did p (.sending own)],
      ⟨putMsg ⟨p, .data⟩ own ++ (recvScript p peer ++ [did p .iterated]), ?_⟩, ?_, ?_⟩
    · simp [iterScript, sendScript]
    · simp
    · simp [did]
  | right =>
    refine ⟨recvScript p peer ++ [did p (.sending own)],
      ⟨putMsg ⟨p, .data⟩ own ++ [did p .iterated], ?_⟩, ?_, ?_⟩
    · simp [iterScript, sendScript]
    · simp
    · simp [recvScript, did]

/-- What is reported received is the peer's payload, in an iteration of the timed loop. -/
theorem received_runScript {i : Nat} {r : Run} {p : Pos} {buf : List UInt8}
    (h : did p (.received buf) ∈ runScript H s i r) :
    ∃ j < (toUint32 r.nrepeat).toNat, p = ⟨i, j⟩ ∧
      buf = H.payload s.other (nbytes (toUint32 r.size)) := by
  have hloop : did p (.received buf) ∈ loopScript s i (H.payload s (nbytes (toUint32 r.size)))
      (H.payload s.other (nbytes (toUint32 r.size))) 0 (toUint32 r.nrepeat).toNat := by
    cases s <;> simpa [runScript, bodyScript, headScript, prepScript, syncScript, closeScript,
      did] using h
  obtain ⟨j, hj, hiter⟩ := List.mem_flatMap.mp hloop
  rw [List.mem_range'_1] at hj
  refine ⟨j, by omega, ?_⟩
  cases s <;> simpa [iterScript, sendScript, recvScript, did] using hiter

end acts

/-! ## The barrier -/

section safety

variable {H : Hosts} {runs : List Run} {D : Discipline Site}
  {c : Config Pos Site Event (List PyResult)}

/-- The invariant of a session (`Inv`), whatever the room in the streams and whether or not
    allocation may fail.  Everything below is read off it; the steps of a session are not looked at
    again. -/
theorem session_inv (hD : Controlled D)
    (hc : Steps D advance (sessionStart H (runs.map Run.call)) c) :
    ∃ script, Inv D advance (sessionPlan H runs .done)
      (fun _ => List.Forall₂ Timed (runs.map Run.call)) c script :=
  (Inv.start (follows_done hD H runs)).steps hc

variable {script : Side → List TcpAct}
  (hi : Inv D advance (sessionPlan H runs .done)
    (fun _ => List.Forall₂ Timed (runs.map Run.call)) c script)

include hi

theorem log_prefix_session (s : Side) : (c.party s).log <+: sessionScript H s 0 runs := by
  have h := hi.log_prefix s
  rwa [show (sessionPlan H runs .done).full s = sessionScript H s 0 runs ++ [] by
    cases s <;> rfl, List.append_nil] at h

/-- An act in a log is an act of a run of the session. -/
theorem mem_log {s : Side} {a : TcpAct} (ha : a ∈ (c.party s).log) :
    ∃ r, runs[a.pos.run]? = some r ∧ a ∈ runScript H s a.pos.run r ∧
      At (·.run = a.pos.run) (RunEvent H s r) a := by
  obtain ⟨j, r, hr, har⟩ :=
    mem_sessionScript H s runs 0 ((log_prefix_session hi s).subset ha)
  rw [Nat.zero_add] at har
  obtain rfl : a.pos.run = j := (at_runScript H s j r a har).pos
  exact ⟨r, hr, har, at_runScript H s _ r a har⟩

/-- Whoever has started the timed loop has got the other side's synchronisation string. -/
theorem got_sync {s : Side} {i : Nat} (h : did ⟨i, 0⟩ .timedLoop ∈ (c.party s).log) :
    .got ⟨⟨i, 0⟩, .sync⟩ ⟨0x53, ⟨⟨i, 0⟩, .sync⟩⟩ ∈ (c.party s).log := by
  obtain ⟨r, hr, -⟩ := mem_log hi h
  have hu : headScript s ⟨i, 0⟩ (toUint32 r.size) (toUint32 r.nrepeat) ++
      (prepScript (H.asyncReceive s) ⟨i, 0⟩ (toUint32 r.size) (toUint32 r.nrepeat) ++
        syncScript ⟨i, 0⟩) <+: runScript H s i r :=
    (List.prefix_append_right_inj _).mpr
      ((List.prefix_append_right_inj _).mpr (List.prefix_append _ _))
  refine before_of_run (log_prefix_session hi s) hr hu h rfl ?_ ?_
  · cases s <;> simp [headScript, prepScript, syncScript, did]
  · simp [syncScript, syncMe]

/-- Whoever has put its synchronisation string has done all that comes before: the string is put
    behind the allocation and the fill, in program order. -/
theorem ready_of_put {s : Side} {i : Nat} {b : UInt8}
    (h : .put ⟨b, ⟨⟨i, 0⟩, .sync⟩⟩ ∈ (c.party s).log) {a : TcpAct} {r : Run}
    (hr : runs[i]? = some r)
    (ha : a ∈ prepScript (H.asyncReceive s) ⟨i, 0⟩ (toUint32 r.size) (toUint32 r.nrepeat)) :
    a ∈ (c.party s).log := by
  have hu : headScript s ⟨i, 0⟩ (toUint32 r.size) (toUint32 r.nrepeat) ++
      prepScript (H.asyncReceive s) ⟨i, 0⟩ (toUint32 r.size) (toUint32 r.nrepeat) <+:
        runScript H s i r :=
    (List.prefix_append_right_inj _).mpr (List.prefix_append _ _)
  refine before_of_run (log_prefix_session hi s) hr hu h rfl ?_ (List.mem_append_right _ ha)
  cases s <;> simp [headScript, prepScript, did]

/-- **`Sync` is a barrier**, on one log and the other: what is in the one log has been put
    across, and what is in front of it there is in the other one. -/
theorem ready_of_timedLoop {s : Side} {i : Nat}
    (h : did ⟨i, 0⟩ .timedLoop ∈ (c.party s).log) {r : Run} (hr : runs[i]? = some r) :
    ∀ a ∈ prepScript (H.asyncReceive s.other) ⟨i, 0⟩ (toUint32 r.size) (toUint32 r.nrepeat),
      a ∈ (c.party s.other).log :=
  fun _ ha => ready_of_put hi (hi.put_of_got (got_sync hi h)) hr ha

/-! ## Messages -/

/-- Program order inside an iteration. -/
theorem before_of_iter {s : Side} {i j : Nat} {r : Run} (hr : runs[i]? = some r)
    (hj : j < (toUint32 r.nrepeat).toNat) {pre : List TcpAct}
    (hpre : pre <+: iterScript s ⟨i, j⟩ (H.payload s (nbytes (toUint32 r.size)))
      (H.payload s.other (nbytes (toUint32 r.size)))) {a b : TcpAct}
    (hb : b ∈ (c.party s).log) (hpos : b.pos = ⟨i, j⟩)
    (hkind : (∃ x, b = .put x ∧ x.stamp.site = .data) ∨ ∃ p buf, b = did p (.received buf))
    (hbu : b ∉ pre) (ha : a ∈ pre) : a ∈ (c.party s).log := by
  refine before_of_run (log_prefix_session hi s) hr
    (((List.prefix_append_right_inj _).mpr ((List.prefix_append_right_inj _).mpr hpre)).trans
      (runScript_upTo H s i r hj)) hb (by rw [hpos]) ?_
    (List.mem_append_right _ (List.mem_append_right _ ha))
  simp only [List.mem_append, not_or]
  refine ⟨not_mem_frontScript hkind, fun h => ?_, hbu⟩
  have hlt : b.pos.iter < j :=
    (at_loopScript (P := (·.iter < j)) (E := fun _ => True) (fun m _ hm => by simpa using hm) s
      (fun _ _ => trivial) b h).pos
  rw [hpos] at hlt
  exact lt_irrefl _ hlt

/-- **Messages arrive whole.**  What `RecvData` leaves at `r_ptr` is what the other side's
    `SendData` of the same iteration found at `s_ptr`. -/
theorem sending_of_received {s : Side} {p : Pos} {buf : List UInt8}
    (h : did p (.received buf) ∈ (c.party s).log) :
    did p (.sending buf) ∈ (c.party s.other).log ∧
      ∃ r, runs[p.run]? = some r ∧ buf.length = nbytes (toUint32 r.size) := by
  obtain ⟨i, j⟩ := p
  obtain ⟨r, hr, hmem, -⟩ := mem_log hi h
  replace hr : runs[i]? = some r := hr
  obtain ⟨j', hj, hp, rfl⟩ := received_runScript hmem
  obtain rfl : j = j' := congrArg Pos.iter hp
  have hlen : (H.payload s.other (nbytes (toUint32 r.size))).length = nbytes (toUint32 r.size) :=
    pattern_length ..
  refine ⟨?_, r, hr, hlen⟩
  obtain ⟨b, hb⟩ := List.exists_mem_of_length_pos (hlen.symm ▸ nbytes_pos r.size32_ne_zero)
  -- a byte of the message was got before it was reported, so the other side had put it,
  obtain ⟨u, hu, hgot, hbu⟩ := got_prefix s ⟨i, j⟩ (H.payload s (nbytes (toUint32 r.size)))
    (H.payload s.other (nbytes (toUint32 r.size)))
  have hput := hi.put_of_got (before_of_iter hi hr hj hu h rfl (Or.inr ⟨_, _, rfl⟩) (hbu _)
    (hgot b hb))
  -- and it does that only after it has shown the message
  obtain ⟨u', hu', hsend, hbu'⟩ := sending_prefix s.other ⟨i, j⟩
    (H.payload s.other (nbytes (toUint32 r.size))) (H.payload s.other.other (nbytes _))
  exact before_of_iter hi hr hj hu' hput rfl (Or.inl ⟨_, rfl, rfl⟩) (hbu' _) hsend

end safety

/-! ## Concrete sessions -/

/-- Two little-endian hosts. -/
def littleHosts : Hosts := ⟨fun _ => .little, fun _ => false⟩

/-- The start of a session, for the scheduler. -/
def sessionDuo (H : Hosts) (calls : List (Int × Int)) : Duo Pos Site Event (List PyResult) :=
  ⟨(sessionStart H calls).party .left, (sessionStart H calls).party .right, [], []⟩

/-- What the scheduler computes is reachable, with sockets of any size and short writes. -/
theorem steps_sessionDuo (H : Hosts) (calls : List (Int × Int)) (n : Nat) :
    Steps (sockets (fun _ => ⊤) True False) advance (sessionStart H calls)
      ((sessionDuo H calls).drive advance n).config := by
  have h : Steps (sockets (fun _ => ⊤) True False) advance (sessionDuo H calls).config
      ((sessionDuo H calls).drive advance n).config :=
    Duo.steps_drive (fun _ => rfl) (fun n => Or.inl ⟨_, rfl, List.length_replicate⟩) n _
  have hstart : (sessionDuo H calls).config = sessionStart H calls := by
    unfold Duo.config sessionStart Config.start sessionDuo
    congr 1 <;> funext s <;> cases s <;> rfl
  rwa [hstart] at h

/-! ## Framing and integrity -/

/-- What a session of `calls` keeps in every state it can reach. -/
structure Intact (calls : List (Int × Int)) (c : Config Pos Site Event (List PyResult)) :
    Prop where
  /-- Either side runs its `i`-th run with the arguments of the transmitter's `i`-th call. -/
  decoded : ∀ s p size bytes nrepeat, did p (.params size bytes nrepeat) ∈ (c.party s).log →
    ∃ call, calls[p.run]? = some call ∧ size = toUint32 call.1 ∧ nrepeat = toUint32 call.2
  /-- Nobody leaves the process, or touches memory outside its buffers. -/
  alive : ∀ s, ¬ (c.party s).Aborted
  /-- Nobody reports the end of the stream, or a mismatch. -/
  silent : ∀ s p e, .did p e ∈ (c.party s).log → ∃ k, e = .mark k
  /-- What a call gets was written by the same call of the other side, of the same run and the
      same iteration. -/
  framed : ∀ s call x, .got call x ∈ (c.party s).log → x.stamp = call
  /-- What `RecvData` leaves in the receive buffer is what the other side's `SendData` found in
      its send buffer, all `bufflen` bytes of it. -/
  delivered : ∀ s p buf, did p (.received buf) ∈ (c.party s).log →
    did p (.sending buf) ∈ (c.party s.other).log ∧
      ∃ call, calls[p.run]? = some call ∧ buf.length = nbytes (toUint32 call.1)
  /-- When both are through, the streams are empty and every call gave its result. -/
  finished : (∀ s, ∃ a, (c.party s).Returned a) →
    ∀ s, c.chan s = [] ∧ ∀ a, (c.party s).Returned a → List.Forall₂ Timed calls a

/-- Between hosts of one byte order the check finds nothing after an exchange. -/
theorem reports_eq_nil {H : Hosts} (horder : H.order .left = H.order .right) (s : Side) (n : Nat)
    {k : Nat} (hk : k ≠ 0) : H.reports s n k = [] := by
  have hpeer : H.final s n k = pattern (H.order s) 98 n ++ [] := by
    rw [Hosts.final, if_neg hk, Hosts.payload, List.append_nil]
    cases s with
    | left => rw [Side.other, horder]
    | right => rw [Side.other, horder]
  rw [Hosts.reports, hpeer, lfsrcheck_pattern]
  rfl

/-- **Framing and payload integrity** of a TCP session: sockets of any size, short writes of
    `SendData`, reads of any length, every interleaving. -/
theorem session_intact (H : Hosts) (horder : H.order .left = H.order .right)
    (cap : Side → ℕ∞) (runs : List Run) (hruns : ∀ r ∈ runs, 1 ≤ r.nrepeat)
    (c : Config Pos Site Event (List PyResult))
    (hc : Steps (sockets cap True False) advance (sessionStart H (runs.map Run.call)) c) :
    Intact (runs.map Run.call) c := by
  obtain ⟨script, hi⟩ := session_inv (controlled_sockets cap True False) hc
  have hcall : ∀ {i : Nat} {r : Run}, runs[i]? = some r →
      (runs.map Run.call)[i]? = some r.call := by
    intro i r hr
    rw [List.getElem?_map, hr]
    rfl
  refine ⟨?_, hi.not_aborted id, ?_, ?_, ?_, ?_⟩
  · intro s p size bytes nrepeat h
    obtain ⟨r, hr, -, -, hsize, hnrepeat⟩ := mem_log hi h
    exact ⟨r.call, hcall hr, hsize, hnrepeat⟩
  · intro s p e h
    obtain ⟨r, hr, -, -, hev⟩ := mem_log hi h
    cases e with
    | mark k => exact ⟨k, rfl⟩
    | printf msg => exact hev.elim
    | mismatch m =>
      have h₁ := hruns r (List.mem_of_getElem? hr)
      have h₂ := r.nrepeat_lt
      have hk : (toUint32 r.nrepeat).toNat ≠ 0 := by
        rw [toNat_toUint32 (by omega) (by omega)]
        omega
      rw [RunEvent, reports_eq_nil horder s _ hk] at hev
      exact absurd hev List.not_mem_nil
  · intro s call x h
    obtain ⟨r, hr, -, -, hx⟩ := mem_log hi h
    exact hx
  · intro s p buf h
    obtain ⟨hsend, r, hr, hlen⟩ := sending_of_received hi h
    exact ⟨hsend, r.call, hcall hr, hlen⟩
  · intro h s
    exact ⟨hi.chan_of_returned h s, fun a ha => (hi.returned ha).2⟩

/-- A run of one byte. -/
def oneByte : Run := ⟨8, 1, by decide, by decide, by decide, by decide⟩

/-- Two runs of one byte each, as far as they get in two hundred steps. -/
theorem session_intact_oneByte :
    Intact [(8, 1), (8, 1)] ((sessionDuo littleHosts [(8, 1), (8, 1)]).drive advance 200).config :=
  session_intact littleHosts rfl (fun _ => ⊤) [oneByte, oneByte] (by decide) _
    (steps_sessionDuo littleHosts [(8, 1), (8, 1)] 200)

/-- A size of `2 ^ 31` is refused on the transmitter's side, and the receiver takes the header of
    the second call for that of the first. -/
theorem session_not_intact_of_refused :
    ¬ ∀ c, Steps (sockets (fun _ => ⊤) True False) advance
      (sessionStart littleHosts [(2 ^ 31, 1), (8, 1)]) c → Intact [(2 ^ 31, 1), (8, 1)] c := by
  intro h
  have hlog : did ⟨0, 0⟩ (.params 8 1 1) ∈ (((sessionDuo littleHosts
      [(2 ^ 31, 1), (8, 1)]).drive advance 60).config.party .right).log := by decide +kernel
  obtain ⟨call, hcall, hsize, -⟩ :=
    (h _ (steps_sessionDuo littleHosts _ 60)).decoded .right _ _ _ _ hlog
  obtain rfl : (2 ^ 31, 1) = call := by simpa using hcall
  exact absurd hsize (by decide)

/-! ## Synchronisation -/

/-- The party is in the timed loop of run `i`. -/
def InTimedLoop (p : Party Pos Site Event (List PyResult)) (i : Nat) : Prop :=
  did ⟨i, 0⟩ .timedLoop ∈ p.log ∧ ∀ j, did ⟨i, j⟩ .timedLoopEnd ∉ p.log

/-- The party, on side `s`, has done all that comes before `Sync` in run `i`. -/
def Ready (H : Hosts) (s : Side) (p : Party Pos Site Event (List PyResult)) (i : Nat) : Prop :=
  did ⟨i, 0⟩ .myMalloc ∈ p.log ∧ did ⟨i, 0⟩ .initBufferData ∈ p.log ∧
    did ⟨i, 0⟩ .afterAlignmentInit ∈ p.log ∧
    (H.asyncReceive s = true → did ⟨i, 0⟩ .prepareToReceive ∈ p.log)

/-- What `Sync` is there for. -/
structure Synchronised (H : Hosts) (c : Config Pos Site Event (List PyResult)) : Prop where
  /-- Whoever is in the timed loop of a run knows the other side ready for it. -/
  ready : ∀ s i, InTimedLoop (c.party s) i → Ready H s.other (c.party s.other) i
  /-- Every byte a `Sync` takes is of the string sent for the same run. -/
  token : ∀ s call x, .got call x ∈ (c.party s).log → call.site = .sync →
    x.stamp.site = .sync ∧ x.stamp.pos.run = call.pos.run

/-- **`Sync` is a barrier** for every run of a session, even where allocation may fail. -/
theorem session_synchronised (H : Hosts) (cap : Side → ℕ∞) (short fails : Prop)
    (runs : List Run) (c : Config Pos Site Event (List PyResult))
    (hc : Steps (sockets cap short fails) advance (sessionStart H (runs.map Run.call)) c) :
    Synchronised H c := by
  obtain ⟨script, hi⟩ := session_inv (controlled_sockets cap short fails) hc
  constructor
  · rintro s i ⟨hloop, -⟩
    obtain ⟨r, hr, -⟩ := mem_log hi hloop
    have hready := ready_of_timedLoop hi hloop hr
    refine ⟨hready _ ?_, hready _ ?_, hready _ ?_, fun hasync => hready _ ?_⟩
    · simp [prepScript]
    · simp [prepScript]
    · simp [prepScript]
    · simp [prepScript, hasync]
  · intro s call x h hsite
    obtain ⟨r, hr, -, -, hx⟩ := mem_log hi h
    rw [hx]
    exact ⟨hsite, rfl⟩

/-- Two runs of one byte each, as far as they get in two hundred steps. -/
theorem session_synchronised_oneByte :
    Synchronised littleHosts
      ((sessionDuo littleHosts [(8, 1), (8, 1)]).drive advance 200).config :=
  session_synchronised littleHosts (fun _ => ⊤) True False [oneByte, oneByte] _
    (steps_sessionDuo littleHosts [(8, 1), (8, 1)] 200)

/-- With the first call refused, the receiver's first `Sync` is satisfied by the string of the
    transmitter's second call. -/
theorem session_not_synchronised_of_refused :
    ¬ ∀ c, Steps (sockets (fun _ => ⊤) True False) advance
      (sessionStart littleHosts [(2 ^ 31, 1), (8, 1)]) c → Synchronised littleHosts c := by
  intro h
  have hlog : .got ⟨⟨0, 0⟩, .sync⟩ ⟨0x53, ⟨⟨1, 0⟩, .sync⟩⟩ ∈ (((sessionDuo littleHosts
      [(2 ^ 31, 1), (8, 1)]).drive advance 60).config.party .right).log := by decide +kernel
  have := ((h _ (steps_sessionDuo littleHosts _ 60)).token .right _ _ hlog rfl).2
  exact absurd this (by decide)

end NetPipe.Tcp
