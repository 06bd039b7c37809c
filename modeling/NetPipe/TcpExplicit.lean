/-
  A run in which both sides are given the same explicit arguments.

  The transmitter writes size and repeat count whatever the receiver was called with; a receiver
  that has its own arguments does not read them.  The two then do not fit together any more, and
  there is no plan for them; but they can be counted (`Lib.Tally`).

  1. **One side** (`tally_transmitter`, `tally_receiver`).  Whoever is across and whatever it
     sends, a transmitter that returns has put eight bytes more than the loop and `Sync` account
     for, and a receiver that returns has got just what these account for.  Where the
     arguments are refused the transmitter puts nothing, and the receiver gets a header.

  2. **Both** (`explicit_not_drained`).  So when both return, by conservation these eight bytes are
     still in the stream: the run cannot complete with both streams empty
     (`explicit_incomplete`), for any arguments and any room in the sockets.
-/
import NetPipe.Lib.Tally
import NetPipe.TcpSafety

namespace NetPipe.Tcp

open Memory Process Duplex

/-! ## Counting the bytes of a run -/

section tally

variable {D : Discipline Site} {a b : Nat}

theorem sane_tallyHandler : Sane (tallyHandler Event D) where
  alloc_length := by
    rintro n bs (⟨bs', hbs, hlen⟩ | ⟨-, h⟩)
    · injection hbs with hbs
      rw [hbs]
      exact hlen
    · cases h
  alloc_fail _ _ _ _ := trivial

/-- A control write counts in full. -/
theorem tally_write (hD : Controlled D) {site : Site} (hsite : site ≠ .data) {bs : List UInt8}
    {α : Type} {k : Option Nat → TcpProg α} {Q : α → Nat × Nat → Prop}
    (hQ : wp (tallyHandler Event D) (k (some bs.length)) Q (a + bs.length, b)) :
    wp (tallyHandler Event D) (.io (.write site bs) k) Q (a, b) :=
  ⟨hQ, fun hshort => absurd (hD site hshort) hsite⟩

/-- `readFully` gets all it is asked for. -/
theorem tally_readFully {site : Site} {buf post : List UInt8} {len : Nat}
    {Q : Int × List UInt8 → Nat × Nat → Prop} (hbuf : buf.length = len) (hlen : 0 < len)
    (hQ : ∀ got, Q (len, got ++ post) (a, b + len)) :
    wp (tallyHandler Event D) (readFully site (buf ++ post) len) Q (a, b) := by
  refine wp_readFully (I := fun got st => st = (a, b + got.length)) hbuf ?_ ?_ hlen rfl
  · rintro got st rfl hlt bs hne hle
    refine .of_ne_nil hne hle ?_
    rw [List.length_append, Nat.add_assoc]
  · rintro got st rfl rfl
    exact hQ got

theorem tally_sendRepeat (hD : Controlled D) {h : Host} {rpt : UInt32}
    {Q : Host → Nat × Nat → Prop} (hQ : Q h (a + 4, b)) :
    wp (tallyHandler Event D) (sendRepeat h rpt) Q (a, b) := by
  refine tally_write hD (by decide) ?_
  rw [toBytes_length]
  exact hQ

/-- `Sync` puts six bytes and gets six, or leaves the process. -/
theorem tally_sync (hD : Controlled D) {h : Host} {Q : Host → Nat × Nat → Prop}
    (hQ : Q h (a + 6, b + 6)) : wp (tallyHandler Event D) (sync h) Q (a, b) := by
  refine tally_write hD (by decide)
    (wp_bind (tally_readFully List.length_replicate (by decide) ?_))
  intro got
  simp only [Nat.cast_ofNat, Int.reduceLT, if_false]
  split
  · trivial
  · exact hQ

variable {n : Nat} {r s : List UInt8}

theorem tally_sendMarked {h : Host} (hh : Armed h n r s) {Q : Host → Nat × Nat → Prop}
    (hQ : Q h (a + n, b)) : wp (tallyHandler Event D) (sendMarked tcp h) Q (a, b) := by
  refine (wp_sendData (armed_sends hh) (I := fun off st => st = (a + off, b)) ?_ ?_ rfl :
    wp (tallyHandler Event D) (sendData h) Q (a, b))
  · rintro off st rfl hoff
    have hlen : (s.drop off).length = n - off := by rw [List.length_drop, hh.length_s]
    exact ⟨.of_pos (by omega) (by omega) (by rw [Nat.add_assoc]),
      fun _ j h0 hj => .of_pos h0 (by omega) (by rw [Nat.add_assoc])⟩
  · rintro st rfl
    exact hQ

theorem tally_recvMarked {h : Host} (hh : Armed h n r s) {Q : Host → Nat × Nat → Prop}
    (hQ : ∀ h' r', h'.settings = h.settings → Armed h' n r' s → Q h' (a, b + n)) :
    wp (tallyHandler Event D) (recvMarked tcp h) Q (a, b) := by
  refine wp_bind (wp_recvData (receives_armed h.settings n s)
    (I := fun got st => st = (a, b + got.length)) ?_ ?_ ⟨rfl, hh⟩ rfl)
  · rintro got st rfl hlt bs hne hle
    refine .of_ne_nil hne hle ?_
    rw [List.length_append, Nat.add_assoc]
  · rintro got h' st rfl ⟨hset, hh'⟩
    rw [hh'.length_r]
    exact hQ h' got hset hh'

/-- The timed loop, by induction: each iteration puts and gets one message. -/
theorem tally_timedLoop (k : Nat) : ∀ (h : Host) (r : List UInt8) (a b : Nat)
    (Q : Host → Nat × Nat → Prop), Armed h n r s →
    (∀ h' r', h'.settings = h.settings → Armed h' n r' s → Q h' (a + k * n, b + k * n)) →
    wp (tallyHandler Event D) (timedLoop tcp k h) Q (a, b) := by
  induction k with
  | zero =>
    intro h r a b Q hh hQ
    have := hQ h r rfl hh
    rwa [Nat.zero_mul, Nat.add_zero, Nat.add_zero] at this
  | succ k ih =>
    intro h r a b Q hh hQ
    have hrest : ∀ h' r', h'.settings = h.settings → Armed h' n r' s →
        wp (tallyHandler Event D) (timedLoop tcp k h') Q (a + n, b + n) := by
      intro h' r' hset hh'
      refine ih h' r' _ _ Q hh' ?_
      intro h'' r'' hset' hh''
      have := hQ h'' r'' (hset'.trans hset) hh''
      rwa [Nat.succ_mul, Nat.add_comm (k * n), ← Nat.add_assoc, ← Nat.add_assoc] at this
    rw [timedLoop]
    cases h.args.tr with
    | true =>
      simp only [if_true, Proc.bind_eq]
      exact wp_bind (tally_sendMarked hh (wp_bind (tally_recvMarked hh hrest)))
    | false =>
      simp only [Bool.false_eq_true, if_false, Proc.bind_eq]
      exact wp_bind (tally_recvMarked hh fun h' r' hset hh' =>
        wp_bind (tally_sendMarked hh' (hrest h' r' hset hh')))

/-- **The body of a run** puts and gets the synchronisation string and one message for each
    iteration. -/
theorem tally_runBody (hD : Controlled D) {h : Host} (hcache : h.args.cache = false)
    {size nrepeat : UInt32} {Q : PyResult × Host → Nat × Nat → Prop}
    (hQ : ∀ x, Q x (a + 6 + nrepeat.toNat * nbytes size, b + 6 + nrepeat.toNat * nbytes size)) :
    wp (tallyHandler Event D) (runBody tcp h size nrepeat) Q (a, b) := by
  refine wp_runBody tcp_generic sane_tallyHandler hcache ?_
  intro h₁ hsame₁ hh₁
  have hsync : wp (tallyHandler Event D) (syncRun tcp h₁)
      (fun h' st => h' = h₁ ∧ st = (a + 6, b + 6)) (a, b) := by
    unfold syncRun
    cases h₁.asyncReceive <;> exact tally_sync hD ⟨rfl, rfl⟩
  refine wp_mono ?_ hsync
  rintro h' st ⟨rfl, rfl⟩ t0
  show wp _ ((timedLoop tcp nrepeat.toNat h').bind fun h => closeRun tcp h size nrepeat t0) Q _
  refine wp_bind (tally_timedLoop _ h' _ _ _ _ hh₁ ?_)
  intro h₂ r₂ hset₂ hh₂
  obtain ⟨⟨ms, d⟩, hms⟩ := lfsrcheck_total h₂.order 98 (Nat.le_of_eq hh₂.length_r.symm)
  have hcache₂ : h₂.args.cache = false :=
    (congrArg Settings.cache (hset₂.trans hsame₁.settings)).trans hcache
  exact wp_closeRun tcp_generic hcache₂ hh₂ (nbytes_lt size) hms
    (wp_report_const (fun _ _ => id) ms fun _ t _ => hQ _)

variable {h : Host} {pyargs : List Int} {size nrepeat : UInt32}

/-- A transmitter with accepted arguments: header, synchronisation string, payloads. -/
theorem tally_transmitter (hD : Controlled D) (hcache : h.args.cache = false)
    (htr : h.args.tr = true) (hargs : pyArgParseTuple pyargs = some (size, nrepeat)) :
    wp (tallyHandler Event D) (session tcp h [pyargs])
      (fun _ st => st.1 = 14 + nrepeat.toNat * nbytes size) (0, 0) := by
  apply wp_bind
  simp only [netpipeRunIters, hargs, runWith, htr, if_true]
  exact wp_bind (tally_sendRepeat hD (wp_bind (tally_sendRepeat hD
    (tally_runBody hD hcache fun _ => rfl))))

/-- A receiver with accepted arguments: synchronisation string and payloads, no header. -/
theorem tally_receiver (hD : Controlled D) (hcache : h.args.cache = false)
    (htr : h.args.tr = false) (hargs : pyArgParseTuple pyargs = some (size, nrepeat)) :
    wp (tallyHandler Event D) (session tcp h [pyargs])
      (fun _ st => st.2 = 6 + nrepeat.toNat * nbytes size) (0, 0) := by
  apply wp_bind
  simp only [netpipeRunIters, hargs, runWith, htr]
  exact tally_runBody hD hcache fun _ => congrArg (· + _) (Nat.zero_add 6)

/-- A transmitter with refused arguments puts nothing. -/
theorem tally_transmitter_refused (hrcv : h.args.rcv = false)
    (hargs : pyArgParseTuple pyargs = none) :
    wp (tallyHandler Event D) (session tcp h [pyargs]) (fun _ st => st.1 = 0) (0, 0) := by
  apply wp_bind
  simp only [netpipeRunIters, hargs, hrcv]
  rfl

/-- `RecvRepeat` gets four bytes. -/
theorem tally_recvRepeat {Q : UInt32 × Host → Nat × Nat → Prop}
    (hQ : ∀ v, Q (v, h) (a, b + 4)) : wp (tallyHandler Event D) (recvRepeat h) Q (a, b) := by
  unfold recvRepeat
  rw [← List.append_nil (List.replicate 4 0)]
  refine wp_bind (tally_readFully List.length_replicate (by decide) ?_)
  intro got
  exact hQ _

/-- A receiver with refused arguments gets a header before it does anything else. -/
theorem tally_receiver_refused (hrcv : h.args.rcv = true)
    (hargs : pyArgParseTuple pyargs = none) :
    wp (tallyHandler Event D) (session tcp h [pyargs]) (fun _ st => 8 ≤ st.2) (0, 0) := by
  apply wp_bind
  simp only [netpipeRunIters, hargs, hrcv, if_true]
  refine wp_bind (tally_recvRepeat fun size => wp_bind (tally_recvRepeat ?_))
  intro nrepeat
  exact wp_mono (fun _ _ h => h) (tally_mono _ _ (le_refl 8))

end tally

/-! ## The run -/

/-- Both sides about to call `run_iters(size, iters)`. -/
def explicitStart (H : Hosts) (size iters : Int) : Config Pos Site Event (List PyResult) :=
  .start ⟨0, 0⟩ fun s => session tcp (H.host s) [[size, iters]]

/-- The two calls never both return and leave both streams empty. -/
theorem explicit_not_drained (H : Hosts) {D : Discipline Site} (hD : Controlled D)
    (size iters : Int) {c : Config Pos Site Event (List PyResult)}
    (hc : Steps D advance (explicitStart H size iters) c) :
    ¬ ∀ s, (∃ a, (c.party s).Returned a) ∧ c.chan s = [] := by
  intro h
  obtain ⟨⟨l, hl⟩, hchan⟩ := h .left
  obtain ⟨⟨r, hr⟩, -⟩ := h .right
  have hcons := congrArg List.length (conserved hc .left)
  rw [hchan, List.append_nil, Side.other] at hcons
  cases hargs : pyArgParseTuple [size, iters] with
  | none =>
    have hput := tally_returned hc (tally_transmitter_refused rfl hargs) hl
    have hgot := tally_returned hc (tally_receiver_refused rfl hargs) hr
    simp only at hput hgot
    omega
  | some args =>
    obtain ⟨size', nrepeat⟩ := args
    have hput := tally_returned hc (tally_transmitter hD rfl rfl hargs) hl
    have hgot := tally_returned hc (tally_receiver hD rfl rfl hargs) hr
    simp only at hput hgot
    omega

/-- **The same explicit arguments on both sides never make a complete run**: not every execution
    ends with both calls returned and both streams empty, whatever the arguments. -/
theorem explicit_incomplete (H : Hosts) (cap : Side → ℕ∞) (short : Prop) (size iters : Int) :
    ¬ ∀ c, Steps (sockets cap short False) advance (explicitStart H size iters) c →
      Stuck (sockets cap short False) advance c →
        ∀ s, (∃ a, (c.party s).Returned a) ∧ c.chan s = [] := by
  intro h
  obtain ⟨c, hc, hstuck⟩ : ∃ c, Steps (sockets cap short False) advance
      (explicitStart H size iters) c ∧ Stuck (sockets cap short False) advance c :=
    exists_stuck _
  exact explicit_not_drained H (controlled_sockets cap short False) size iters hc
    (h c hc hstuck)

/-- The arguments of the receiving test. -/
theorem explicit_incomplete_of_test :
    ¬ ∀ c, Steps (sockets (fun _ => ⊤) False False) advance
      (explicitStart littleHosts 8000000 10) c →
        Stuck (sockets (fun _ => ⊤) False False) advance c →
          ∀ s, (∃ a, (c.party s).Returned a) ∧ c.chan s = [] := by
  intro h
  obtain ⟨c, hc, hstuck⟩ : ∃ c, Steps (sockets (fun _ => ⊤) False False) advance
      (explicitStart littleHosts 8000000 10) c ∧
        Stuck (sockets (fun _ => ⊤) False False) advance c := exists_stuck _
  exact explicit_not_drained littleHosts (controlled_sockets _ _ _) 8000000 10 hc
    (h c hc hstuck)

end NetPipe.Tcp
