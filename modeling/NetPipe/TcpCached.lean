/-
  A TCP run in cached mode.

  With `cache` set, `run_iters` makes the send buffer the receive buffer.  The transmitter sends
  what `InitBufferData` left there, the receiver's `RecvData` stores it over its own, and from then
  on the two sides pass the same bytes to and fro.

  1. **The script** (`follows_cached`).  The load-bearing observation: once the receiver has got
     its first message both buffers hold the transmitter's first one, the pattern of 'a' with a
     last byte 0, and every further message is a copy of what is there already.  So the number of
     iterations does not matter, and one script serves for all of them.

  2. **Both sides** (`cached_inv`, `cached_completes`): the plan and its order are those of a
     session of one run, with other payloads.

  3. **What the check says** (`cached_silent_iff`).  `CheckBufferData` looks for the pattern of
     'b'.  `cachedFill_eq_pattern_iff` says where the two agree; so the check is silent on both
     sides only between big-endian hosts, for one byte or two.
-/
import NetPipe.Cached
import NetPipe.Integrity
import NetPipe.TcpOrder

namespace NetPipe.Tcp

open Memory Process Duplex

/-! ## The two patterns -/

/-- The patterns of 'a' and 'b' part within two bytes, whatever the two byte orders. -/
theorem pattern_two_ne (o o' : ByteOrder) : pattern o 97 2 ≠ pattern o' 98 2 := by
  cases o <;> cases o' <;> decide

/-- The first buffer of a host of byte order `o` is the pattern of 'b' of a host of byte order `o'`
    where the latter is big-endian, for one byte, or for two that a big-endian host wrote. -/
theorem cachedFill_eq_pattern_iff (o o' : ByteOrder) {n : Nat} (hn : 0 < n) :
    cachedFill o n = pattern o' 98 n ↔ o' = .big ∧ (n = 1 ∨ n = 2 ∧ o = .big) := by
  rcases (by omega : n = 1 ∨ n = 2 ∨ 3 ≤ n) with rfl | rfl | hn
  · cases o <;> cases o' <;> decide
  · cases o <;> cases o' <;> decide
  · -- the first two bytes are those of 'a'
    refine iff_of_false (fun h => pattern_two_ne o o' ?_) (by omega)
    have h' := congrArg (List.take 2) h
    rwa [cachedFill, List.take_append_of_le_length (by simp; omega), List.take_take,
      Nat.min_eq_left (by omega), pattern_take o 97 (by omega), pattern_take o' 98 (by omega)] at h'

/-! ## The script -/

/-- The settings of a host with `cache` set. -/
def Hosts.cached (H : Hosts) (s : Side) : Settings := { (H.host s).settings with cache := true }

/-- What both sides send in cached mode: the first buffer of the transmitter. -/
def Hosts.bounced (H : Hosts) (n : Nat) : List UInt8 := cachedFill (H.order .left) n

/-- What `CheckBufferData` reports at the end of a run in cached mode. -/
def Hosts.cachedReports (H : Hosts) (s : Side) (n : Nat) : List Mismatch :=
  differences (H.order s) (pattern (H.order s) 98 n) (H.bounced n) n

/-- One run in cached mode, of at least one iteration. -/
def cachedScript (H : Hosts) (s : Side) (r : Run) : List TcpAct :=
  let n := nbytes (toUint32 r.size)
  exchangeScript (H.asyncReceive s) s 0 (toUint32 r.size) (toUint32 r.nrepeat) (H.bounced n)
    (H.bounced n) (H.cachedReports s n)

/-- Both sides at the start of a run; `h` are the two hosts, which may have runs behind them. -/
def runStart (h : Side → Host) (r : Run) : Config Pos Site Event (PyResult × Host) :=
  .start ⟨0, 0⟩ fun s => netpipeRunIters tcp (h s) (pyargs s r.call)

/-- One buffer, for receiving and for sending. -/
theorem receives_single (c : Settings) (n : Nat) :
    Receives n fun h r => h.settings = c ∧ Single h n r where
  bufflen hh := hh.2.bufflen
  length hh := hh.2.length
  load hh := hh.2.load_rPtr
  store hh hlen := by
    obtain ⟨heap, hstore, hh'⟩ := hh.2.store_rPtr hlen
    exact ⟨heap, hstore, hh.1, hh'⟩

theorem single_sends {h : Host} {n : Nat} {b : List UInt8} (hh : Single h n b) : Sends h n b := by
  obtain ⟨i, hi, -, -, -, -, hs, -⟩ := hh.block
  exact .of_block hh.bufflen hh.length hi hs

theorem Run.nbytes_pos (r : Run) : 0 < nbytes (toUint32 r.size) :=
  NetPipe.nbytes_pos r.size32_ne_zero

theorem Hosts.bounced_length (H : Hosts) (r : Run) :
    (H.bounced (nbytes (toUint32 r.size))).length = nbytes (toUint32 r.size) :=
  cachedFill_length (H.order .left) r.nbytes_pos

/-! ## The programs keep to the script -/

section follows

variable {D : Discipline Site} {waits : Stamp Pos Site → Prop} {p : Pos} {rest : List TcpAct}

/-- `run_iters` up to `Sync`. -/
theorem script_prep_cached {h : Host} (hcache : h.args.cache = true) {size nrepeat : UInt32}
    (hsize : size ≠ 0) {Q : PyResult × Host → Pos × List TcpAct → Prop}
    (hQ : ∀ h', h'.settings = h.settings →
      Single h' (nbytes size) (cachedFill h.order (nbytes size)) →
      wp (scriptHandler D advance waits) (sync h')
        (fun h' => wp (scriptHandler D advance waits) (measureRun tcp h' size nrepeat) Q)
        (p, rest)) :
    wp (scriptHandler D advance waits) (runBody tcp h size nrepeat) Q
      (p, prepScript h.asyncReceive p size nrepeat ++ rest) := by
  refine wp_runBody_cached tcp_generic sane_scriptHandler hcache hsize
    ⟨_, rfl, _, rfl, _, rfl, _, rfl, ?_⟩
  intro h' hset hh
  have hasync : h'.asyncReceive = h.asyncReceive := congrArg Settings.asyncReceive hset
  have := script_syncRun (hQ h' hset hh)
  rwa [hasync] at this

/-- The end of a run: the check finds the differences between what went to and fro and the pattern
    of 'b'. -/
theorem script_close_cached (H : Hosts) {s : Side} {h : Host} (hset : h.settings = H.cached s)
    {r : Run} (hh : Single h (nbytes (toUint32 r.size)) (H.bounced (nbytes (toUint32 r.size))))
    {t0 : Nat} {Q : PyResult × Host → Pos × List TcpAct → Prop}
    (hQ : ∀ h' t, h'.settings = H.cached s →
      Q (.tuple (toInt32 (toUint32 r.size)) (toInt32 (toUint32 r.nrepeat)) t, h')
        (⟨p.run + 1, 0⟩, rest)) :
    wp (scriptHandler D advance waits)
      (closeRun tcp h (toUint32 r.size) (toUint32 r.nrepeat) t0) Q
      (p, closeScript p (H.cachedReports s (nbytes (toUint32 r.size))) ++ rest) := by
  have horder : h.order = H.order s := congrArg Settings.order hset
  have hms := lfsrcheck_eq (H.order s) 98 (Nat.le_of_eq (H.bounced_length r).symm)
  rw [← horder] at hms
  simp only [closeScript, List.cons_append, List.append_assoc]
  refine wp_closeRun_cached tcp_generic (congrArg Settings.cache hset) hh (nbytes_lt _) hms ?_
  rw [horder]
  exact ⟨_, rfl, script_report _ ⟨_, rfl, fun h' t hset' => hQ h' t (hset'.trans hset)⟩⟩

/-- **The run in cached mode**, on either side: what the transmitter sends first is what both sides
    send and receive in every iteration. -/
theorem follows_cached (hD : Controlled D) (H : Hosts) {s : Side} {h : Host}
    (hset : h.settings = H.cached s) {r : Run} (hrep : 1 ≤ r.nrepeat) :
    Follows D advance waits (fun a => Timed r.call a.1)
      (netpipeRunIters tcp h (pyargs s r.call)) (⟨0, 0⟩, cachedScript H s r) := by
  have hrcv : h.args.rcv = decide (s = .right) :=
    (congrArg Settings.rcv hset).trans (H.host_rcv s)
  have htr : h.args.tr = decide (s = .left) := (congrArg Settings.tr hset).trans (H.host_tr s)
  have horder : h.order = H.order s := congrArg Settings.order hset
  have hasync : h.asyncReceive = H.asyncReceive s := congrArg Settings.asyncReceive hset
  have hiter : (toUint32 r.nrepeat).toNat ≠ 0 := by
    rw [r.toNat_nrepeat]
    omega
  refine script_header hD htr hrcv ?_
  rw [← hasync]
  refine script_prep_cached (congrArg Settings.cache hset) r.size32_ne_zero ?_
  intro h₁ hset₁ hh₁
  rw [horder] at hh₁
  have htr₁ : h₁.args.tr = decide (s = .left) := (congrArg Settings.tr hset₁).trans htr
  refine script_exchange (receives_single h₁.settings _) (H.bounced_length r)
    (fun h₂ b hh => (congrArg Settings.tr hh.1).trans htr₁) (fun h₂ hh => single_sends hh.2) hD
    ⟨rfl, hh₁⟩ ?_ fun h₂ t0 ⟨hset₂, hh₂⟩ => ?_
  · -- the transmitter's buffer is as `InitBufferData` left it
    intro hs
    subst hs
    exact single_sends hh₁
  · rw [if_neg hiter] at hh₂
    rw [← List.append_nil (closeScript _ _)]
    exact script_close_cached H (hset₂.trans (hset₁.trans hset)) hh₂
      fun h' t _ => ⟨rfl, t, r.toInt32_eq t⟩

end follows

/-! ## Both sides -/

/-- The plan of a run in cached mode. -/
def cachedPlan (H : Hosts) (r : Run) : Plan Pos Site Event where
  full s := cachedScript H s r
  tail _ := []
  waits _ _ := False
  balanced s := by
    rw [cachedScript, cachedScript, puts_exchangeScript, gots_exchangeScript, Side.other_other,
      List.append_nil]
  waits_tail _ _ _ := rfl

section runs

variable {H : Hosts} {h : Side → Host} (hh : ∀ s, (h s).settings = H.cached s) {r : Run}
  (hrep : 1 ≤ r.nrepeat) {D : Discipline Site} {c : Config Pos Site Event (PyResult × Host)}

include hh hrep

theorem cached_inv (hD : Controlled D) (hc : Steps D advance (runStart h r) c) :
    ∃ script, Inv D advance (cachedPlan H r) (fun _ a => Timed r.call a.1) c script :=
  (Inv.start fun s => follows_cached hD H (hh s) hrep).steps hc

omit hh hrep in
/-- A run in cached mode is in order as soon as both streams have room for six bytes. -/
theorem cached_timely (hcap : ∀ s, 6 ≤ D.cap s) : (cachedPlan H r).Timely D rank where
  ordered s := by
    rw [Plan.whole, show (cachedPlan H r).tail s.other = [] from rfl, List.map_nil,
      List.append_nil]
    exact (spans_exchange _ s 0 _ _ _ _ _).sorted
  window s x hx := by
    have hsent : ∀ s x, x ∈ puts ((cachedPlan H r).full s) → Sent s 0 x := by
      intro s x hx
      rw [show (cachedPlan H r).full s = cachedScript H s r from rfl, cachedScript,
        puts_exchangeScript] at hx
      exact sent_of_wire hx
    refine le_trans (Nat.cast_le.mpr ?_) (hcap s.other)
    rw [Plan.gots_whole, ← List.countP_eq_length_filter]
    refine le_trans (List.countP_mono_left fun y hy h =>
      ofSync_of_rank (hsent s x hx) (hsent s.other y hy) (by simpa using h)) (Nat.le_of_eq ?_)
    rw [show (cachedPlan H r).full s.other = cachedScript H s.other r from rfl, cachedScript,
      puts_exchangeScript, countP_wire, if_pos rfl]
  tail_cap _ := bot_le
  cap_pos s := le_trans (by decide) (hcap s)

/-- A run in cached mode completes, whatever the length of its messages. -/
theorem cached_completes {cap : Side → ℕ∞} (hcap : ∀ s, 6 ≤ cap s) (short : Prop) :
    Completes (sockets cap short False) advance (runStart h r) fun _ a => Timed r.call a.1 := by
  refine .of_stuck ?_
  intro c hc hstuck s
  obtain ⟨script, hi⟩ := cached_inv hh hrep (controlled_sockets cap short False) hc
  rcases (hi.stuck_done (cached_timely hcap) id hstuck s).2 with ha | ⟨site, n, k, -, hw⟩
  · exact ha
  · exact hw.elim

/-- There are runs that complete. -/
theorem exists_cached_run :
    ∃ c, Steps (sockets (fun _ => ⊤) False False) advance (runStart h r) c ∧
      ∀ s, ∃ a, (c.party s).Returned a := by
  obtain ⟨c, hc, hstuck⟩ : ∃ c, Steps (sockets (fun _ => ⊤) False False) advance (runStart h r) c ∧
      Stuck (sockets (fun _ => ⊤) False False) advance c := exists_stuck _
  refine ⟨c, hc, ?_⟩
  intro s
  obtain ⟨a, ha, -⟩ := (cached_completes hh hrep (fun _ => le_top) False).returned c hc hstuck s
  exact ⟨a, ha⟩

end runs

/-! ## What the check says -/

/-- Neither side has reported a mismatch. -/
def Silent (c : Config Pos Site Event (PyResult × Host)) : Prop :=
  ∀ s p m, .did p (.mismatch m) ∉ (c.party s).log

/-- The reports of a run are those of its script. -/
theorem mismatch_mem_exchangeScript {async : Bool} {s : Side} {i : Nat} {size nrepeat : UInt32}
    {own peer : List UInt8} {ms : List Mismatch} {m : Mismatch} :
    (∃ p, .did p (.mismatch m) ∈ exchangeScript async s i size nrepeat own peer ms) ↔ m ∈ ms := by
  have hhead : ∀ p, .did p (.mismatch m) ∉ headScript s ⟨i, 0⟩ size nrepeat := by
    cases s <;> simp [headScript]
  have hprep : ∀ p, .did p (.mismatch m) ∉ prepScript async ⟨i, 0⟩ size nrepeat := by
    cases async <;> simp [prepScript, did]
  have hloop : ∀ p, .did p (.mismatch m) ∉ loopScript s i own peer 0 nrepeat.toNat := by
    cases s <;> simp [loopScript, iterScript, sendScript, recvScript, did]
  simp [exchangeScript, syncScript, closeScript, did, hhead, hprep, hloop]

section runs

variable {H : Hosts} {r : Run} {D : Discipline Site}
  {c : Config Pos Site Event (PyResult × Host)} {script : Side → List TcpAct}

/-- A completed run has reported nothing exactly if what went to and fro is the pattern of 'b' on
    both sides. -/
theorem silent_iff_pattern
    (hi : Inv D advance (cachedPlan H r) (fun _ a => Timed r.call a.1) c script)
    (hret : ∀ s, ∃ a, (c.party s).Returned a) :
    Silent c ↔ ∀ s, H.bounced (nbytes (toUint32 r.size)) =
      pattern (H.order s) 98 (nbytes (toUint32 r.size)) := by
  refine forall_congr' ?_
  intro s
  obtain ⟨a, ha⟩ := hret s
  have hlog : (c.party s).log = cachedScript H s r := by
    have := hi.log_script s
    rwa [(hi.returned ha).1, List.append_nil] at this
  have hreports : (∀ p m, .did p (.mismatch m) ∉ (c.party s).log) ↔
      H.cachedReports s (nbytes (toUint32 r.size)) = [] := by
    rw [List.eq_nil_iff_forall_not_mem, forall_comm, hlog]
    exact forall_congr' fun m =>
      not_exists.symm.trans (not_congr mismatch_mem_exchangeScript)
  have hlen := H.bounced_length r
  rw [hreports, Hosts.cachedReports,
    differences_pattern_eq_nil_iff (H.order s) 98 (Nat.le_of_eq hlen.symm),
    List.take_of_length_le (Nat.le_of_eq hlen)]

/-- What goes to and fro is the pattern of 'b' on both sides exactly there. -/
theorem bounced_eq_pattern_iff (H : Hosts) (r : Run) :
    (∀ s, H.bounced (nbytes (toUint32 r.size)) =
      pattern (H.order s) 98 (nbytes (toUint32 r.size))) ↔
      (∀ s, H.order s = .big) ∧ nbytes (toUint32 r.size) ≤ 2 := by
  have hpos := r.nbytes_pos
  have heq := fun s => cachedFill_eq_pattern_iff (H.order .left) (H.order s) hpos
  refine (forall_congr' heq).trans ⟨fun h => ⟨fun s => (h s).1, ?_⟩, fun ⟨hbig, hn⟩ s =>
    ⟨hbig s, ?_⟩⟩
  · rcases (h .left).2 with hn | ⟨hn, -⟩ <;> omega
  · rcases (by omega : nbytes (toUint32 r.size) = 1 ∨ nbytes (toUint32 r.size) = 2) with hn | hn
    · exact Or.inl hn
    · exact Or.inr ⟨hn, hbig .left⟩

end runs

/-- **Cached mode and its integrity check**: a completed run of at least one iteration, over sockets
    that lose and change nothing, has reported no mismatch exactly if both hosts are big-endian and
    the message is one byte or two. -/
theorem cached_silent_iff (H : Hosts) (h : Side → Host) (hh : ∀ s, (h s).settings = H.cached s)
    (cap : Side → ℕ∞) (short fails : Prop) (r : Run) (hrep : 1 ≤ r.nrepeat)
    (c : Config Pos Site Event (PyResult × Host))
    (hc : Steps (sockets cap short fails) advance (runStart h r) c)
    (hret : ∀ s, ∃ a, (c.party s).Returned a) :
    Silent c ↔ (∀ s, H.order s = .big) ∧ nbytes (toUint32 r.size) ≤ 2 := by
  obtain ⟨script, hi⟩ := cached_inv hh hrep (controlled_sockets cap short fails) hc
  exact (silent_iff_pattern hi hret).trans (bounced_eq_pattern_iff H r)

/-- The hosts of `H`, with `cache` set. -/
def Hosts.cachedHost (H : Hosts) (s : Side) : Host :=
  let h := H.host s
  { h with args.cache := true }

/-- One iteration of a message of two bytes between big-endian hosts. -/
theorem cached_silent_twoBytes :
    ∃ c, Steps (sockets (fun _ => ⊤) False False) advance
      (runStart (Hosts.cachedHost ⟨fun _ => .big, fun _ => false⟩)
        ⟨16, 1, by decide, by decide, by decide, by decide⟩) c ∧
      (∀ s, ∃ a, (c.party s).Returned a) ∧ Silent c := by
  obtain ⟨c, hc, hret⟩ := exists_cached_run (H := ⟨fun _ => .big, fun _ => false⟩)
    (h := Hosts.cachedHost ⟨fun _ => .big, fun _ => false⟩) (fun _ => rfl)
    (r := ⟨16, 1, by decide, by decide, by decide, by decide⟩) (by decide)
  exact ⟨c, hc, hret, (cached_silent_iff ⟨fun _ => .big, fun _ => false⟩ _ (fun _ => rfl) _ False
    False _ (by decide) c hc hret).mpr ⟨fun _ => rfl, by decide⟩⟩

/-- One iteration of a message of eight bytes between little-endian hosts: the transfer is perfect,
    and the check reports mismatches. -/
theorem cached_reports_mismatch :
    ¬ ∀ c, Steps (sockets (fun _ => ⊤) False False) advance
      (runStart (Hosts.cachedHost ⟨fun _ => .little, fun _ => false⟩)
        ⟨64, 1, by decide, by decide, by decide, by decide⟩) c →
      (∀ s, ∃ a, (c.party s).Returned a) → Silent c := by
  intro hall
  have hh : ∀ s, (Hosts.cachedHost ⟨fun _ => .little, fun _ => false⟩ s).settings =
      Hosts.cached ⟨fun _ => .little, fun _ => false⟩ s := fun _ => rfl
  obtain ⟨c, hc, hret⟩ := exists_cached_run hh
    (r := ⟨64, 1, by decide, by decide, by decide, by decide⟩) (by decide)
  obtain ⟨script, hi⟩ := cached_inv hh (by decide) (controlled_sockets _ _ _) hc
  have hpat := (silent_iff_pattern hi hret).mp (hall c hc hret)
  exact absurd (hpat .left) (by decide)

end NetPipe.Tcp
