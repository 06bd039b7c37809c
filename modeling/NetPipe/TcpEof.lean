/-
  A peer that closes the connection in the middle of a run.

  One process is run against a `Feed`: some bytes come in, in pieces of any length, and then every
  `read` answers 0.  The feed counts what the calls of `RecvData` get.

  1. **Before the timed loop** the end of the stream ends the process: `RecvRepeat` insists on
     four bytes and `Sync` finds the wrong string (`feed_recvRepeat`, `feed_sync`).

  2. **In the timed loop** it does not.  `RecvData` prints a line and returns, so every iteration
     gets what is left, `min n m` bytes of the `m` still to come, and the run goes on to its end
     (`feed_timedLoop`).  That is the load-bearing induction: what is still to come, and how much
     the loop has got, is known at every iteration, whichever side sends first.

  3. **The result** (`result_complete_iff`).  So a result stands for a completed run exactly when
     the stream ends outside the loop's part of it.  The one direction is that an execution with a
     result and too few bytes exists for every cut inside (`result_of_cut`), the other that none
     does for a cut outside (`result_of_uncut`).
-/
import NetPipe.TcpSafety

namespace NetPipe.Tcp

open Memory Process Duplex

/-! ## The feed -/

/-- What is still to come in, where the process is, and how many bytes the calls of `RecvData` at
    each position have got. -/
structure Feed where
  incoming : List UInt8
  pos : Pos
  count : Pos → Nat

/-- The next `n` bytes taken, or what there is, by a call at `site`. -/
def Feed.take (f : Feed) (site : Site) (n : Nat) : Feed :=
  { f with
    incoming := f.incoming.drop n
    count := if site = .data then
      Function.update f.count f.pos (f.count f.pos + min n f.incoming.length) else f.count }

/-- The process's surroundings: reads get any part of what is there, and nothing once it is used
    up.  If `ok`, memory is there and writes go through; if not, either may fail or fall short. -/
def feedEnv (ok : Prop) : Env (StreamOp Site) StreamOp.Res Event Feed where
  emit e f := { f with pos := advance e f.pos }
  alloc n r := (∃ bs, r = some bs ∧ bs.length = n) ∨ (¬ ok ∧ r = none)
  answer
    | .write _ bs, f, r, f' => f' = f ∧
        (r = some bs.length ∨ (¬ ok ∧ (r = none ∨ ∃ j ≤ bs.length, r = some j)))
    | .read site n, f, r, f' =>
        ((f.incoming = [] ∨ n = 0) ∧ r = some [] ∧ f' = f) ∨
        ∃ j, 0 < j ∧ j ≤ n ∧ j ≤ f.incoming.length ∧ r = some (f.incoming.take j) ∧
          f' = f.take site j

section feed

variable {ok bad : Prop} {f : Feed}

theorem sane_feed (hbad : ¬ ok → bad) : Sane ((feedEnv ok).handler bad) where
  alloc_length := by
    rintro n bs (⟨bs', hbs, hlen⟩ | ⟨-, h⟩)
    · injection hbs with hbs
      rw [hbs]
      exact hlen
    · cases h
  alloc_fail := by
    rintro n (⟨bs', hbs, -⟩ | ⟨hok, -⟩) c msg s
    · cases hbs
    · exact hbad hok

/-- What a loop has taken so far, in pieces. -/
theorem Feed.take_take {site : Site} {i j : Nat} (hi : i ≤ f.incoming.length)
    (hj : j ≤ f.incoming.length - i) :
    (f.take site i).take site j = f.take site (i + j) := by
  unfold Feed.take
  by_cases hsite : site = .data
  · simp only [hsite, if_true, List.drop_drop, List.length_drop, Function.update_self,
      Function.update_idem]
    rw [Nat.min_eq_left hi, Nat.min_eq_left hj, Nat.min_eq_left (by omega : i + j ≤ _),
      Nat.add_assoc]
  · simp only [hsite, if_false, List.drop_drop]

/-- What has been taken of the feed `f` once a loop `got` this: its first bytes, and no others.  The
    invariant of every loop that reads. -/
def Taking (site : Site) (f : Feed) (got : List UInt8) (g : Feed) : Prop :=
  got.length ≤ f.incoming.length ∧ got = f.incoming.take got.length ∧
    g = f.take site got.length

/-- One read of a loop: the next bytes, or the end of the feed. -/
theorem Taking.read {site : Site} {got : List UInt8} {g : Feed} {n : Nat}
    {err eof : Feed → Prop} (h : Taking site f got g) (hlt : got.length < n)
    (heof : got = f.incoming → eof g) :
    ((feedEnv ok).handler bad).io (.read site (n - got.length)) g
      (Reads err eof (n - got.length) fun bs g => Taking site f (got ++ bs) g) := by
  obtain ⟨hle, hgot, rfl⟩ := h
  rintro r g' (⟨hend, rfl, rfl⟩ | ⟨j, h0, hj, hj', rfl, rfl⟩)
  · -- the end: nothing is left behind what the loop got
    have hnil : f.incoming.drop got.length = [] := by
      rcases hend with hend | hend
      · exact hend
      · omega
    have hall : f.incoming.length ≤ got.length := List.drop_eq_nil_iff.mp hnil
    refine heof ?_
    rw [hgot, List.take_of_length_le hall]
  · have hdrop : (f.take site got.length).incoming = f.incoming.drop got.length := rfl
    rw [hdrop, List.length_drop] at hj'
    rw [hdrop]
    have hlen : ((f.incoming.drop got.length).take j).length = j := by
      rw [List.length_take, List.length_drop]
      omega
    refine .of_ne_nil (List.ne_nil_of_length_pos (by omega)) (by omega) ⟨?_, ?_, ?_⟩
    · rw [List.length_append]
      omega
    · rw [List.length_append, hlen, List.take_add, ← hgot]
    · rw [List.length_append, hlen, Feed.take_take hle hj']

/-- A control write, whatever it answers. -/
theorem feed_write (hbad : ¬ ok → bad) {site : Site} {bs : List UInt8} {α : Type}
    {k : Option Nat → TcpProg α} {Q : α → Feed → Prop}
    (herr : bad → wp ((feedEnv ok).handler bad) (k none) Q f)
    (hQ : ∀ j, wp ((feedEnv ok).handler bad) (k (some j)) Q f) :
    wp ((feedEnv ok).handler bad) (.io (.write site bs) k) Q f := by
  rintro r f' ⟨rfl, rfl | ⟨hok, rfl | ⟨j, -, rfl⟩⟩⟩
  · exact hQ _
  · exact herr (hbad hok)
  · exact hQ _

theorem feed_sendRepeat (hbad : ¬ ok → bad) {h : Host} {rpt : UInt32} {Q : Host → Feed → Prop}
    (hQ : Q h f) :
    wp ((feedEnv ok).handler bad) (sendRepeat h rpt) Q f :=
  feed_write hbad id fun _ => hQ

/-- `readFully` fills the buffer, or answers 0 at the end of the feed. -/
theorem feed_readFully {site : Site} {len : Nat} {buf post : List UInt8}
    {Q : Int × List UInt8 → Feed → Prop} (hbuf : buf.length = len) (hlen : 0 < len)
    (hfull : len ≤ f.incoming.length → Q (len, f.incoming.take len ++ post) (f.take site len))
    (heof : f.incoming.length < len →
      Q (0, f.incoming ++ (buf.drop f.incoming.length ++ post))
        (f.take site f.incoming.length)) :
    wp ((feedEnv ok).handler bad) (readFully site (buf ++ post) len) Q f := by
  refine wp_readFully (I := Taking site f) hbuf (fun got g hI hlt => hI.read hlt ?_) ?_ hlen
    ⟨Nat.zero_le _, rfl, ?_⟩
  · rintro rfl
    rw [hI.2.2]
    exact heof hlt
  · rintro got g ⟨hle, hgot, rfl⟩ rfl
    rw [hgot, List.length_take, Nat.min_eq_left hle]
    exact hfull hle
  · unfold Feed.take
    cases site <;> simp

/-! ## Before the timed loop -/

/-- `RecvRepeat` decodes four bytes, or leaves the process. -/
theorem feed_recvRepeat {h : Host} {Q : UInt32 × Host → Feed → Prop} {rpt : UInt32}
    {rest : List UInt8} {d : Nat} (hf : f.incoming = (toBytes .big rpt ++ rest).take d)
    (hfull : 4 ≤ d → Q (rpt, h) { f with incoming := rest.take (d - 4) })
    (hshort : d < 4 → bad) :
    wp ((feedEnv ok).handler bad) (recvRepeat h) Q f := by
  have hfour : (toBytes .big rpt).length = 4 := toBytes_length ..
  have hlen : f.incoming.length = min d (4 + rest.length) := by
    rw [hf, List.length_take, List.length_append, hfour]
  unfold recvRepeat
  rw [← List.append_nil (List.replicate 4 0)]
  refine wp_bind (feed_readFully List.length_replicate (by decide) ?_ ?_)
  · intro hle
    have hd : 4 ≤ d := by omega
    have htake : f.incoming.take 4 = toBytes .big rpt := by
      rw [hf, List.take_take, Nat.min_eq_left hd, List.take_left' hfour]
    have hdrop : f.incoming.drop 4 = rest.take (d - 4) := by
      rw [hf, List.drop_take, List.drop_left' hfour]
    simp only [htake, List.append_nil, Nat.cast_ofNat, Int.reduceLT, if_false, ne_eq,
      not_true_eq_false, ntohl_ofBytes]
    have := hfull hd
    rw [← hdrop] at this
    exact this
  · intro hlt
    exact hshort (by omega)

/-- A part of the synchronisation string is not the string. -/
theorem strncmp_partial : ∀ g < 6,
    strncmp 6 syncMe (syncMe.take g ++ ((List.replicate 6 0x20).drop g ++ [0])) = true := by
  decide

/-- `Sync` gets the synchronisation string, or leaves the process. -/
theorem feed_sync (hbad : ¬ ok → bad) {h : Host} {Q : Host → Feed → Prop} {payload : List UInt8}
    {m : Nat} (hf : f.incoming = (syncMe ++ payload).take m)
    (hfull : 6 ≤ m → Q h { f with incoming := payload.take (m - 6) }) (hshort : m < 6 → bad) :
    wp ((feedEnv ok).handler bad) (sync h) Q f := by
  have hsix : syncMe.length = 6 := rfl
  have hlen : f.incoming.length = min m (6 + payload.length) := by
    rw [hf, List.length_take, List.length_append, hsix]
  refine feed_write hbad id ?_
  intro _
  refine wp_bind (feed_readFully List.length_replicate (by decide) ?_ ?_)
  · intro hle
    have hm : 6 ≤ m := by omega
    have htake : f.incoming.take 6 = syncMe := by
      rw [hf, List.take_take, Nat.min_eq_left hm, List.take_left' hsix]
    have hdrop : f.incoming.drop 6 = payload.take (m - 6) := by
      rw [hf, List.drop_take, List.drop_left' hsix]
    simp only [htake, Nat.cast_ofNat, Int.reduceLT, if_false, strncmp_syncMe, Bool.false_eq_true]
    have := hfull hm
    rw [← hdrop] at this
    exact this
  · -- the string is cut off, and the blanks behind it do not match
    intro hlt
    have hm : m < 6 := by omega
    have hpart : f.incoming = syncMe.take f.incoming.length := by
      rw [hlen, Nat.min_eq_left (by omega), hf, List.take_append_of_le_length (by omega)]
    have hcmp := strncmp_partial f.incoming.length hlt
    rw [← hpart] at hcmp
    simp only [lt_irrefl, if_false, hcmp, if_true]
    exact hshort hm

/-! ## The timed loop -/

variable {n : Nat} {r s : List UInt8}

/-- `SendData` leaves the feed alone, whatever the writes answer. -/
theorem feed_sendMarked (hbad : ¬ ok → bad) {h : Host} (hh : Armed h n r s)
    {Q : Host → Feed → Prop} (hQ : Q h f) :
    wp ((feedEnv ok).handler bad) (sendMarked tcp h) Q f := by
  refine (wp_sendData (armed_sends hh) (I := fun _ g => g = f) ?_ ?_ rfl :
    wp ((feedEnv ok).handler bad) (sendData h) Q f)
  · rintro off g rfl hoff r g' ⟨rfl, hr⟩
    have hlen : (s.drop off).length = n - off := by rw [List.length_drop, hh.length_s]
    rcases hr with rfl | ⟨hok, rfl | ⟨j, hj, rfl⟩⟩
    · exact .of_pos (by omega) (by omega) rfl
    · exact hbad hok
    · rcases Nat.eq_zero_or_pos j with rfl | hpos
      · exact hQ
      · exact .of_pos hpos (by omega) rfl
  · rintro g rfl
    exact hQ

/-- `RecvData` gets what is there, up to `bufflen` bytes, and returns. -/
theorem feed_recvMarked {h : Host} (hh : Armed h n r s) {Q : Host → Feed → Prop}
    (hQ : ∀ h' r', h'.settings = h.settings → Armed h' n r' s →
      Q h' (f.take .data (min n f.incoming.length))) :
    wp ((feedEnv ok).handler bad) (recvMarked tcp h) Q f := by
  have hstart : Taking .data f [] f := by
    refine ⟨Nat.zero_le _, rfl, ?_⟩
    simp [Feed.take]
  refine wp_bind (wp_recvData (receives_armed h.settings n s) (I := Taking .data f)
    (fun got g hI hlt => hI.read hlt ?_) ?_ ⟨rfl, hh⟩ hstart)
  · rintro rfl h' r' ⟨hset, hh'⟩
    have := hQ h' r' hset hh'
    rw [Nat.min_eq_right (by omega)] at this
    rw [hI.2.2]
    exact this
  · rintro got h' g ⟨hle, -, rfl⟩ ⟨hset, hh'⟩
    have hlen := hh'.length_r
    have := hQ h' got hset hh'
    rw [Nat.min_eq_left (by omega)] at this
    rw [hlen]
    exact this

/-- **The timed loop**, by induction on the iterations: with `m` bytes to come each `RecvData`
    gets what is left for it, and the loop goes on to its end. -/
theorem feed_timedLoop (hbad : ¬ ok → bad) (k : Nat) : ∀ (h : Host) (r : List UInt8) (j : Nat)
    (f : Feed) (Q : Host → Feed → Prop), Armed h n r s → f.pos = ⟨0, j⟩ →
    (∀ i, j ≤ i → f.count ⟨0, i⟩ = 0) →
    (∀ h' r' f', h'.settings = h.settings → Armed h' n r' s →
      (∀ i, j ≤ i → i < j + k →
        f'.count ⟨0, i⟩ = min n (f.incoming.length - (i - j) * n)) →
      (∀ i, i < j → f'.count ⟨0, i⟩ = f.count ⟨0, i⟩) → Q h' f') →
    wp ((feedEnv ok).handler bad) (timedLoop tcp k h) Q f := by
  induction k with
  | zero =>
    intro h r j f Q hh _ _ hQ
    exact hQ h r f rfl hh (fun i h₁ h₂ => by omega) fun i _ => rfl
  | succ k ih =>
    intro h r j f Q hh hpos hcount hQ
    have hrest : ∀ h' r', h'.settings = h.settings → Armed h' n r' s →
        wp ((feedEnv ok).handler bad) (.emit (.mark .iterated) (timedLoop tcp k h')) Q
          (f.take .data (min n f.incoming.length)) := by
      intro h' r' hset hh'
      have hnew : ∀ i, (f.take .data (min n f.incoming.length)).count ⟨0, i⟩ =
          if i = j then min n f.incoming.length else f.count ⟨0, i⟩ := by
        intro i
        simp only [Feed.take, if_true, hpos, Function.update_apply, Pos.mk.injEq, true_and,
          hcount j le_rfl]
        split <;> omega
      refine ih h' r' (j + 1) _ Q hh' ?_ ?_ ?_
      · show advance (.mark .iterated) f.pos = ⟨0, j + 1⟩
        rw [hpos]
        rfl
      · intro i hi
        refine (hnew i).trans ?_
        rw [if_neg (by omega)]
        exact hcount i (by omega)
      · intro h'' r'' f' hset' hh'' hlater hearlier
        refine hQ h'' r'' f' (hset'.trans hset) hh'' ?_ ?_
        · intro i h₁ h₂
          by_cases hij : i = j
          · have := (hearlier i (by omega)).trans (hnew i)
            rw [if_pos hij] at this
            rw [this, hij]
            simp
          · -- the bytes left for the later iterations
            obtain ⟨d, hd⟩ : ∃ d, i = j + 1 + d := ⟨i - (j + 1), by omega⟩
            have hleft : (f.take .data (min n f.incoming.length)).incoming.length =
                f.incoming.length - min n f.incoming.length := List.length_drop
            have := hlater i (by omega) (by omega)
            rw [this]
            show min n ((f.take .data _).incoming.length - _) = _
            rw [hleft, hd, Nat.add_sub_cancel_left, show j + 1 + d - j = d + 1 by omega,
              Nat.succ_mul]
            omega
        · intro i hi
          have := (hearlier i (by omega)).trans (hnew i)
          rwa [if_neg (by omega)] at this
    rw [timedLoop]
    cases h.args.tr with
    | true =>
      simp only [if_true, Proc.bind_eq]
      exact wp_bind (feed_sendMarked hbad hh (wp_bind (feed_recvMarked hh hrest)))
    | false =>
      simp only [Bool.false_eq_true, if_false, Proc.bind_eq]
      exact wp_bind (feed_recvMarked hh fun h' r' hset hh' =>
        wp_bind (feed_sendMarked hbad hh' (hrest h' r' hset hh')))

/-- What `run_iters` does once size and repeat count are known: the calls of `RecvData` share what
    follows the synchronisation string, the `j`-th getting what is left for it. -/
theorem feed_runBody (hbad : ¬ ok → bad) {h : Host} (hcache : h.args.cache = false)
    {size nrepeat : UInt32} {payload : List UInt8} {d : Nat}
    (hf : f.incoming = (syncMe ++ payload).take d)
    (hpos : f.pos = ⟨0, 0⟩) (hcount : f.count = fun _ => 0) (hshort : d < 6 → bad)
    {Q : PyResult × Host → Feed → Prop}
    (hQ : 6 ≤ d → ∀ h' t f',
      (∀ j < nrepeat.toNat, f'.count ⟨0, j⟩ =
        min (nbytes size) (min (d - 6) payload.length - j * nbytes size)) →
      Q (.tuple (toInt32 size) (toInt32 nrepeat) t, h') f') :
    wp ((feedEnv ok).handler bad) (runBody tcp h size nrepeat) Q f := by
  refine wp_runBody tcp_generic (sane_feed hbad) hcache ?_
  intro h₁ hsame₁ hh₁
  have hsync : wp ((feedEnv ok).handler bad) (sync h₁)
      (fun h₂ f => wp ((feedEnv ok).handler bad) (measureRun tcp h₂ size nrepeat) Q f) f := by
    refine feed_sync hbad hf (fun hd t0 => ?_) hshort
    show wp _ ((timedLoop tcp nrepeat.toNat h₁).bind fun h => closeRun tcp h size nrepeat t0) Q _
    refine wp_bind (feed_timedLoop hbad nrepeat.toNat h₁ _ 0 _ _ hh₁ hpos
      (fun i _ => congrFun hcount _) ?_)
    intro h₂ r f' hset₂ hh₂ hall _
    have hcache₂ : h₂.args.cache = false :=
      (congrArg Settings.cache (hset₂.trans hsame₁.settings)).trans hcache
    obtain ⟨⟨ms, w⟩, hms⟩ := lfsrcheck_total h₂.order 98 (Nat.le_of_eq hh₂.length_r.symm)
    refine wp_closeRun tcp_generic hcache₂ hh₂ (nbytes_lt size) hms ?_
    refine wp_report_const (fun _ _ => id) ms fun h₃ t _ => hQ hd h₃ t _ ?_
    intro j hj
    have hj' : f'.count ⟨0, j⟩ =
        min (nbytes size) ((payload.take (d - 6)).length - (j - 0) * nbytes size) :=
      hall j (Nat.zero_le _) (by omega)
    rwa [List.length_take, Nat.sub_zero] at hj'
  unfold syncRun
  cases h₁.asyncReceive <;> exact hsync

end feed

/-! ## The result -/

/-- Size and repeat count, where the other side sends them. -/
def header (s : Side) (size nrepeat : UInt32) : List UInt8 :=
  match s with
  | .left => []
  | .right => toBytes .big size ++ toBytes .big nrepeat

/-- How many bytes `s` is sent ahead of the first message. -/
def lead : Side → Nat
  | .left => 6
  | .right => 14

/-- The messages of the timed loop, as `s` gets them. -/
def Hosts.messages (H : Hosts) (s : Side) (size nrepeat : UInt32) : List UInt8 :=
  (List.replicate nrepeat.toNat (H.payload s.other (nbytes size))).flatten

/-- What `s` is sent in a run the transmitter calls with `call`: nothing where the call is
    refused. -/
def Hosts.expected (H : Hosts) (s : Side) (call : Int × Int) : List UInt8 :=
  match pyArgParseTuple [call.1, call.2] with
  | none => []
  | some (size, nrepeat) => header s size nrepeat ++ (syncMe ++ H.messages s size nrepeat)

theorem length_header (s : Side) (size nrepeat : UInt32) :
    (header s size nrepeat).length + 6 = lead s := by
  cases s <;> simp [header, lead]

theorem length_messages (H : Hosts) (s : Side) (size nrepeat : UInt32) :
    (H.messages s size nrepeat).length = nrepeat.toNat * nbytes size := by
  simp [Hosts.messages, Hosts.payload]

/-- The bytes `bs` are to come, and nothing has been got. -/
def Feed.start (bs : List UInt8) : Feed := ⟨bs, ⟨0, 0⟩, fun _ => 0⟩

/-- A result means a completed run: with the first `d` of the expected bytes delivered, whenever
    `run_iters` hands back a tuple, each call of `RecvData` has got `bufflen` bytes. -/
def ResultComplete (H : Hosts) (s : Side) (call : Int × Int) (d : Nat) : Prop :=
  ∀ size nrepeat t h f,
    Exec (feedEnv False) (netpipeRunIters tcp (H.host s) (pyargs s call))
      (.start ((H.expected s call).take d)) (.returned (.tuple size nrepeat t, h)) f →
    ∀ j < call.2.toNat, f.count ⟨0, j⟩ = nbytes (toUint32 call.1)

section result

variable {ok bad : Prop} (H : Hosts)

/-- **A run against a feed**, on either side: it has got the header and the string, or has left
    the process; and then the loop gets as many bytes as are there, and the run returns. -/
theorem feed_run (hbad : ¬ ok → bad) {s : Side} {call : Int × Int} {size nrepeat : UInt32}
    (hargs : pyArgParseTuple [call.1, call.2] = some (size, nrepeat)) (hsize : size ≠ 0)
    {payload : List UInt8} {d : Nat} (hshort : d < lead s → bad)
    {Q : PyResult × Host → Feed → Prop}
    (hQ : lead s ≤ d → ∀ h t f,
      (∀ j < nrepeat.toNat, f.count ⟨0, j⟩ =
        min (nbytes size) (min (d - lead s) payload.length - j * nbytes size)) →
      Q (.tuple (toInt32 size) (toInt32 nrepeat) t, h) f) :
    wp ((feedEnv ok).handler bad) (netpipeRunIters tcp (H.host s) (pyargs s call)) Q
      (.start ((header s size nrepeat ++ (syncMe ++ payload)).take d)) := by
  cases s with
  | left =>
    simp only [netpipeRunIters, pyargs, hargs]
    refine wp_bind (feed_sendRepeat hbad (wp_bind (feed_sendRepeat hbad ?_)))
    exact feed_runBody hbad rfl rfl rfl rfl hshort fun hd h t f hall => hQ hd h t f hall
  | right =>
    -- size and repeat count are cut off, or the run begins eight bytes later
    have hstart : (Feed.start ((header .right size nrepeat ++ (syncMe ++ payload)).take d)).incoming
        = (toBytes .big size ++ (toBytes .big nrepeat ++ (syncMe ++ payload))).take d := by
      rw [Feed.start, header, List.append_assoc]
    simp only [lead] at hshort hQ
    simp only [netpipeRunIters, pyargs, pyArgParseTuple]
    refine wp_bind (feed_recvRepeat hstart (fun h₁ => wp_bind ?_) fun h₁ => hshort (by omega))
    refine feed_recvRepeat rfl (fun h₂ => ?_) fun h₂ => hshort (by omega)
    rw [if_neg hsize]
    refine feed_runBody hbad rfl rfl rfl rfl (fun h₃ => hshort (by omega))
      fun h₃ h t f hall => hQ (by omega) h t f ?_
    rwa [show d - 4 - 4 - 6 = d - 14 by omega] at hall

/-- A refused call gives no result on either side: the transmitter's is `NULL`, and the receiver
    leaves the process. -/
theorem feed_refused {s : Side} {call : Int × Int}
    (hargs : pyArgParseTuple [call.1, call.2] = none) {ok : Prop} :
    wp ((feedEnv ok).handler True) (netpipeRunIters tcp (H.host s) (pyargs s call))
      (fun a _ => a.1 = .null) (.start []) := by
  cases s with
  | left =>
    simp only [netpipeRunIters, pyargs, hargs]
    exact rfl
  | right =>
    simp only [netpipeRunIters, pyargs, pyArgParseTuple]
    have hf : (Feed.start []).incoming = (toBytes .big 0 ++ []).take 0 := rfl
    refine wp_bind (feed_recvRepeat hf ?_ fun _ => trivial)
    intro hd
    omega

/-- What a run is sent. -/
theorem expected_run (s : Side) (r : Run) :
    H.expected s r.call = header s (toUint32 r.size) (toUint32 r.nrepeat) ++
      (syncMe ++ H.messages s (toUint32 r.size) (toUint32 r.nrepeat)) := by
  rw [Hosts.expected, Run.call, r.parse]

theorem length_expected (s : Side) (r : Run) :
    (H.expected s r.call).length = lead s + r.nrepeat.toNat * nbytes (toUint32 r.size) := by
  rw [expected_run, List.length_append, List.length_append, length_messages, ← length_header,
    r.toNat_nrepeat]
  exact (Nat.add_assoc _ _ _).symm

end result

/-- Where nothing fails there is always an answer, so a program has an execution. -/
theorem exists_exec {α : Type} (p : TcpProg α) (f : Feed) :
    ∃ out f', Exec (feedEnv True) p f out f' := by
  refine Exec.total (fun n => ⟨some (List.replicate n 0), Or.inl ⟨_, rfl, List.length_replicate⟩⟩)
    (fun o f => ?_) p f
  cases o with
  | write site bs => exact ⟨_, _, rfl, Or.inl rfl⟩
  | read site n =>
    by_cases hend : f.incoming = [] ∨ n = 0
    · exact ⟨_, _, Or.inl ⟨hend, rfl, rfl⟩⟩
    · rw [not_or] at hend
      have := List.length_pos_iff.mpr hend.1
      exact ⟨_, _, Or.inr ⟨1, by omega, by omega, by omega, rfl, rfl⟩⟩

/-- What can happen where nothing fails can happen. -/
theorem exec_mono {α : Type} {p : TcpProg α} {f f' : Feed} {out : Outcome α}
    (h : Exec (feedEnv True) p f out f') : Exec (feedEnv False) p f out f' := by
  have hemit : (feedEnv True).emit = (feedEnv False).emit := rfl
  refine h.mono hemit ?_ ?_
  · rintro n r (hr | ⟨hno, -⟩)
    · exact Or.inl hr
    · exact absurd trivial hno
  · intro o f r f' hr
    cases o with
    | write site bs =>
      obtain ⟨hf, hr | ⟨hno, -⟩⟩ := hr
      · exact ⟨hf, Or.inl hr⟩
      · exact absurd trivial hno
    | read site n => exact hr

/-- **Cut in the messages**: the run returns its tuple, although the last `RecvData` fell short.
    The execution is the one that reads whatever is there, and it has the timed loop's bytes but
    for those that are cut off. -/
theorem result_of_cut (H : Hosts) (s : Side) (r : Run) (hrep : 1 ≤ r.nrepeat) {d : Nat}
    (hlead : lead s ≤ d) (hd : d < (H.expected s r.call).length) :
    ∃ size nrepeat t h f,
      Exec (feedEnv False) (netpipeRunIters tcp (H.host s) (pyargs s r.call))
        (.start ((H.expected s r.call).take d)) (.returned (.tuple size nrepeat t, h)) f ∧
      f.count ⟨0, r.nrepeat.toNat - 1⟩ < nbytes (toUint32 r.size) := by
  obtain ⟨out, f, hexec⟩ := exists_exec (netpipeRunIters tcp (H.host s) (pyargs s r.call))
    (.start ((H.expected s r.call).take d))
  have hout : out.Meets (fun a => ∃ size nrepeat t, a.1 = .tuple size nrepeat t ∧
      f.count ⟨0, r.nrepeat.toNat - 1⟩ < nbytes (toUint32 r.size)) False := by
    refine hexec.sound (Q := fun a g => ∃ size nrepeat t, a.1 = .tuple size nrepeat t ∧
      g.count ⟨0, r.nrepeat.toNat - 1⟩ < nbytes (toUint32 r.size)) ?_
    rw [expected_run]
    refine feed_run H (fun h => h trivial) r.parse r.size32_ne_zero
      (fun h => absurd hlead (by omega)) fun _ h t f hall => ⟨_, _, t, rfl, ?_⟩
    -- the last message starts at `m`, and the stream ends before the end of it
    have hpos := nbytes_pos r.size32_ne_zero
    rw [length_expected, show r.nrepeat.toNat = r.nrepeat.toNat - 1 + 1 by omega,
      Nat.succ_mul] at hd
    have hk := r.toNat_nrepeat
    rw [hall _ (by omega), length_messages, hk]
    generalize (r.nrepeat.toNat - 1) * nbytes (toUint32 r.size) = m at hd ⊢
    omega
  cases out with
  | returned a =>
    obtain ⟨a, h⟩ := a
    obtain ⟨size, nrepeat, t, rfl, hshort⟩ := hout
    exact ⟨size, nrepeat, t, h, f, exec_mono hexec, hshort⟩
  | exited c msg => exact hout.elim
  | faulted => exact hout.elim

/-- Before the messages, or behind the last one. -/
theorem result_of_uncut (H : Hosts) (s : Side) (r : Run) {d : Nat}
    (hd : d < lead s ∨ (H.expected s r.call).length ≤ d) : ResultComplete H s r.call d := by
  intro size nrepeat t h f hexec j hj
  have hj' : j < (toUint32 r.nrepeat).toNat := by
    rw [r.toNat_nrepeat]
    exact hj
  refine hexec.returned (Q := fun _ g => g.count ⟨0, j⟩ = nbytes (toUint32 r.size)) ?_
  rw [expected_run]
  refine feed_run H (fun _ => trivial) r.parse r.size32_ne_zero (fun _ => trivial)
    ?_
  intro hlead h t f hall
  rcases hd with hd | hd
  · omega
  · -- every message before the end of the last is there
    have hlast : j * nbytes (toUint32 r.size) + nbytes (toUint32 r.size) ≤
        r.nrepeat.toNat * nbytes (toUint32 r.size) := by
      rw [← Nat.succ_mul]
      exact Nat.mul_le_mul_right _ hj
    rw [length_expected] at hd
    rw [hall j hj', length_messages, r.toNat_nrepeat]
    omega

/-- **A tuple stands for a completed run** exactly where the stream ends before the first message
    or not before the last one is complete. -/
theorem result_complete_iff (H : Hosts) (s : Side) (call : Int × Int) (hsize : 1 ≤ call.1)
    (hrep : 1 ≤ call.2) (d : Nat) :
    ResultComplete H s call d ↔ d < lead s ∨ (H.expected s call).length ≤ d := by
  rcases refused_or_run hsize (by omega) with hargs | ⟨r, rfl⟩
  · -- nothing is sent, and there is no tuple
    have hnone : H.expected s call = [] := by rw [Hosts.expected, hargs]
    constructor
    · intro _
      rw [hnone]
      exact Or.inr (Nat.zero_le d)
    · intro _ size nrepeat t h f hexec
      rw [hnone, List.take_nil] at hexec
      have := hexec.returned (feed_refused H hargs)
      cases this
  · constructor
    · intro hres
      by_contra hcut
      rw [not_or, not_lt, not_le] at hcut
      obtain ⟨size, nrepeat, t, h, f, hexec, hshort⟩ := result_of_cut H s r hrep hcut.1 hcut.2
      have hlast : r.call.2.toNat - 1 < r.call.2.toNat := by omega
      exact absurd (hres size nrepeat t h f hexec _ hlast) hshort.ne
    · exact result_of_uncut H s r

/-- A run of one message of one byte, with the whole of it there. -/
theorem result_complete_oneByte : ResultComplete littleHosts .left (8, 1) 7 :=
  (result_complete_iff littleHosts .left (8, 1) (by decide) (by decide) 7).mpr
    (Or.inr (by decide +kernel))

/-- The peer closes the connection right after the synchronisation string. -/
theorem result_incomplete :
    ¬ ResultComplete littleHosts .left (8, 1) 6 ∧
      ¬ ResultComplete littleHosts .right (8, 1) 14 := by
  have hcut : ∀ s, ¬ ResultComplete littleHosts s (8, 1) (lead s) := by
    intro s hres
    have hd : lead s < (littleHosts.expected s (8, 1)).length := by
      cases s <;> decide +kernel
    obtain ⟨size, nrepeat, t, h, f, hexec, hshort⟩ := result_of_cut littleHosts s
      ⟨8, 1, by decide, by decide, by decide, by decide⟩ (by decide) le_rfl hd
    exact absurd (hres size nrepeat t h f hexec 0 (by decide)) hshort.ne
  exact ⟨hcut .left, hcut .right⟩

end NetPipe.Tcp
