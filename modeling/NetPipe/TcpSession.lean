/-
  The script of a TCP session: what transmitter and receiver put on the socket, get from it and
  show, run after run.

  A session is a list of runs; the transmitter (`Side.left`) calls `run_iters(size, nrepeat)` for
  each, the receiver (`Side.right`) calls `run_iters()` as often.

  1. **Runs and hosts.**  A `Run` carries that its arguments are accepted and ask for a message of
     at least one bit, so nothing about it has to be assumed later.

  2. **The script** of a run follows `run_iters` from top to bottom: header, preparation, `Sync`,
     the timed loop, the check.  What a side sends is the pattern of its own byte order, in each
     iteration; so all bytes of a session are known before it begins.

  3. **The programs keep to it** (`script_session`), by induction on the runs.  Each phase has its
     own lemma, with the specifications of `NetPipe.Buffers` for the memory and those of
     `NetPipe.TcpScript` for the socket; in the loop the invariant is what is in the two buffers:
     the send buffer never changes, and the receive buffer holds the last message.
-/
import NetPipe.TcpScript

namespace NetPipe.Tcp

open Memory Process Duplex

/-! ## Runs and hosts -/

/-- What the two sides call `run_iters` with, for a run the transmitter is given `call` for. -/
def pyargs (s : Side) (call : Int × Int) : List Int :=
  match s with
  | .left => [call.1, call.2]
  | .right => []

/-- Arguments the transmitter can call `run_iters` with, for a message of at least one bit: the
    `i` format takes nothing from `2 ^ 31` on. -/
structure Run where
  size : Int
  nrepeat : Int
  size_pos : 1 ≤ size
  size_lt : size < 2 ^ 31
  nrepeat_nonneg : 0 ≤ nrepeat
  nrepeat_lt : nrepeat < 2 ^ 31

/-- The two hosts: their byte orders, and whether they post receives ahead. -/
structure Hosts where
  order : Side → ByteOrder
  asyncReceive : Side → Bool

/-- A host after `netpipe_object` and `Init`: the left one was given a host to connect to. -/
def Hosts.host (H : Hosts) (s : Side) : Host :=
  let h := init (netpipeObject (H.order s) () (if s = .left then some "localhost" else none))
  { h with asyncReceive := H.asyncReceive s }

theorem Hosts.host_tr (H : Hosts) (s : Side) : (H.host s).args.tr = decide (s = .left) := by
  cases s <;> rfl

theorem Hosts.host_rcv (H : Hosts) (s : Side) : (H.host s).args.rcv = decide (s = .right) := by
  cases s <;> rfl

/-- Both sides at the start of a session, with the two streams empty; `calls` are the arguments
    of the transmitter, one call of `run_iters` after the other. -/
def sessionStart (H : Hosts) (calls : List (Int × Int)) :
    Config Pos Site Event (List PyResult) :=
  .start ⟨0, 0⟩ fun s => session tcp (H.host s) (calls.map (pyargs s))

/-- The socket: room for `cap` bytes in each direction; `short` says whether a write of `SendData`
    may take fewer bytes than offered, `fails` whether allocation may fail. -/
def sockets (cap : Side → ℕ∞) (short fails : Prop) : Discipline Site :=
  ⟨cap, fun site => site = .data ∧ short, fails⟩

theorem controlled_sockets (cap : Side → ℕ∞) (short fails : Prop) :
    Controlled (sockets cap short fails) := fun _ h => h.1

/-- The arguments, as the call is made. -/
def Run.call (r : Run) : Int × Int := (r.size, r.nrepeat)

theorem Run.parse (r : Run) : pyArgParseTuple [r.size, r.nrepeat] =
    some (toUint32 r.size, toUint32 r.nrepeat) := by
  have h₁ := r.size_pos
  have h₂ := r.size_lt
  have h₃ := r.nrepeat_nonneg
  have h₄ := r.nrepeat_lt
  simp only [pyArgParseTuple, intArg]
  rw [if_pos (by omega), if_pos (by omega)]
  rfl

/-- A call for a message of at least one bit is a run, or refused. -/
theorem refused_or_run {call : Int × Int} (hsize : 1 ≤ call.1) (hrep : 0 ≤ call.2) :
    pyArgParseTuple [call.1, call.2] = none ∨ ∃ r : Run, r.call = call := by
  by_cases hs : call.1 < 2 ^ 31
  · by_cases hr : call.2 < 2 ^ 31
    · exact Or.inr ⟨⟨call.1, call.2, hsize, hs, hrep, hr⟩, rfl⟩
    · left
      simp only [pyArgParseTuple, intArg]
      rw [if_neg (by omega : ¬ (-2 ^ 31 ≤ call.2 ∧ call.2 < 2 ^ 31))]
      cases (if -2 ^ 31 ≤ call.1 ∧ call.1 < 2 ^ 31 then _ else _ : Option UInt32) <;> rfl
  · left
    simp only [pyArgParseTuple, intArg]
    rw [if_neg (by omega : ¬ (-2 ^ 31 ≤ call.1 ∧ call.1 < 2 ^ 31))]
    rfl

theorem Run.size32_ne_zero (r : Run) : toUint32 r.size ≠ 0 := by
  have h₁ := r.size_pos
  have h₂ := r.size_lt
  intro h
  have h' := congrArg UInt32.toNat h
  rw [toNat_toUint32 (by omega) (by omega)] at h'
  simp only [UInt32.reduceToNat] at h'
  omega

theorem Run.toNat_nrepeat (r : Run) : (toUint32 r.nrepeat).toNat = r.nrepeat.toNat :=
  toNat_toUint32 r.nrepeat_nonneg (by have := r.nrepeat_lt; omega)

/-- The result a run gives, with its own arguments in it. -/
theorem Run.toInt32_eq (r : Run) (t : Int) :
    PyResult.tuple (toInt32 (toUint32 r.size)) (toInt32 (toUint32 r.nrepeat)) t =
      .tuple r.call.1 r.call.2 t := by
  have h₁ := r.size_pos
  have h₂ := r.nrepeat_nonneg
  rw [toInt32_toUint32 (by omega) r.size_lt, toInt32_toUint32 (by omega) r.nrepeat_lt, Run.call]

/-! ## The script -/

/-- A mark of a TCP process. -/
def did (p : Pos) (m : Mark) : TcpAct := .did p (.mark m)

/-- Size and repeat count, as the transmitter sends them. -/
def headScript (s : Side) (p : Pos) (size nrepeat : UInt32) : List TcpAct :=
  match s with
  | .left => putMsg ⟨p, .rpt⟩ (toBytes .big size) ++ putMsg ⟨p, .rpt⟩ (toBytes .big nrepeat)
  | .right => gotMsg ⟨p, .rpt⟩ (toBytes .big size) ++ gotMsg ⟨p, .rpt⟩ (toBytes .big nrepeat)

/-- Everything up to `Sync`. -/
def prepScript (async : Bool) (p : Pos) (size nrepeat : UInt32) : List TcpAct :=
  did p (.params size (bytesOf size) nrepeat) :: did p .myMalloc :: did p .initBufferData ::
    did p .afterAlignmentInit :: if async then [did p .prepareToReceive] else []

/-- `Sync`. -/
def syncScript (p : Pos) : List TcpAct :=
  putMsg ⟨p, .sync⟩ syncMe ++ gotMsg ⟨p, .sync⟩ syncMe

/-- What a host sends: the pattern of 'b' in its own byte order. -/
def Hosts.payload (H : Hosts) (s : Side) (n : Nat) : List UInt8 := pattern (H.order s) 98 n

/-- `SendData`. -/
def sendScript (p : Pos) (own : List UInt8) : List TcpAct :=
  did p (.sending own) :: putMsg ⟨p, .data⟩ own

/-- `RecvData`. -/
def recvScript (p : Pos) (peer : List UInt8) : List TcpAct :=
  gotMsg ⟨p, .data⟩ peer ++ [did p (.received peer)]

/-- One iteration of the timed loop. -/
def iterScript (s : Side) (p : Pos) (own peer : List UInt8) : List TcpAct :=
  match s with
  | .left => sendScript p own ++ recvScript p peer ++ [did p .iterated]
  | .right => recvScript p peer ++ sendScript p own ++ [did p .iterated]

/-- `k` iterations from the `j`-th on. -/
def loopScript (s : Side) (i : Nat) (own peer : List UInt8) (j k : Nat) : List TcpAct :=
  (List.range' j k).flatMap fun j => iterScript s ⟨i, j⟩ own peer

/-- What the receive buffer of `s` holds at the end of the timed loop. -/
def Hosts.final (H : Hosts) (s : Side) (n k : Nat) : List UInt8 :=
  if k = 0 then pattern (H.order s) 97 n else H.payload s.other n

/-- What `CheckBufferData` reports at the end of a run. -/
def Hosts.reports (H : Hosts) (s : Side) (n k : Nat) : List Mismatch :=
  ((lfsrcheck (H.order s) (H.final s n k) 98 n).map Prod.fst).getD []

/-- From the end of the timed loop on. -/
def closeScript (p : Pos) (ms : List Mismatch) : List TcpAct :=
  did p .timedLoopEnd :: (ms.map (fun m => .did p (.mismatch m)) ++ [did p .returned])

/-- One run after the header. -/
def bodyScript (H : Hosts) (s : Side) (i : Nat) (size nrepeat : UInt32) : List TcpAct :=
  let n := nbytes size
  let k := nrepeat.toNat
  prepScript (H.asyncReceive s) ⟨i, 0⟩ size nrepeat ++ (syncScript ⟨i, 0⟩ ++
    (did ⟨i, 0⟩ .timedLoop :: (loopScript s i (H.payload s n) (H.payload s.other n) 0 k ++
      closeScript ⟨i, k⟩ (H.reports s n k))))

/-- One run. -/
def runScript (H : Hosts) (s : Side) (i : Nat) (r : Run) : List TcpAct :=
  headScript s ⟨i, 0⟩ (toUint32 r.size) (toUint32 r.nrepeat) ++
    bodyScript H s i (toUint32 r.size) (toUint32 r.nrepeat)

/-- One run in which `s` sends `own`, is sent `peer` and reports `ms`. -/
def exchangeScript (async : Bool) (s : Side) (i : Nat) (size nrepeat : UInt32)
    (own peer : List UInt8) (ms : List Mismatch) : List TcpAct :=
  headScript s ⟨i, 0⟩ size nrepeat ++ (prepScript async ⟨i, 0⟩ size nrepeat ++
    (syncScript ⟨i, 0⟩ ++ (did ⟨i, 0⟩ .timedLoop ::
      (loopScript s i own peer 0 nrepeat.toNat ++ closeScript ⟨i, nrepeat.toNat⟩ ms))))

theorem runScript_eq (H : Hosts) (s : Side) (i : Nat) (r : Run) :
    runScript H s i r = exchangeScript (H.asyncReceive s) s i (toUint32 r.size)
      (toUint32 r.nrepeat) (H.payload s (nbytes (toUint32 r.size)))
      (H.payload s.other (nbytes (toUint32 r.size)))
      (H.reports s (nbytes (toUint32 r.size)) (toUint32 r.nrepeat).toNat) := rfl

/-- A session whose first run is the `i`-th. -/
def sessionScript (H : Hosts) (s : Side) : Nat → List Run → List TcpAct
  | _, [] => []
  | i, r :: rs => runScript H s i r ++ sessionScript H s (i + 1) rs

/-! ## The programs keep to the script -/

section follows

variable {D : Discipline Site} {waits : Stamp Pos Site → Prop} {p : Pos} {rest : List TcpAct}

/-- `Sync`, behind a receive posted ahead or not. -/
theorem script_syncRun {h : Host} {Q : Host → Pos × List TcpAct → Prop}
    (hQ : wp (scriptHandler D advance waits) (sync h) Q (p, rest)) :
    wp (scriptHandler D advance waits) (syncRun tcp h) Q
      (p, (if h.asyncReceive then [did p .prepareToReceive] else []) ++ rest) := by
  unfold syncRun
  cases hasync : h.asyncReceive with
  | true => exact ⟨rest, rfl, hQ⟩
  | false => exact hQ

/-- `run_iters` up to `Sync`. -/
theorem script_prep {h : Host} (hcache : h.args.cache = false) {size nrepeat : UInt32}
    {Q : PyResult × Host → Pos × List TcpAct → Prop}
    (hQ : ∀ h', h'.settings = h.settings →
      Armed h' (nbytes size) (pattern h.order 97 (nbytes size))
        (pattern h.order 98 (nbytes size)) →
      wp (scriptHandler D advance waits) (sync h')
        (fun h' => wp (scriptHandler D advance waits) (measureRun tcp h' size nrepeat) Q)
        (p, rest)) :
    wp (scriptHandler D advance waits) (runBody tcp h size nrepeat) Q
      (p, prepScript h.asyncReceive p size nrepeat ++ rest) := by
  refine wp_runBody tcp_generic sane_scriptHandler hcache
    ⟨_, rfl, _, rfl, _, rfl, _, rfl, ?_⟩
  intro h' hsame hh
  have hasync : h'.asyncReceive = h.asyncReceive := congrArg Settings.asyncReceive hsame.settings
  have := script_syncRun (hQ h' hsame.settings hh)
  rwa [hasync] at this

/-- `SendData` between its marks. -/
theorem script_sendMarked {h : Host} {n : Nat} {own : List UInt8} (hh : Sends h n own)
    {Q : Host → Pos × List TcpAct → Prop} (hQ : Q h (p, rest)) :
    wp (scriptHandler D advance waits) (sendMarked tcp h) Q (p, sendScript p own ++ rest) := by
  refine ⟨_, ?_, script_sendData hh hQ⟩
  rw [hh.load_sPtr]
  rfl

section loop

variable {n : Nat} {R : Host → List UInt8 → Prop} (hR : Receives n R) {own peer : List UInt8}
  (hpeer : peer.length = n)

include hR hpeer

/-- `RecvData` between its marks. -/
theorem script_recvMarked {h : Host} {r : List UInt8} (hh : R h r)
    {Q : Host → Pos × List TcpAct → Prop} (hQ : ∀ h', R h' peer → Q h' (p, rest)) :
    wp (scriptHandler D advance waits) (recvMarked tcp h) Q
      (p, recvScript p peer ++ rest) := by
  rw [recvScript, List.append_assoc]
  refine wp_bind (script_recvData hR hh hpeer fun h' hh' => ⟨rest, ?_, hQ h' hh'⟩)
  rw [hR.load hh']
  rfl

variable {s : Side} (htr : ∀ h r, R h r → h.args.tr = decide (s = .left))
  (hsend : ∀ h, R h peer → Sends h n own)

include htr hsend

/-- One iteration of the timed loop, on either side; the transmitter's first message is in its
    buffer already. -/
theorem script_iter {h : Host} {r : List UInt8} (hh : R h r) (hfirst : s = .left → Sends h n own)
    {k : Nat} {Q : Host → Pos × List TcpAct → Prop}
    (hQ : ∀ h', R h' peer →
      wp (scriptHandler D advance waits) (timedLoop tcp k h') Q (⟨p.run, p.iter + 1⟩, rest)) :
    wp (scriptHandler D advance waits) (timedLoop tcp (k + 1) h) Q
      (p, iterScript s p own peer ++ rest) := by
  rw [timedLoop, htr h r hh]
  cases s with
  | left =>
    simp only [iterScript, List.append_assoc, decide_true, if_true, Proc.bind_eq]
    refine wp_bind (script_sendMarked (hfirst rfl) (wp_bind ?_))
    exact script_recvMarked hR hpeer hh fun h' hh' => ⟨_, rfl, hQ h' hh'⟩
  | right =>
    simp only [iterScript, List.append_assoc, reduceCtorEq, decide_false, Bool.false_eq_true,
      if_false, Proc.bind_eq]
    refine wp_bind (script_recvMarked hR hpeer hh fun h' hh' => wp_bind ?_)
    exact script_sendMarked (hsend h' hh') ⟨_, rfl, hQ h' hh'⟩

/-- **The timed loop**, by induction on the iterations still to go. -/
theorem script_timedLoop {i k : Nat} {Q : Host → Pos × List TcpAct → Prop} :
    ∀ (j : Nat) (h : Host) (r : List UInt8), R h r → (s = .left → Sends h n own) →
      (∀ h', R h' (if k = 0 then r else peer) → Q h' (⟨i, j + k⟩, rest)) →
      wp (scriptHandler D advance waits) (timedLoop tcp k h) Q
        (⟨i, j⟩, loopScript s i own peer j k ++ rest) := by
  induction k with
  | zero => exact fun j h r hh _ hQ => hQ h hh
  | succ k ih =>
    intro j h r hh hfirst hQ
    rw [loopScript, List.range'_succ, List.flatMap_cons, List.append_assoc]
    refine script_iter hR hpeer htr hsend hh hfirst fun h' hh' =>
      ih (j + 1) h' peer hh' (fun _ => hsend h' hh') ?_
    intro h'' hh''
    rw [ite_self] at hh''
    rw [Nat.add_right_comm]
    exact hQ h'' hh''

/-- From `Sync` to the end of the timed loop. -/
theorem script_exchange (hD : Controlled D) {h : Host} {r : List UInt8} (hh : R h r)
    (hfirst : s = .left → Sends h n own) {i : Nat} {size nrepeat : UInt32}
    {Q : PyResult × Host → Pos × List TcpAct → Prop}
    (hQ : ∀ h' t0, R h' (if nrepeat.toNat = 0 then r else peer) →
      wp (scriptHandler D advance waits) (closeRun tcp h' size nrepeat t0) Q
        (⟨i, nrepeat.toNat⟩, rest)) :
    wp (scriptHandler D advance waits) (sync h)
      (fun h' => wp (scriptHandler D advance waits) (measureRun tcp h' size nrepeat) Q)
      (⟨i, 0⟩, syncScript ⟨i, 0⟩ ++ (did ⟨i, 0⟩ .timedLoop ::
        (loopScript s i own peer 0 nrepeat.toNat ++ rest))) := by
  rw [syncScript, List.append_assoc]
  refine script_sync hD fun t0 => ⟨_, rfl, ?_⟩
  show wp _ ((timedLoop tcp nrepeat.toNat h).bind fun h => closeRun tcp h size nrepeat t0) Q _
  refine wp_bind (script_timedLoop hR hpeer htr hsend 0 h r hh hfirst ?_)
  intro h' hh'
  rw [Nat.zero_add]
  exact hQ h' t0 hh'

end loop

/-- Reports. -/
theorem script_report (ms : List Mismatch) {Q : Unit → Pos × List TcpAct → Prop}
    (hQ : Q () (p, rest)) :
    wp (scriptHandler D advance waits) (report ms) Q
      (p, ms.map (fun m => .did p (.mismatch m)) ++ rest) := by
  induction ms with
  | nil => exact hQ
  | cons m ms ih => exact ⟨_, rfl, ih⟩

/-- `run_iters` once the header is through: the whole of the rest, on side `s`. -/
theorem script_body (hD : Controlled D) (H : Hosts) {s : Side} {h : Host}
    (hset : h.settings = (H.host s).settings) {i : Nat} {size nrepeat : UInt32}
    {Q : PyResult × Host → Pos × List TcpAct → Prop}
    (hQ : ∀ h' t, h'.settings = h.settings →
      Q (.tuple (toInt32 size) (toInt32 nrepeat) t, h') (⟨i + 1, 0⟩, rest)) :
    wp (scriptHandler D advance waits) (runBody tcp h size nrepeat) Q
      (⟨i, 0⟩, bodyScript H s i size nrepeat ++ rest) := by
  have hcache : h.args.cache = false := congrArg Settings.cache hset
  have horder : h.order = H.order s := congrArg Settings.order hset
  have hasync : h.asyncReceive = H.asyncReceive s := congrArg Settings.asyncReceive hset
  have htr : h.args.tr = decide (s = .left) := (congrArg Settings.tr hset).trans (H.host_tr s)
  simp only [bodyScript, List.append_assoc, List.cons_append, ← hasync]
  refine script_prep hcache ?_
  intro h₁ hset₁ hh₁
  rw [horder] at hh₁
  have hpeer : (H.payload s.other (nbytes size)).length = nbytes size := pattern_length ..
  have htr₁ : h₁.args.tr = decide (s = .left) := (congrArg Settings.tr hset₁).trans htr
  refine script_exchange (receives_armed h₁.settings _ (H.payload s (nbytes size))) hpeer
    (fun h₂ r hh => (congrArg Settings.tr hh.1).trans htr₁) (fun h₂ hh => armed_sends hh.2) hD
    ⟨rfl, hh₁⟩ (fun _ => armed_sends hh₁) fun h₂ t0 ⟨hset₂, hh₂⟩ => ?_
  have hset' : h₂.settings = h.settings := hset₂.trans hset₁
  have horder' : h₂.order = H.order s := (congrArg Settings.order hset').trans horder
  obtain ⟨⟨ms, d⟩, hms⟩ := lfsrcheck_total (H.order s) 98 (Nat.le_of_eq hh₂.length_r.symm)
  rw [show (if nrepeat.toNat = 0 then _ else _) = H.final s _ _ from rfl] at hh₂ hms
  have hreports : H.reports s (nbytes size) nrepeat.toNat = ms := by
    rw [Hosts.reports, hms]
    rfl
  rw [← horder'] at hms
  simp only [hreports, closeScript, List.cons_append, List.append_assoc]
  exact wp_closeRun tcp_generic ((congrArg Settings.cache hset').trans hcache) hh₂
    (nbytes_lt size) hms
    ⟨_, rfl, script_report ms ⟨_, rfl, fun h' t hsame => hQ h' t (hsame.settings.trans hset')⟩⟩

/-- What a run is to give: its own arguments and the time it took. -/
def Timed (call : Int × Int) (a : PyResult) : Prop := ∃ t, a = .tuple call.1 call.2 t

/-- `run_iters` of the transmitter, as far as the header; `size` may be 0. -/
theorem script_transmit (hD : Controlled D) {h : Host} (htr : h.args.tr = true) {pyargs : List Int}
    {size nrepeat : UInt32} (hargs : pyArgParseTuple pyargs = some (size, nrepeat))
    {Q : PyResult × Host → Pos × List TcpAct → Prop}
    (hQ : wp (scriptHandler D advance waits) (runBody tcp h size nrepeat) Q (p, rest)) :
    wp (scriptHandler D advance waits) (netpipeRunIters tcp h pyargs) Q
      (p, headScript .left p size nrepeat ++ rest) := by
  simp only [netpipeRunIters, hargs, runWith, htr, if_true, headScript, List.append_assoc]
  exact wp_bind (script_sendRepeat hD (wp_bind (script_sendRepeat hD hQ)))

/-- `run_iters` of the receiver, as far as the test for the exit signal. -/
theorem script_receive {h : Host} (hrcv : h.args.rcv = true) {size nrepeat : UInt32}
    {Q : PyResult × Host → Pos × List TcpAct → Prop}
    (hQ : wp (scriptHandler D advance waits)
      (if size = 0 then do
          mark .returned
          .ret (.null, h)
        else runWith tcp h size nrepeat) Q (p, rest)) :
    wp (scriptHandler D advance waits) (netpipeRunIters tcp h []) Q
      (p, headScript .right p size nrepeat ++ rest) := by
  simp only [netpipeRunIters, pyArgParseTuple, hrcv, if_true, headScript, List.append_assoc]
  exact wp_bind (script_recvRepeat (wp_bind (script_recvRepeat hQ)))

/-- The header of a run, on either side. -/
theorem script_header (hD : Controlled D) {s : Side} {h : Host}
    (htr : h.args.tr = decide (s = .left)) (hrcv : h.args.rcv = decide (s = .right)) {r : Run}
    {Q : PyResult × Host → Pos × List TcpAct → Prop}
    (hQ : wp (scriptHandler D advance waits)
      (runBody tcp h (toUint32 r.size) (toUint32 r.nrepeat)) Q (p, rest)) :
    wp (scriptHandler D advance waits) (netpipeRunIters tcp h (pyargs s r.call)) Q
      (p, headScript s p (toUint32 r.size) (toUint32 r.nrepeat) ++ rest) := by
  cases s with
  | left => exact script_transmit hD htr r.parse hQ
  | right =>
    refine script_receive hrcv ?_
    rw [if_neg r.size32_ne_zero, runWith, htr]
    exact hQ

/-- **One run**, on either side, whatever the header says: the transmitter takes it from its
    caller and the receiver from the socket. -/
theorem script_run (hD : Controlled D) (H : Hosts) {s : Side} {h : Host}
    (hset : h.settings = (H.host s).settings) {i : Nat} {r : Run}
    {Q : PyResult × Host → Pos × List TcpAct → Prop}
    (hQ : ∀ h' a, h'.settings = (H.host s).settings → Timed r.call a →
      Q (a, h') (⟨i + 1, 0⟩, rest)) :
    wp (scriptHandler D advance waits) (netpipeRunIters tcp h (pyargs s r.call)) Q
      (⟨i, 0⟩, runScript H s i r ++ rest) := by
  rw [runScript, List.append_assoc]
  exact script_header hD ((congrArg Settings.tr hset).trans (H.host_tr s))
    ((congrArg Settings.rcv hset).trans (H.host_rcv s))
    (script_body hD H hset fun h' t hset' => hQ h' _ (hset'.trans hset) ⟨t, r.toInt32_eq t⟩)

/-- **A session**, by induction on its runs; `more` are calls that come after them. -/
theorem script_session (hD : Controlled D) (H : Hosts) {s : Side} {more : List (List Int)}
    (runs : List Run) :
    ∀ (i : Nat) (h : Host) (Q : List PyResult → Pos × List TcpAct → Prop),
      h.settings = (H.host s).settings →
      (∀ h' as, h'.settings = (H.host s).settings → List.Forall₂ Timed (runs.map Run.call) as →
        wp (scriptHandler D advance waits) (session tcp h' more) (fun bs => Q (as ++ bs))
          (⟨i + runs.length, 0⟩, rest)) →
      wp (scriptHandler D advance waits) (session tcp h (runs.map (pyargs s ·.call) ++ more)) Q
        (⟨i, 0⟩, sessionScript H s i runs ++ rest) := by
  induction runs with
  | nil => exact fun i h Q hset hQ => hQ h [] hset .nil
  | cons r runs ih =>
    intro i h Q hset hQ
    rw [sessionScript, List.append_assoc]
    refine wp_bind (script_run hD H hset fun h' a hset' ha => wp_bind ?_)
    refine ih (i + 1) h' _ hset' ?_
    intro h'' as hset'' has
    have := hQ h'' (a :: as) hset'' (.cons ha has)
    rwa [List.length_cons, ← Nat.add_assoc, Nat.add_right_comm] at this

end follows

end NetPipe.Tcp
