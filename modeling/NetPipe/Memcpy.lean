/-
  `memcpy.c` under `run_iters`: a single process that copies from one of its buffers to the other
  and back.

  Nearly everything of the module is empty; what is left is `SendData`, which copies to `r_ptr`, and
  `RecvData`, which copies from there.  `Init` is to make the process a transmitter, and is written
  for an `ArgStruct *` where `netpipe_object` passes the object, so what `tr` is when `run_iters`
  comes is not for this module to say: everything here is for either value of it.

  1. **The functions** — a copy between two objects that overlap is undefined (`memcpy`).

  2. **One copy each way** (`sendData_eq`, `recvData_eq`) — and from them the timed loop.  The
     load-bearing observation is that the first copy of a run decides: after it both buffers hold
     the same bytes, and every further copy leaves them as they are.  A transmitter sends first, so
     the receive buffer comes to hold what the send buffer was filled with, which the check
     expects; a process that is none receives first, and its receive buffer keeps what it was
     filled with itself (`final`).

  3. **A run, and any number of calls** (`wp_run`, `wp_session`) — the second by induction on the
     calls, with the log of what has been reported as the state.

  4. `memcpy_session` — nothing undefined, the right results, and the condition for the checks to
     be silent.
-/
import NetPipe.Integrity

namespace NetPipe.Memcpy

open Memory Process

abbrev Host := Netpipe Unit

/-- There is nobody to talk to. -/
abbrev Prog (α : Type) := Proc Empty (fun _ => Unit) Event α

/-! ## The functions -/

/-- The `n` bytes at these two places have none in common. -/
def apart (n : Nat) : Ptr → Ptr → Bool
  | .addr b i, .addr c j => b ≠ c || i + n ≤ j || j + n ≤ i
  | _, _ => true

/-- `memcpy(dest, src, n)`. -/
def memcpy (heap : Heap) (dest src : Ptr) (n : Nat) : Option Heap :=
  if apart n dest src then (heap.load src n).bind (heap.store dest) else none

/-- `Setup`, `Sync`, `PrepareToReceive` and `AfterAlignmentInit`. -/
def nothing (h : Host) : Prog Host := .ret h

/-- `SendData`. -/
def sendData (h : Host) : Prog Host := do
  let heap ← Proc.ofOption (memcpy h.heap h.args.rPtr h.args.sPtr (toSizeT h.args.bufflen))
  .ret { h with heap }

/-- `RecvData`. -/
def recvData (h : Host) : Prog Host := do
  let heap ← Proc.ofOption (memcpy h.heap h.args.sPtr h.args.rPtr (toSizeT h.args.bufflen))
  .ret { h with heap }

/-- The module.  `RecvRepeat` leaves the caller's variable as it is; nothing calls it where `rcv`
    is not set. -/
def module : Module Empty (fun _ => Unit) Unit where
  sendRepeat h _ := .ret h
  recvRepeat h := .ret (0, h)
  myMalloc
  initBufferData
  afterAlignmentInit := nothing
  prepareToReceive := nothing
  sync := nothing
  sendData
  recvData
  checkBufferData
  freeBuff

theorem module_generic : module.Generic := ⟨rfl, rfl, rfl, rfl, rfl⟩

/-- The surroundings of a process: memory, which may be used up or not, and the log of what is
    reported. -/
def desk (usedUp : Prop) : Env Empty (fun _ => Unit) Event (List Mismatch) where
  emit e log := log ++ (mismatchOf e).toList
  alloc n r := (r = none → usedUp) ∧ ∀ bs, r = some bs → bs.length = n
  answer o := o.elim

/-! ## One copy -/

section copies

variable {h : Host} {n : Nat} {r s : List UInt8}

theorem memcpy_blocks {heap : Heap} {i j : Nat} (hij : i ≠ j) (hi : heap.block i = some r)
    (hj : heap.block j = some s) (hlen : s.length = r.length) :
    memcpy heap (.addr i 0) (.addr j 0) s.length =
      some ⟨heap.next, Function.update heap.block i (some s)⟩ := by
  have hblock : heap.block i = some ([] ++ (r ++ [])) := by rwa [List.append_nil, List.nil_append]
  have hstore := Heap.store_addr hblock rfl hlen
  rw [List.append_nil, List.nil_append, List.length_nil] at hstore
  rw [memcpy, apart, if_pos (by simp [hij]), Heap.load_addr hj (by omega), List.drop_zero,
    List.take_length]
  exact hstore

theorem toSizeT_bufflen (hh : Armed h n r s) (hn : n < 2 ^ 31) :
    toSizeT h.args.bufflen = n := by
  rw [hh.bufflen, toSizeT_eq (by omega) (by omega), Int.toNat_natCast]

/-- `SendData`: the receive buffer holds what the send buffer does. -/
theorem sendData_eq (hh : Armed h n r s) (hn : n < 2 ^ 31) :
    ∃ h', sendData h = .ret h' ∧ Same h h' ∧ Armed h' n s s := by
  have hcount := toSizeT_bufflen hh hn
  obtain ⟨i, j, hij, hi, hj, hrb, hrp, hro, hsb, hsp, hso⟩ := hh.blocks
  have hlen : s.length = r.length := hh.length_s.trans hh.length_r.symm
  rw [sendData, hcount, hrp, hsp, ← hh.length_s, memcpy_blocks hij hi hj hlen]
  refine ⟨_, rfl, ⟨rfl, rfl, rfl⟩, hh.bufflen.trans (by rw [hh.length_s]), rfl, rfl, i, j, hij,
    Function.update_self .., ?_, hrb, hrp, hro, hsb, hsp, hso⟩
  exact (Function.update_of_ne hij.symm ..).trans hj

/-- `RecvData`: the other way. -/
theorem recvData_eq (hh : Armed h n r s) (hn : n < 2 ^ 31) :
    ∃ h', recvData h = .ret h' ∧ Same h h' ∧ Armed h' n r r := by
  have hcount := toSizeT_bufflen hh hn
  obtain ⟨i, j, hij, hi, hj, hrb, hrp, hro, hsb, hsp, hso⟩ := hh.blocks
  have hlen : r.length = s.length := hh.length_r.trans hh.length_s.symm
  rw [recvData, hcount, hrp, hsp, ← hh.length_r, memcpy_blocks hij.symm hj hi hlen]
  refine ⟨_, rfl, ⟨rfl, rfl, rfl⟩, hh.bufflen.trans (by rw [hh.length_r]), rfl, rfl, i, j, hij, ?_,
    Function.update_self .., hrb, hrp, hro, hsb, hsp, hso⟩
  exact (Function.update_of_ne hij ..).trans hi

end copies

/-! ## A run -/

section runs

variable {usedUp : Prop} {h : Host} {n : Nat} {r s : List UInt8} {log : List Mismatch}

/-- The process may be left where memory is used up, and does nothing undefined. -/
abbrev deskHandler (usedUp : Prop) : Handler Empty (fun _ => Unit) Event (List Mismatch) :=
  (desk usedUp).strict fun _ => usedUp

theorem sane_deskHandler : Sane (deskHandler usedUp) where
  alloc_length := fun h => h.2 _ rfl
  alloc_fail := fun h _ _ _ => h.1 rfl

/-- A mark is not reported. -/
@[simp] theorem desk_mark (m : Mark) : (desk usedUp).emit (.mark m) log = log :=
  List.append_nil log

theorem wp_mark {m : Mark} {Q : Unit → List Mismatch → Prop} (hQ : Q () log) :
    wp (deskHandler usedUp) (mark m) Q log := by
  show Q () ((desk usedUp).emit (.mark m) log)
  rwa [desk_mark]

theorem wp_sendMarked {Q : Host → List Mismatch → Prop} (hh : Armed h n r s) (hn : n < 2 ^ 31)
    (hQ : ∀ h', Same h h' → Armed h' n s s → Q h' log) :
    wp (deskHandler usedUp) (sendMarked module h) Q log := by
  obtain ⟨h', hsend, hsame, hh'⟩ := sendData_eq hh hn
  refine wp_bind (wp_mark ?_)
  show wp _ (sendData h) Q log
  rw [hsend]
  exact hQ h' hsame hh'

theorem wp_recvMarked {Q : Host → List Mismatch → Prop} (hh : Armed h n r s) (hn : n < 2 ^ 31)
    (hQ : ∀ h', Same h h' → Armed h' n r r → Q h' log) :
    wp (deskHandler usedUp) (recvMarked module h) Q log := by
  obtain ⟨h', hrecv, hsame, hh'⟩ := recvData_eq hh hn
  apply wp_bind
  show wp _ (recvData h) _ log
  rw [hrecv]
  exact wp_bind (wp_mark (hQ h' hsame hh'))

/-- What both buffers hold once something has been copied. -/
def settled (tr : Bool) (r s : List UInt8) : List UInt8 := if tr then s else r

/-- What the receive buffer holds after `k` iterations. -/
def final (tr : Bool) (k : Nat) (r s : List UInt8) : List UInt8 :=
  if k = 0 then r else settled tr r s

theorem final_settled (tr : Bool) (k : Nat) (r : List UInt8) : final tr k r r = r := by
  unfold final settled
  simp only [ite_self]

/-- **The timed loop**, by induction on the iterations to go. -/
theorem wp_timedLoop {tr : Bool} {Q : Host → List Mismatch → Prop} (hn : n < 2 ^ 31) (k : Nat) :
    ∀ {h : Host} {r s : List UInt8}, h.args.tr = tr → Armed h n r s →
    (∀ h' s', Same h h' → Armed h' n (final tr k r s) s' → Q h' log) →
    wp (deskHandler usedUp) (timedLoop module k h) Q log := by
  induction k with
  | zero =>
    intro h r s _ hh hQ
    exact hQ h s .rfl hh
  | succ k ih =>
    intro h r s htr hh hQ
    -- one iteration leaves both buffers with the same, which the others do not change
    have hrest : ∀ h₁, Same h h₁ → Armed h₁ n (settled tr r s) (settled tr r s) →
        wp (deskHandler usedUp) ((mark .iterated).bind fun _ => timedLoop module k h₁) Q log := by
      intro h₁ hsame₁ hh₁
      have htr₁ : h₁.args.tr = tr := (congrArg Settings.tr hsame₁.settings).trans htr
      refine wp_bind (wp_mark (ih htr₁ hh₁ ?_))
      intro h₂ s' hsame₂ hh₂
      rw [final_settled] at hh₂
      exact hQ h₂ s' (hsame₁.trans hsame₂) (by rwa [final, if_neg (Nat.succ_ne_zero k)])
    rw [timedLoop, htr]
    cases tr with
    | true =>
      refine wp_bind (wp_sendMarked hh hn fun h₁ hsame₁ hh₁ => ?_)
      exact wp_bind (wp_recvMarked hh₁ hn fun h₂ hsame₂ => hrest h₂ (hsame₁.trans hsame₂))
    | false =>
      refine wp_bind (wp_recvMarked hh hn fun h₁ hsame₁ hh₁ => ?_)
      exact wp_bind (wp_sendMarked hh₁ hn fun h₂ hsame₂ => hrest h₂ (hsame₁.trans hsame₂))

/-- What the check of a run reports. -/
def reports (order : ByteOrder) (tr : Bool) (size nrepeat : UInt32) : List Mismatch :=
  differences order (pattern order 98 (nbytes size))
    (final tr nrepeat.toNat (pattern order 97 (nbytes size)) (pattern order 98 (nbytes size)))
    (nbytes size)

/-- What the process is between two runs. -/
structure Ready (h : Host) (order : ByteOrder) (tr : Bool) : Prop where
  order : h.order = order
  cache : h.args.cache = false
  tr : h.args.tr = tr
  rcv : h.args.rcv = false

theorem Ready.same {order : ByteOrder} {tr : Bool} {h' : Host} (hr : Ready h order tr)
    (hsame : Same h h') : Ready h' order tr :=
  ⟨(congrArg Settings.order hsame.settings).trans hr.order,
    (congrArg Settings.cache hsame.settings).trans hr.cache,
    (congrArg Settings.tr hsame.settings).trans hr.tr,
    (congrArg Settings.rcv hsame.settings).trans hr.rcv⟩

variable {order : ByteOrder} {tr : Bool} {Q : PyResult × Host → List Mismatch → Prop}

/-- **A run**: the buffers, the loop, and the check of what the loop has left.  The two buffers
    are different blocks, so no `memcpy` between them overlaps. -/
theorem wp_run {size nrepeat : UInt32} (hr : Ready h order tr)
    (hQ : ∀ h' t, Ready h' order tr →
      Q (.tuple (toInt32 size) (toInt32 nrepeat) t, h') (log ++ reports order tr size nrepeat)) :
    wp (deskHandler usedUp) (runWith module h size nrepeat) Q log := by
  have hn := nbytes_lt size
  -- the header goes nowhere
  have hhead : runWith module h size nrepeat = runBody module h size nrepeat := by
    rw [runWith]
    cases h.args.tr <;> rfl
  rw [hhead]
  apply wp_runBody module_generic sane_deskHandler hr.cache
  simp only [Env.strict, Env.demon, desk_mark]
  intro h₁ hsame₁ hh₁
  have hr₁ := hr.same hsame₁
  have hmeasure : wp (deskHandler usedUp) (measureRun module h₁ size nrepeat) Q log := by
    intro t₀
    refine wp_bind (wp_mark (wp_bind (wp_timedLoop hn nrepeat.toNat hr₁.tr hh₁ ?_)))
    intro h₂ s₂ hsame₂ hh₂
    have hr₂ := hr₁.same hsame₂
    rw [hr.order] at hh₂
    obtain ⟨d, hcheck⟩ : ∃ d, lfsrcheck h₂.order _ 98 (nbytes size) =
        some (reports order tr size nrepeat, d) := by
      rw [hr₂.order]
      exact ⟨_, lfsrcheck_eq order 98 (Nat.le_of_eq hh₂.length_r.symm)⟩
    apply wp_closeRun module_generic hr₂.cache hh₂ hn hcheck
    simp only [Env.strict, Env.demon, desk_mark]
    exact wp_report id (fun _ _ _ => id) _ fun h₃ t hsame₃ => hQ h₃ t (hr₂.same hsame₃)
  rw [syncRun]
  by_cases hasync : h₁.asyncReceive = true
  · rw [if_pos hasync]
    show wp _ ((mark .prepareToReceive).bind fun _ => .ret h₁) _ log
    exact wp_bind (wp_mark hmeasure)
  · rw [if_neg hasync]
    exact hmeasure

/-! ## Calls -/

/-- What a call gives: an exception, or its own size and repeat count. -/
def Answer (pyargs : List Int) (r : PyResult) : Prop :=
  match pyArgParseTuple pyargs with
  | none => r = .null
  | some (size, nrepeat) => ∃ t, r = .tuple (toInt32 size) (toInt32 nrepeat) t

/-- What its check reports. -/
def callReports (order : ByteOrder) (tr : Bool) (pyargs : List Int) : List Mismatch :=
  match pyArgParseTuple pyargs with
  | none => []
  | some (size, nrepeat) => reports order tr size nrepeat

/-- **One call.** -/
theorem wp_call (pyargs : List Int) (hr : Ready h order tr)
    (hQ : ∀ r h', Answer pyargs r → Ready h' order tr →
      Q (r, h') (log ++ callReports order tr pyargs)) :
    wp (deskHandler usedUp) (netpipeRunIters module h pyargs) Q log := by
  rw [netpipeRunIters]
  rcases hparse : pyArgParseTuple pyargs with _ | ⟨size, nrepeat⟩
  · simp only [callReports, Answer, hparse, List.append_nil] at hQ
    simp only [hr.rcv, Bool.false_eq_true, if_false]
    exact wp_bind (wp_mark (hQ _ h rfl hr))
  · simp only [callReports, Answer, hparse] at hQ
    exact wp_run hr fun h' t hr' => hQ _ h' ⟨t, rfl⟩ hr'

/-- **All calls**, by induction on them. -/
theorem wp_session (calls : List (List Int)) : ∀ {h : Host} {log : List Mismatch},
    Ready h order tr → wp (deskHandler usedUp) (session module h calls)
      (fun rs log' => List.Forall₂ Answer calls rs ∧
        log' = log ++ calls.flatMap (callReports order tr)) log := by
  induction calls with
  | nil => exact fun _ => ⟨.nil, (List.append_nil _).symm⟩
  | cons pyargs calls ih =>
    intro h log hr
    refine wp_bind (wp_call pyargs hr fun r h₁ hanswer hr₁ => ?_)
    refine wp_bind (wp_mono ?_ (ih hr₁))
    rintro rs log' ⟨hrs, rfl⟩
    exact ⟨.cons hanswer hrs, by rw [List.flatMap_cons, List.append_assoc]⟩

/-- When the check of a run is silent. -/
theorem reports_eq_nil_iff (order : ByteOrder) (tr : Bool) (size nrepeat : UInt32) :
    reports order tr size nrepeat = [] ↔
      tr = true ∧ nrepeat ≠ 0 ∨ nbytes size = 0 ∨ order = .big ∧ nbytes size = 1 := by
  have hzero : nrepeat.toNat = 0 ↔ nrepeat = 0 := UInt32.toNat_inj (b := 0)
  by_cases hcopied : tr = true ∧ nrepeat ≠ 0
  · -- what the send buffer was filled with has come into the receive buffer
    have hfinal : ∀ r s, final tr nrepeat.toNat r s = s := by
      intro r s
      rw [final, if_neg (mt hzero.mp hcopied.2), settled, if_pos hcopied.1]
    have hnil := differences_pattern_eq_nil_iff order 98
      (Nat.le_of_eq (pattern_length order 98 (nbytes size)).symm)
    rw [reports, hfinal, hnil, List.take_of_length_le (Nat.le_of_eq (pattern_length ..))]
    exact ⟨fun _ => Or.inl hcopied, fun _ => rfl⟩
  · -- the receive buffer holds what it was filled with itself
    have hfinal : ∀ r s, final tr nrepeat.toNat r s = r := by
      intro r s
      rw [final, settled]
      by_cases h0 : nrepeat = 0
      · rw [if_pos (hzero.mpr h0)]
      · rw [if_neg fun htr => hcopied ⟨htr, h0⟩, ite_self]
    rw [reports, hfinal, untouched_passes_iff, or_iff_right hcopied]

end runs

/-- **`run_iters` over `memcpy.c`**, for an object with `tr` either way that is neither a receiver
    nor in cached mode, any calls, and whatever memory it is given: it does nothing undefined, and
    leaves the process only where memory is used up; else each call gives its result, and the
    checks report nothing exactly where each accepted call is made by a transmitter and has an
    iteration, or has no byte, or one byte on a big-endian host. -/
theorem memcpy_session (usedUp : Prop) (h : Host) (hcache : h.args.cache = false)
    (hrcv : h.args.rcv = false) (calls : List (List Int))
    {out : Outcome (List PyResult)} {log : List Mismatch}
    (hexec : Exec (desk usedUp) (session module h calls) [] out log) :
    out.Ends (fun rs log => List.Forall₂ Answer calls rs ∧ (log = [] ↔
      ∀ pyargs ∈ calls, ∀ size nrepeat, pyArgParseTuple pyargs = some (size, nrepeat) →
        h.args.tr = true ∧ nrepeat ≠ 0 ∨ nbytes size = 0 ∨ h.order = .big ∧ nbytes size = 1))
      (fun _ => usedUp) log := by
  refine hexec.ends (wp_mono ?_ (wp_session calls ⟨rfl, hcache, rfl, hrcv⟩))
  rintro rs log ⟨hrs, rfl⟩
  refine ⟨hrs, ?_⟩
  rw [List.nil_append, List.flatMap_eq_nil_iff]
  refine forall₂_congr fun pyargs _ => ?_
  rw [callReports]
  rcases hparse : pyArgParseTuple pyargs with _ | ⟨size, nrepeat⟩
  · exact ⟨nofun, fun _ => rfl⟩
  · simp only [reports_eq_nil_iff, Option.some.injEq, Prod.mk.injEq]
    constructor
    · rintro h _ _ ⟨rfl, rfl⟩
      exact h
    · exact fun h => h size nrepeat ⟨rfl, rfl⟩

/-- A transmitter, with memory that is never used up: a byte copied once and a byte not copied at
    all give their results, and the second one is reported. -/
theorem memcpy_session_two : ∃ rs log,
    Exec (desk False) (session module (netpipeObject .little () (some "localhost"))
        [[8, 1], [8, 0]]) [] (.returned rs) log ∧
      List.Forall₂ Answer [[8, 1], [8, 0]] rs ∧ log ≠ [] := by
  obtain ⟨out, log, h⟩ := Exec.total (E := desk False) (fun n => ⟨some (List.replicate n 0),
    nofun, fun bs hbs => Option.some.inj hbs ▸ List.length_replicate⟩) (fun o => o.elim)
    (session module (netpipeObject .little () (some "localhost")) [[8, 1], [8, 0]]) []
  have hends := memcpy_session False _ rfl rfl [[8, 1], [8, 0]] h
  cases out with
  | returned rs =>
    obtain ⟨hrs, hlog⟩ := hends
    refine ⟨rs, log, h, hrs, fun hnil => ?_⟩
    exact absurd (hlog.mp hnil [8, 0] (by decide) 8 0 rfl) (by decide)
  | exited code msg => exact hends.elim
  | faulted => exact hends.elim

end NetPipe.Memcpy
