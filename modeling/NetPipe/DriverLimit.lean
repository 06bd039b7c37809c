/-
  Where the schedule of the drivers leaves the range of a C `int`.

  `run_iters` takes its arguments with the format `ii`, and Python's integers have no bound.  The
  main loop has no bound either but the times, so the question is how many turns it makes, and what
  it is left by.

  1. **Sizes by number** (`sizeAt`) — three a turn; they ascend (`sizeAt_lt`), and the last of turn
     50 is the first of `2 ^ 31` bits (`sizeAt_limit`), so `intArg` accepts exactly those before.

  2. **Measured times** (`measures times`) — `run_iters` refuses what the format refuses, and its
     `j`-th call takes `times j`.  The driver is deterministic then, and `Measured τ t₀ times c`
     says that it gets as far as the `c`-th size: the loop goes on at every turn up to there, every
     repeat count is computed and fits an `int`, and every rate is computed (`Passes`).

  3. **One lemma for a perturbation, a turn and the loop each** (`wp_measured_loop`), for whatever
     is to hold where the driver is left (`Left`) and where it comes out of its loop.  The
     load-bearing step is that `Left` is asked for the sizes the driver gets to only: what is known
     of `Measured` there decides which of the three ways to be left is open.

  4. **The condition** (`sizes_accepted_iff`) — both directions are that lemma: where the loop stops
     in time, `Left` holds because there is no such size; where it does not, the loop cannot come
     out, for turn 50 is never completed (`not_measured_limit`).
-/
import Mathlib.Data.List.GetD
import NetPipe.Driver
import NetPipe.Netpipe

namespace NetPipe.Driver

open Process

/-! ## Sizes by number -/

/-- The `c`-th size: three a turn. -/
def sizeAt (c : Nat) : Int := (turnSizes (c / 3)).getD (c % 3) 0

/-- What `oldsize` is at the `c`-th size. -/
def oldsizeAt : Nat → Int
  | 0 => 8
  | c + 1 => sizeAt c

/-- The sizes are numbered in the order they are asked for. -/
theorem sizes_getElem? (k c : Nat) (hc : c < 3 * k) : (sizes k)[c]? = some (sizeAt c) := by
  have hlen := length_turnSizes (c / 3)
  have hdiv : c = 3 * (c / 3) + c % 3 := (Nat.div_add_mod c 3).symm
  have hturn := take_drop_sizes (j := c / 3) (k := k) (by omega)
  rw [sizeAt, List.getD_eq_getElem _ _ (by omega), ← List.getElem?_eq_getElem, ← hturn,
    List.getElem?_take, if_pos (by omega), List.getElem?_drop, ← hdiv]

/-- They ascend. -/
theorem sizeAt_lt {b c : Nat} (h : b < c) : sizeAt b < sizeAt c := by
  obtain ⟨hasc, -⟩ := sizes_ascend (c + 1)
  have hlen := length_sizes (c + 1)
  have hb := sizes_getElem? (c + 1) b (by omega)
  have hc := sizes_getElem? (c + 1) c (by omega)
  obtain ⟨hb', hb⟩ := List.getElem?_eq_some_iff.mp hb
  obtain ⟨hc', hc⟩ := List.getElem?_eq_some_iff.mp hc
  rw [← hb, ← hc]
  exact List.pairwise_iff_getElem.mp hasc b c hb' hc' h

theorem sizeAt_pos (c : Nat) : 0 < sizeAt c := by
  obtain ⟨-, hpos⟩ := sizes_ascend (c + 1)
  exact (hpos _ (List.mem_of_getElem? (sizes_getElem? (c + 1) c (by omega)))).1

/-- The third size of turn 50 has `2 ^ 31` bits. -/
theorem sizeAt_limit : sizeAt 152 = 2 ^ 31 := by
  have h : turnSizes 50 = [48 * 2 ^ 22 + 3, 64 * 2 ^ 22 - 3, 64 * 2 ^ 22].map (8 * ·) :=
    turnSizes_even 22
  rw [sizeAt, show 152 / 3 = 50 from rfl, h]
  rfl

/-- **The limit**: the sizes before that one are accepted, it is not. -/
theorem intArg_sizeAt {c : Nat} (hc : c < 152) : (intArg (sizeAt c)).isSome := by
  have hlt := sizeAt_lt hc
  have hpos := sizeAt_pos c
  rw [sizeAt_limit] at hlt
  unfold intArg
  rw [if_pos (by omega)]
  rfl

theorem intArg_limit : intArg (sizeAt 152) = none := by
  rw [sizeAt_limit]
  rfl

/-! ## Measured times -/

section measured

variable {T : Type} (τ : Timing T) (t₀ : T) (times : Nat → T × T)

/-- `run_iters` raises where the format refuses its arguments; else its `j`-th call measures
    `times j`, the total and the time of an iteration.  The state is the sizes it was called
    with. -/
def measures : Env Call (Call.Res T) (Out T) (List Int) where
  emit _ calls := calls
  alloc _ _ := True
  answer
    | .runIters size iters, calls, r, calls' => calls' = calls ++ [size] ∧
        if (pyArgParseTuple [size, iters]).isSome then
          r = some ⟨size, iters, (times calls.length).1, (times calls.length).2⟩
        else r = none

/-- What the runs of the `c`-th size measure. -/
def timesAt (c : Nat) : List (T × T) := [times (3 * c), times (3 * c + 1), times (3 * c + 2)]

/-- `iterationTime` when the `c`-th size comes up. -/
def timeAt : Nat → T
  | 0 => t₀
  | c + 1 => τ.minimum ((timesAt times c).map Prod.snd)

/-- `iters` for the `c`-th size. -/
def itersAt (c : Nat) : Option Int :=
  τ.iterFunc (timeAt τ t₀ times c) (oldsizeAt c) (sizeAt c)

/-- The repeat count for the `c`-th size is computed and fits an `int`, and the rate is computed. -/
structure Computes (c : Nat) : Prop where
  iters : ∃ iters, itersAt τ t₀ times c = some iters ∧ (intArg iters).isSome
  rated : τ.rated (τ.minimum ((timesAt times c).map Prod.fst)) = true

/-- A turn starts with the `c`-th size only where the time is below `STOPTM`. -/
def Goes (c : Nat) : Prop := c % 3 = 0 → τ.running (timeAt τ t₀ times c) = true

/-- The runs of the `c`-th size go through. -/
structure Passes (c : Nat) : Prop where
  parsed : ∃ iters w, itersAt τ t₀ times c = some iters ∧
    pyArgParseTuple [sizeAt c, iters] = some w
  rated : τ.rated (τ.minimum ((timesAt times c).map Prod.fst)) = true

/-- The times are such that the first `c` sizes have been measured. -/
def Measured : Nat → Prop
  | 0 => True
  | c + 1 => Measured c ∧ Goes τ t₀ times c ∧ Passes τ t₀ times c

/-- The times stop the loop before turn `k`, and all is well up to there. -/
structure Stops (k : Nat) : Prop where
  running : τ.running (timeAt τ t₀ times (3 * k)) = false
  computes : ∀ c < 3 * k, Computes τ t₀ times c

/-- The sizes `run_iters` has been called with when the first `c` have been measured. -/
def asked : Nat → List Int
  | 0 => []
  | c + 1 => asked c ++ List.replicate TRIALS (sizeAt c)

theorem length_asked (c : Nat) : (asked c).length = 3 * c := by
  induction c with
  | zero => rfl
  | succ c ih =>
    rw [asked, List.length_append, ih, List.length_replicate]
    rfl

variable {τ t₀ times}

theorem Measured.mono {b c : Nat} (h : b ≤ c) (hc : Measured τ t₀ times c) :
    Measured τ t₀ times b := by
  induction h with
  | refl => exact hc
  | step _ ih => exact ih hc.1

/-- Where the driver comes to its `c`-th size, no turn up to there has been stopped. -/
theorem Measured.goes {b c : Nat} (h : b ≤ c) (hc : Measured τ t₀ times c)
    (hgo : Goes τ t₀ times c) : Goes τ t₀ times b := by
  rcases Nat.lt_or_eq_of_le h with hlt | rfl
  · exact (hc.mono (Nat.succ_le_of_lt hlt)).2.1
  · exact hgo

/-- `PyArg_ParseTuple` looks at the size first, and then at the repeat count. -/
theorem parse_eq_some {size iters : Int} :
    (∃ w, pyArgParseTuple [size, iters] = some w) ↔
      (intArg size).isSome ∧ (intArg iters).isSome := by
  cases hs : intArg size <;> cases hi : intArg iters <;> simp [pyArgParseTuple, hs, hi]

/-- Below the limit it is the times alone that decide. -/
theorem Computes.passes {c : Nat} (h : Computes τ t₀ times c) (hc : c < 152) :
    Passes τ t₀ times c := by
  obtain ⟨iters, hi, hacc⟩ := h.iters
  obtain ⟨w, hw⟩ := parse_eq_some.mpr ⟨intArg_sizeAt hc, hacc⟩
  exact ⟨⟨iters, w, hi, hw⟩, h.rated⟩

theorem Passes.computes {c : Nat} (h : Passes τ t₀ times c) : Computes τ t₀ times c := by
  obtain ⟨iters, w, hi, hw⟩ := h.parsed
  exact ⟨⟨iters, hi, (parse_eq_some.mp ⟨w, hw⟩).2⟩, h.rated⟩

theorem Passes.accepted {c : Nat} (h : Passes τ t₀ times c) : (intArg (sizeAt c)).isSome := by
  obtain ⟨iters, w, -, hw⟩ := h.parsed
  exact (parse_eq_some.mp ⟨w, hw⟩).1

/-- What has been measured has been accepted. -/
theorem Measured.accepted {c : Nat} (hc : Measured τ t₀ times c) :
    ∀ size ∈ asked c, (intArg size).isSome := by
  induction c with
  | zero =>
    intro size hsize
    cases hsize
  | succ c ih =>
    intro size hsize
    rcases List.mem_append.mp hsize with hsize | hsize
    · exact ih hc.1 size hsize
    · rw [List.eq_of_mem_replicate hsize]
      exact hc.2.2.accepted

/-- So nothing is measured after the limit. -/
theorem not_measured_limit : ¬ Measured τ t₀ times 153 := by
  intro hc
  have hsome := hc.2.2.accepted
  rw [intArg_limit] at hsome
  cases hsome

/-! ## The driver on these times -/

/-- Runs of the same size that is accepted: each takes its time. -/
theorem wp_measured_trials {P : List Int → Prop} {size iters : Int}
    (hparse : (pyArgParseTuple [size, iters]).isSome) (k : Nat) :
    ∀ (rs : List (Answer T)) (calls : List Int) {Q : List (Answer T) → List Int → Prop},
    (∀ rs', rs'.map (fun r => (r.tTime, r.iTime)) = (List.range' calls.length k).map times →
      Q (rs ++ rs') (calls ++ List.replicate k size)) →
    wp ((measures times).handlerOn P) (trials size iters k rs) Q calls := by
  induction k with
  | zero =>
    intro rs calls Q hQ
    have := hQ [] rfl
    rwa [List.replicate_zero, List.append_nil, List.append_nil] at this
  | succ k ih =>
    rintro rs calls Q hQ r _ ⟨rfl, hr⟩
    rw [if_pos hparse] at hr
    subst hr
    apply ih _ _
    intro rs' hrs'
    have := hQ (⟨size, iters, (times calls.length).1, (times calls.length).2⟩ :: rs') (by
      rw [List.map_cons, hrs', List.length_append, List.length_singleton, List.range'_succ,
        List.map_cons])
    rwa [List.replicate_succ, List.append_cons, List.append_cons calls] at this

variable {P : List Int → Prop}

/-- `P` holds where the driver is left at a size it comes to: without a repeat count, with
    arguments that are refused, or without a rate. -/
structure Left (τ : Timing T) (t₀ : T) (times : Nat → T × T) (P : List Int → Prop) (c : Nat) :
    Prop where
  unknown : itersAt τ t₀ times c = none → P (asked c)
  refused : ∀ iters, itersAt τ t₀ times c = some iters →
    pyArgParseTuple [sizeAt c, iters] = none → P (asked c ++ [sizeAt c])
  unrated : τ.rated (τ.minimum ((timesAt times c).map Prod.fst)) = false → P (asked (c + 1))

/-- At a size that goes through it is not left. -/
theorem Passes.left {c : Nat} (h : Passes τ t₀ times c) : Left τ t₀ times P c := by
  obtain ⟨iters, w, hi, hw⟩ := h.parsed
  refine ⟨?_, ?_, ?_⟩
  · intro hnone
    cases hi.symm.trans hnone
  · intro iters' hi' hnone
    obtain rfl : iters = iters' := Option.some.inj (hi.symm.trans hi')
    cases hw.symm.trans hnone
  · intro hrate
    cases h.rated.symm.trans hrate

/-- The variables the times go into, at the `c`-th size. -/
def Vars.At (τ : Timing T) (t₀ : T) (times : Nat → T × T) (c : Nat) (d : Vars T) : Prop :=
  d.iterationTime = timeAt τ t₀ times c ∧ d.size = oldsizeAt c

variable (hP : ∀ c, Measured τ t₀ times c → Goes τ t₀ times c → Left τ t₀ times P c)

include hP

/-- One perturbation. -/
theorem wp_measured_pertRun {c : Nat} {d : Vars T} {pert : Int}
    (hc : Measured τ t₀ times c) (hgo : Goes τ t₀ times c) (hd : d.At τ t₀ times c)
    (hsize : d.permSize + pert = sizeAt c) {Q : Vars T → List Int → Prop}
    (hQ : Measured τ t₀ times (c + 1) → ∀ d' : Vars T, d'.toSched = d.toSched.tick →
      d'.At τ t₀ times (c + 1) → Q d' (asked (c + 1))) :
    wp ((measures times).handlerOn P) (pertRun τ d pert) Q (asked c) := by
  have hleft := hP c hc hgo
  have hiters : τ.iterFunc d.iterationTime d.size (sizeAt c) = itersAt τ t₀ times c := by
    rw [hd.1, hd.2]
    rfl
  unfold pertRun
  simp only [hsize, hiters]
  cases hi : itersAt τ t₀ times c with
  | none => exact hleft.unknown hi
  | some iters =>
    simp only
    cases hparse : pyArgParseTuple [sizeAt c, iters] with
    | none =>
      -- the first call already raises
      rintro r _ ⟨rfl, hr⟩
      rw [if_neg (by rw [hparse]; exact Bool.false_ne_true)] at hr
      subst hr
      exact hleft.refused iters hi hparse
    | some w =>
      refine wp_bind (wp_measured_trials (by rw [hparse]; rfl) _ _ _ ?_)
      intro rs hrs
      have htimes : rs.map (fun r => (r.tTime, r.iTime)) = timesAt times c := by
        rw [hrs]
        show (List.range' (asked c).length TRIALS).map times = timesAt times c
        rw [length_asked]
        rfl
      have htTimes : rs.map Answer.tTime = (timesAt times c).map Prod.fst := by
        rw [← htimes, List.map_map]
        rfl
      have hiTimes : rs.map Answer.iTime = (timesAt times c).map Prod.snd := by
        rw [← htimes, List.map_map]
        rfl
      rw [List.nil_append, htTimes, hiTimes]
      cases hrate : τ.rated (τ.minimum ((timesAt times c).map Prod.fst)) with
      | true => exact hQ ⟨hc, hgo, ⟨iters, w, hi, hparse⟩, hrate⟩ _ rfl ⟨rfl, rfl⟩
      | false => exact hleft.unrated hrate

/-- One turn: its three sizes. -/
theorem wp_measured_turn {k : Nat} {d : Vars T}
    (hk : Measured τ t₀ times (3 * k)) (hgo : Goes τ t₀ times (3 * k))
    (hturn : turns k = some d.toSched) (hd : d.At τ t₀ times (3 * k))
    {Q : Vars T → List Int → Prop}
    (hQ : Measured τ t₀ times (3 * (k + 1)) → ∀ d' : Vars T, turns (k + 1) = some d'.toSched →
      d'.At τ t₀ times (3 * (k + 1)) → Q d' (asked (3 * (k + 1)))) :
    wp ((measures times).handlerOn P) (turn τ d) Q (asked (3 * k)) := by
  obtain ⟨g, p, hg, hp, hs, hsizes⟩ := exists_grown hturn
  have hsize (i : Nat) (hi : i < 3) :
      sizeAt (3 * k + i) = (p.toList.map (g.permSize + ·)).getD i 0 := by
    rw [sizeAt, ← hsizes, show (3 * k + i) / 3 = k by omega, show (3 * k + i) % 3 = i by omega]
  have hd₀ : Vars.At τ t₀ times (3 * k) { d with toSched := g } := hd
  unfold turn
  simp only [hg, hp, Option.map_some, Option.getD_some]
  refine wp_bind (wp_measured_pertRun hP hk hgo hd₀ (hsize 0 (by omega)).symm ?_)
  intro hk₁ d₁ h₁ hd₁
  have hperm₁ : d₁.permSize = g.permSize := by
    rw [h₁]
    rfl
  refine wp_bind (wp_measured_pertRun hP hk₁ (fun h => by omega) hd₁
    (hperm₁ ▸ (hsize 1 (by omega)).symm) ?_)
  intro hk₂ d₂ h₂ hd₂
  have hperm₂ : d₂.permSize = g.permSize := by
    rw [h₂]
    exact hperm₁
  refine wp_bind (wp_measured_pertRun hP hk₂ (fun h => by omega) hd₂
    (hperm₂ ▸ (hsize 2 (by omega)).symm) ?_)
  intro hk₃ d₃ h₃ hd₃
  refine hQ hk₃ d₃ ?_ hd₃
  rw [hs, h₃, h₂, h₁]

/-- **The loop**, by induction on the turns still to go. -/
theorem wp_measured_loop {l : Nat} {Q : List Int → Prop}
    (hend : ∀ k, Measured τ t₀ times (3 * k) →
      (k = l ∨ k < l ∧ τ.running (timeAt τ t₀ times (3 * k)) = false) → Q (asked (3 * k)))
    (m : Nat) : ∀ (d : Vars T) (k : Nat), k + m = l → Measured τ t₀ times (3 * k) →
      turns k = some d.toSched → d.At τ t₀ times (3 * k) →
      wp ((measures times).handlerOn P) (mainLoop τ m d) (fun _ => Q) (asked (3 * k)) := by
  induction m with
  | zero => exact fun d k hl hk _ _ => hend k hk (Or.inl hl)
  | succ m ih =>
    intro d k hl hk hturn hd
    unfold mainLoop
    cases hrun : τ.running d.iterationTime with
    | false =>
      rw [hd.1] at hrun
      exact hend k hk (Or.inr ⟨by omega, hrun⟩)
    | true =>
      have hgo : Goes τ t₀ times (3 * k) := by
        intro _
        rw [← hd.1]
        exact hrun
      refine wp_bind (wp_measured_turn hP hk hgo hturn hd ?_)
      intro hk' d' hturn' hd'
      exact ih d' (k + 1) (by omega) hk' hturn' hd'

omit hP

/-! ## Where the schedule ends -/

/-- A call of `run_iters` is always answered. -/
theorem measures_total (times : Nat → T × T) (o : Call) (calls : List Int) :
    ∃ r calls', (measures times).answer o calls r calls' := by
  obtain ⟨size, iters⟩ := o
  by_cases h : (pyArgParseTuple [size, iters]).isSome
  · exact ⟨_, _, rfl, by rw [if_pos h]⟩
  · exact ⟨_, _, rfl, by rw [if_neg h]⟩

theorem exists_measured (τ : Timing T) (t₀ : T) (times : Nat → T × T) (m : Nat) :
    ∃ out calls, Exec (measures times) (mainLoop τ m (start t₀)) [] out calls :=
  Exec.total (fun _ => ⟨none, trivial⟩) (measures_total times) (mainLoop τ m (start t₀)) []

/-- Where the loop is stopped in time, nothing goes wrong: at every size the driver comes to, the
    times say that it goes through. -/
theorem Stops.accepted {k : Nat} (hk : k ≤ 50) (hstop : Stops τ t₀ times k) {m : Nat}
    {out : Outcome (Vars T)} {calls : List Int}
    (h : Exec (measures times) (mainLoop τ m (start t₀)) [] out calls) :
    (∃ d, out = .returned d) ∧ ∀ size ∈ calls, (intArg size).isSome := by
  have hP : ∀ c, Measured τ t₀ times c → Goes τ t₀ times c →
      Left τ t₀ times (fun _ => False) c := by
    intro c hc hgo
    rcases Nat.lt_or_ge c (3 * k) with hlt | hge
    · exact ((hstop.computes c hlt).passes (by omega)).left
    · have hrun := hc.goes hge hgo (Nat.mul_mod_right 3 k)
      rw [hstop.running] at hrun
      cases hrun
  have hacc := h.accepted (Env.demonic _) (wp_measured_loop hP
    (Q := fun calls => ∀ size ∈ calls, (intArg size).isSome) (fun k hk _ => hk.accepted) m
    (start t₀) 0 (Nat.zero_add m) trivial rfl ⟨rfl, rfl⟩)
  cases out with
  | returned d => exact ⟨⟨d, rfl⟩, hacc⟩
  | exited code msg => exact hacc.elim
  | faulted => exact hacc.elim

/-- Where it is not, fifty-one turns do not come to an end. -/
theorem not_returned_of_not_stops (hnot : ∀ k ≤ 50, ¬ Stops τ t₀ times k) {d : Vars T}
    {calls : List Int} :
    ¬ Exec (measures times) (mainLoop τ 51 (start t₀)) [] (.returned d) calls := by
  have hP : ∀ c, Measured τ t₀ times c → Goes τ t₀ times c → Left τ t₀ times (fun _ => True) c :=
    fun c _ _ => ⟨fun _ => trivial, fun _ _ _ => trivial, fun _ => trivial⟩
  have hend : ∀ k, Measured τ t₀ times (3 * k) →
      (k = 51 ∨ k < 51 ∧ τ.running (timeAt τ t₀ times (3 * k)) = false) → False := by
    rintro k hk (rfl | ⟨hlt, hstop⟩)
    · exact not_measured_limit hk
    · refine hnot k (by omega) ⟨hstop, ?_⟩
      intro c hc
      exact (hk.mono (Nat.succ_le_of_lt hc)).2.2.computes
  intro h
  exact h.accepted (Env.demonic _) (wp_measured_loop hP (Q := fun _ => False) hend 51 (start t₀) 0
    rfl trivial rfl ⟨rfl, rfl⟩)

/-- **When the driver never asks for too much**: its loop is left by its test only, and every size
    is accepted, for exactly those times that stop it before one of its first fifty-one turns,
    with all arithmetic up to there well. -/
theorem sizes_accepted_iff (τ : Timing T) (t₀ : T) (times : Nat → T × T) :
    (∀ m out calls, Exec (measures times) (mainLoop τ m (start t₀)) [] out calls →
      (∃ d, out = .returned d) ∧ ∀ size ∈ calls, (intArg size).isSome) ↔
      ∃ k ≤ 50, Stops τ t₀ times k := by
  constructor
  · intro hall
    by_contra hnot
    obtain ⟨out, calls, h⟩ := exists_measured τ t₀ times 51
    obtain ⟨⟨d, rfl⟩, -⟩ := hall 51 out calls h
    exact not_returned_of_not_stops (fun k hk hstop => hnot ⟨k, hk, hstop⟩) h
  · rintro ⟨k, hk, hstop⟩ m out calls h
    exact hstop.accepted hk h

/-- Where the times never stop the loop, and the arithmetic is well, the driver comes to the size
    that is refused. -/
theorem refused_of_running (hrun : ∀ c, τ.running (timeAt τ t₀ times c) = true)
    (hcomputes : ∀ c, Computes τ t₀ times c) :
    ∃ out calls, Exec (measures times) (mainLoop τ 51 (start t₀)) [] out calls ∧
      sizeAt 152 ∈ calls := by
  have hP : ∀ c, Measured τ t₀ times c → Goes τ t₀ times c →
      Left τ t₀ times (fun calls => sizeAt 152 ∈ calls) c := by
    intro c hc _
    rcases Nat.lt_trichotomy c 152 with hlt | rfl | hgt
    · exact ((hcomputes c).passes hlt).left
    · obtain ⟨iters, hi, -⟩ := (hcomputes 152).iters
      refine ⟨?_, fun _ _ _ => by simp, ?_⟩
      · intro hnone
        cases hi.symm.trans hnone
      · intro hrate
        cases (hcomputes 152).rated.symm.trans hrate
    · exact absurd (hc.mono hgt) not_measured_limit
  obtain ⟨out, calls, h⟩ := exists_measured τ t₀ times 51
  refine ⟨out, calls, h, h.sound_on (wp_measured_loop hP ?_ 51 (start t₀) 0 rfl trivial rfl
    ⟨rfl, rfl⟩)⟩
  rintro k hk (rfl | ⟨-, hstop⟩)
  · exact absurd hk not_measured_limit
  · rw [hrun] at hstop
    cases hstop

end measured

/-- The scripts' own repeat count fits an `int` where sizes do not descend. -/
theorem intArg_iterFunc {STOPTM RUNTM tlast : Nat} {oldsize newsize : Int} (ht : 0 < tlast)
    (hR : RUNTM < 2 ^ 31) (hold : 0 ≤ oldsize) (hle : oldsize ≤ newsize) (hpos : 0 < newsize) :
    ∃ iters, (micros STOPTM RUNTM).iterFunc tlast oldsize newsize = some iters ∧
      (intArg iters).isSome := by
  have hden : 0 < (tlast : Int) * newsize := Int.mul_pos (by omega) hpos
  refine ⟨_, if_neg hden.ne', ?_⟩
  have hquot : ((RUNTM : Int) * oldsize).tdiv (tlast * newsize) ≤ RUNTM := by
    rw [Int.tdiv_eq_ediv_of_nonneg (Int.mul_nonneg (by omega) hold)]
    apply Int.ediv_le_of_le_mul hden
    calc (RUNTM : Int) * oldsize ≤ RUNTM * newsize := Int.mul_le_mul_of_nonneg_left hle (by omega)
      _ ≤ RUNTM * (tlast * newsize) := by
        refine Int.mul_le_mul_of_nonneg_left ?_ (by omega)
        exact le_mul_of_one_le_left hpos.le (by omega)
  unfold intArg
  rw [if_pos (by simp only [TRIALS]; omega)]
  rfl

/-- On a machine where every round trip takes a millisecond the driver of `NPtcp-local` comes to a
    size that `run_iters` refuses. -/
theorem size_refused :
    ¬ ∀ m out calls, Exec (measures fun _ => (99000, 1000))
        (mainLoop (micros 500000 100000) m (start 25)) [] out calls →
      ∀ size ∈ calls, (intArg size).isSome := by
  have hcomputes : ∀ c, Computes (micros 500000 100000) 25 (fun _ => (99000, 1000)) c := by
    intro c
    refine ⟨?_, rfl⟩
    cases c with
    | zero => exact ⟨4000, by decide, rfl⟩
    | succ c =>
      exact intArg_iterFunc (show 0 < 1000 by decide) (by decide) (sizeAt_pos c).le
        (sizeAt_lt (Nat.lt_succ_self c)).le (sizeAt_pos (c + 1))
  have hrun : ∀ c, (micros 500000 100000).running
      (timeAt (micros 500000 100000) 25 (fun _ => (99000, 1000)) c) = true := by
    intro c
    cases c with
    | zero => rfl
    | succ c => rfl
  intro hall
  obtain ⟨out, calls, h, hmem⟩ := refused_of_running hrun hcomputes
  have hsome := hall 51 out calls h _ hmem
  rw [intArg_limit] at hsome
  cases hsome

end NetPipe.Driver
