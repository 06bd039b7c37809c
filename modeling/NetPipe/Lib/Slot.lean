/-
  A register that one side writes and another one reads, with nothing to keep the two in step but
  that there are never more reads than writes.

  This is what is left of a message channel with one word of room and a counter of arrivals: the
  reader knows that something has come, and takes what is there when it looks.

  1. The register (`Step`): what has been written so far, in this order, and what has been read.

  2. `Late` — each value read is one of those written, not before its own and not before the one
     read last.  This is all there is to say: only such values can be read (`late_of_steps`), and
     any of them can (`steps_of_late`).  The second half is by induction on the reads from the last
     one: what it gives is written, with everything before it, in front of it.

  3. As many reads as writes: the last value is read right (`Late.getLast_eq`), and of two values
     the first one is read right or as the second one (`late_pair_iff`).
-/
import Mathlib.Data.List.Induction
import Mathlib.Logic.Relation

namespace Slot

variable {α : Type}

/-- What has been written, and what has been read. -/
inductive Step : List α × List α → List α × List α → Prop where
  | write {written got v} : Step (written, got) (written ++ [v], got)
  | read {written got v} : got.length ≤ written.length →
      Step (written ++ [v], got) (written ++ [v], got ++ [v])

/-- Any number of steps. -/
abbrev Steps : List α × List α → List α × List α → Prop := Relation.ReflTransGen Step

/-- The `i`-th value read is the one numbered `idx[i]`.  The numbers do not go back, and none is
    smaller than its place: by the time of a read as many values have been written, and a value that
    has been overwritten does not come back. -/
def Late (written got : List α) : Prop :=
  ∃ idx : List Nat, idx.Pairwise (· ≤ ·) ∧ (∀ i (h : i < idx.length), i ≤ idx[i]) ∧
    got.map some = idx.map (written[·]?)

/-! ## What can be read -/

theorem late_nil (written : List α) : Late written [] := ⟨[], .nil, nofun, rfl⟩

variable {written got : List α}

/-- The numbers are those of values. -/
theorem lt_length {idx : List Nat} (h : got.map some = idx.map (written[·]?)) {k : Nat}
    (hk : k ∈ idx) : k < written.length := by
  obtain ⟨v, -, hv⟩ := List.mem_map.mp (h ▸ List.mem_map_of_mem hk)
  exact (List.getElem?_eq_some_iff.mp hv.symm).1

/-- What is read has been written. -/
theorem Late.mem (h : Late written got) {v : α} (hv : v ∈ got) : v ∈ written := by
  obtain ⟨idx, -, -, hgot⟩ := h
  have hv : some v ∈ got.map some := List.mem_map_of_mem hv
  rw [hgot] at hv
  obtain ⟨k, -, hk⟩ := List.mem_map.mp hv
  exact List.mem_of_getElem? hk

/-- One more value written. -/
theorem Late.write (h : Late written got) (v : α) : Late (written ++ [v]) got := by
  obtain ⟨idx, hmono, hown, hgot⟩ := h
  refine ⟨idx, hmono, hown, hgot.trans (List.map_congr_left fun k hk => ?_)⟩
  exact (List.getElem?_append_left (lt_length hgot hk)).symm

/-- The last value written read. -/
theorem Late.read {v : α} (h : Late (written ++ [v]) got) (hle : got.length ≤ written.length) :
    Late (written ++ [v]) (got ++ [v]) := by
  obtain ⟨idx, hmono, hown, hgot⟩ := h
  have hlen : idx.length = got.length := by
    simpa using (congrArg List.length hgot).symm
  refine ⟨idx ++ [written.length], ?_, ?_, ?_⟩
  · refine List.pairwise_append.mpr ⟨hmono, List.pairwise_singleton .., fun k hk l hl => ?_⟩
    obtain rfl := List.mem_singleton.mp hl
    have hk' := lt_length hgot hk
    rw [List.length_append, List.length_singleton] at hk'
    omega
  · intro i hi
    rw [List.length_append, List.length_singleton] at hi
    rcases Nat.lt_or_ge i idx.length with hlt | hge
    · rw [List.getElem_append_left hlt]
      exact hown i hlt
    · rw [List.getElem_append_right hge, List.getElem_singleton]
      omega
  · rw [List.map_append, List.map_append, hgot, List.map_singleton, List.map_singleton]
    simp

/-- **Soundness**, by induction on the steps: a read is of the last value written so far, whose
    number is at least that of any read before. -/
theorem late_of_steps {s : List α × List α} (h : Steps ([], []) s) : Late s.1 s.2 := by
  induction h with
  | refl => exact late_nil []
  | tail _ hstep ih =>
    cases hstep with
    | write => exact ih.write _
    | read hle => exact ih.read hle

/-- Values written one after the other. -/
theorem steps_write (vs : List α) : ∀ written : List α,
    Steps (written, got) (written ++ vs, got) := by
  induction vs with
  | nil =>
    intro written
    rw [List.append_nil]
  | cons v vs ih =>
    intro written
    have hrest := ih (written ++ [v])
    rw [List.append_assoc] at hrest
    exact .head .write hrest

/-- **Completeness**, by induction on the reads from the last one: everything up to what it gives
    is written before it, and the rest behind it. -/
theorem steps_of_late (h : Late written got) : Steps ([], []) (written, got) := by
  obtain ⟨idx, hmono, hown, hgot⟩ := h
  induction idx using List.reverseRecOn generalizing written got with
  | nil =>
    obtain rfl : got = [] := List.map_eq_nil_iff.mp hgot
    exact steps_write written []
  | append_singleton idx k ih =>
    rw [List.map_append, List.map_singleton] at hgot
    obtain ⟨got, last, rfl, hgot', hlast⟩ := List.map_eq_append_iff.mp hgot
    obtain ⟨v, rfl, hv⟩ := List.map_eq_singleton_iff.mp hlast
    obtain ⟨hk, rfl⟩ := List.getElem?_eq_some_iff.mp hv.symm
    obtain ⟨hmono, -, hlast⟩ := List.pairwise_append.mp hmono
    have hlen : idx.length = got.length := by
      simpa using (congrArg List.length hgot').symm
    have hbefore : Steps ([], []) (written.take k ++ [written[k]], got) := by
      rw [List.take_append_getElem]
      refine ih hmono ?_ (hgot'.trans (List.map_congr_left fun l hl => ?_))
      · intro i hi
        have hi' := hown i (by rw [List.length_append]; omega)
        rwa [List.getElem_append_left hi] at hi'
      · have hle := hlast l hl k List.mem_cons_self
        rw [List.getElem?_take, if_pos (by omega)]
    have hturn : got.length ≤ (written.take k).length := by
      have hown' := hown idx.length (by simp)
      rw [List.getElem_append_right (Nat.le_refl _)] at hown'
      rw [List.length_take]
      simp only [Nat.sub_self, List.getElem_singleton] at hown'
      omega
    refine (hbefore.tail (.read hturn)).trans ?_
    have hrest : Steps (written.take (k + 1), got ++ [written[k]])
        (written.take (k + 1) ++ written.drop (k + 1), got ++ [written[k]]) := steps_write _ _
    rwa [List.take_append_drop, ← List.take_append_getElem hk] at hrest

/-! ## As many reads as writes -/

/-- The last value is read right. -/
theorem Late.getLast_eq (h : Late written got) (hlen : got.length = written.length) :
    got.getLast? = written.getLast? := by
  obtain ⟨idx, -, hown, hgot⟩ := h
  rcases idx.eq_nil_or_concat with rfl | ⟨idx, k, rfl⟩
  · obtain rfl : got = [] := List.map_eq_nil_iff.mp hgot
    rw [List.length_eq_zero_iff.mp hlen.symm]
  · simp only [List.concat_eq_append] at hown hgot
    have hk : k < written.length := lt_length hgot (by simp)
    have hown' := hown idx.length (by simp)
    rw [List.getElem_append_right (Nat.le_refl _)] at hown'
    simp only [Nat.sub_self, List.getElem_singleton] at hown'
    have hidx : (idx ++ [k]).length = got.length := by
      simpa using (congrArg List.length hgot).symm
    rw [List.length_append, List.length_singleton] at hidx
    obtain rfl : k = written.length - 1 := by omega
    have hlast := congrArg List.getLast? hgot
    rw [List.map_append, List.map_singleton, List.getLast?_concat, ← List.getLast?_eq_getElem?,
      List.getLast?_map] at hlast
    rw [List.getLast?_eq_some_getLast (List.ne_nil_of_length_pos (by omega)),
      List.getLast?_eq_some_getLast (List.ne_nil_of_length_pos (by omega))] at hlast ⊢
    simpa using hlast

/-- Of two values the second one is read right, and the first one as either of them. -/
theorem late_pair_iff {a b x y : α} : Late [a, b] [x, y] ↔ (x = a ∨ x = b) ∧ y = b := by
  constructor
  · intro h
    have hlast := h.getLast_eq rfl
    have hx : x ∈ [a, b] := h.mem List.mem_cons_self
    exact ⟨by simpa using hx, by simpa using hlast⟩
  · rintro ⟨hx, rfl⟩
    rcases hx with rfl | hx
    · have hx : Late [x] [x] := ((late_nil []).write x).read (Nat.le_refl 0)
      have hxy : Late ([x] ++ [y]) [x] := hx.write y
      exact hxy.read (Nat.le_refl 1)
    · have hy : Late ([a] ++ [y]) [y] := (((late_nil []).write a).write y).read (Nat.zero_le 1)
      rw [hx]
      exact hy.read (Nat.le_refl 1)

end Slot
