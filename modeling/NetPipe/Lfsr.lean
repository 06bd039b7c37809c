/-
  The linear feedback shift register of `netpipe.c`, the pattern it writes into a buffer and the
  check of a buffer against it.

  1. `lfsrset` and `lfsrcheck` are the two loops of the source, word by word and then byte by byte,
     threading the one global `lfsr_data`.  A store or a load that leaves the object is none.

  2. `pattern` is what they are about: the bytes of the successive generator states, in the byte
     order of the host, cut off at the requested length.

  3. **The two agree with it** (`lfsrset_eq`, `lfsrcheck_pattern`).  Each loop is an induction on
     what it has still to go, with the part already behind it in front of the object; the state of
     the generator behind the words is where the trailing bytes come from, in either function.
     And where the object is too short `lfsrset` leaves it (`lfsrset_none`), so that its length is
     a condition and not an assumption.
-/
import NetPipe.Lib.Memory
import Mathlib.Logic.Function.Iterate

namespace NetPipe

open Memory

/-- Conversion of an `int` to `uint32_t`. -/
def toUint32 (c : Int) : UInt32 := UInt32.ofInt c

/-- `lfsr23`: one step of the generator on the global `lfsrData`; the new value is also the
    result. -/
def lfsr23 (lfsrData : UInt32) : UInt32 :=
  (lfsrData >>> 1) ^^^ ((0 - (lfsrData &&& 1)) &&& 0x400010)

/-! ## `lfsrset` -/

/-- The word loop of `lfsrset`: `k` words still to be written, from word index `i` on. -/
def lfsrset.words (o : ByteOrder) : (k i : Nat) → List UInt8 → UInt32 →
    Option (List UInt8 × UInt32)
  | 0, _, s, lfsrData => some (s, lfsrData)
  | k + 1, i, s, lfsrData =>
    (storeAt s (4 * i) (toBytes o (lfsr23 lfsrData))).bind fun s =>
      words o k (i + 1) s (lfsr23 lfsrData)

/-- The tail loop of `lfsrset`: `k` bytes of `lastLfsr` still to be written, from byte `i` on. -/
def lfsrset.tail (lastLfsr : List UInt8) (e : Nat) : (k i : Nat) → List UInt8 →
    Option (List UInt8)
  | 0, _, s => some s
  | k + 1, i, s =>
    (storeAt s (i + e) [lastLfsr.getD i 0]).bind fun s => tail lastLfsr e k (i + 1) s

/-- `lfsrset(s, c, n)`: the object `s` and `lfsrData` afterwards. -/
def lfsrset (o : ByteOrder) (s : List UInt8) (c : Int) (n : Nat) :
    Option (List UInt8 × UInt32) :=
  let e := n / 4 * 4  -- n & ~(inc-1)
  let rem := n % 4    -- n & (inc-1)
  (lfsrset.words o (n / 4) 0 s (toUint32 c)).bind fun (s, lfsrData) =>
    let lastLfsr := lfsr23 lfsrData
    (lfsrset.tail (toBytes o lastLfsr) e rem 0 s).map fun s => (s, lastLfsr)

/-! ## `lfsrcheck` -/

/-- One line `DATA MISMATCH index … expect … got …`, for a word or for a single byte. -/
inductive Mismatch where
  | word (index : Nat) (expect got : UInt32)
  | char (index : Nat) (expect got : UInt8)
  deriving DecidableEq, Repr

/-- The word loop of `lfsrcheck`. -/
def lfsrcheck.words (o : ByteOrder) (s : List UInt8) : (k i : Nat) → UInt32 →
    Option (List Mismatch × UInt32)
  | 0, _, lfsrData => some ([], lfsrData)
  | k + 1, i, lfsrData =>
    (loadAt s (4 * i) 4).bind fun dat =>
      (words o s k (i + 1) (lfsr23 lfsrData)).map fun r =>
        (if ofBytes o dat ≠ lfsr23 lfsrData then
          .word (4 * i) (lfsr23 lfsrData) (ofBytes o dat) :: r.1 else r.1, r.2)

/-- The tail loop of `lfsrcheck`. -/
def lfsrcheck.tail (s lastLfsr : List UInt8) (e : Nat) : (k i : Nat) → Option (List Mismatch)
  | 0, _ => some []
  | k + 1, i =>
    s[i + e]?.bind fun chrdat =>
      (tail s lastLfsr e k (i + 1)).map fun ms =>
        if chrdat ≠ lastLfsr.getD i 0 then .char (i + e) (lastLfsr.getD i 0) chrdat :: ms else ms

/-- `lfsrcheck(s, c, n)`: the mismatches reported, and `lfsrData` afterwards. -/
def lfsrcheck (o : ByteOrder) (s : List UInt8) (c : Int) (n : Nat) :
    Option (List Mismatch × UInt32) :=
  let e := n / 4 * 4
  let rem := n % 4
  (lfsrcheck.words o s (n / 4) 0 (toUint32 c)).bind fun (ms, lfsrData) =>
    let lastLfsr := lfsr23 lfsrData
    (lfsrcheck.tail s (toBytes o lastLfsr) e rem 0).map fun ms' => (ms ++ ms', lastLfsr)

/-- The word loop reads inside the object. -/
theorem lfsrcheck_words_total (o : ByteOrder) (s : List UInt8) (k : Nat) :
    ∀ (i : Nat) (d : UInt32), 4 * (i + k) ≤ s.length →
      ∃ r, lfsrcheck.words o s k i d = some r := by
  induction k with
  | zero => intro i d _; exact ⟨_, rfl⟩
  | succ k ih =>
    intro i d hs
    obtain ⟨r, hr⟩ := ih (i + 1) (lfsr23 d) (by omega)
    rw [lfsrcheck.words, loadAt, if_pos (by omega), Option.bind_some, hr]
    exact ⟨_, rfl⟩

/-- The tail loop reads inside the object. -/
theorem lfsrcheck_tail_total (s last : List UInt8) (e k : Nat) :
    ∀ i, i + k + e ≤ s.length → ∃ ms, lfsrcheck.tail s last e k i = some ms := by
  induction k with
  | zero => intro i _; exact ⟨_, rfl⟩
  | succ k ih =>
    intro i hs
    obtain ⟨ms, hms⟩ := ih (i + 1) (by omega)
    rw [lfsrcheck.tail, List.getElem?_eq_getElem (by omega), Option.bind_some, hms]
    exact ⟨_, rfl⟩

/-- The check stays inside any object of at least `n` bytes. -/
theorem lfsrcheck_total (o : ByteOrder) (c : Int) {n : Nat} {s : List UInt8}
    (hs : n ≤ s.length) : ∃ r, lfsrcheck o s c n = some r := by
  obtain ⟨⟨ms, d⟩, hwords⟩ := lfsrcheck_words_total o s (n / 4) 0 (toUint32 c) (by omega)
  obtain ⟨ms', htail⟩ := lfsrcheck_tail_total s (toBytes o (lfsr23 d)) (n / 4 * 4) (n % 4) 0
    (by omega)
  rw [lfsrcheck]
  simp only [hwords, Option.bind_some, htail, Option.map_some]
  exact ⟨_, rfl⟩

/-! ## The pattern -/

/-- The bytes of the next `k` generator states. -/
def patternWords (o : ByteOrder) : Nat → UInt32 → List UInt8
  | 0, _ => []
  | k + 1, d => toBytes o (lfsr23 d) ++ patternWords o k (lfsr23 d)

/-- The `n` pattern bytes of seed `c` on a host of byte order `o`. -/
def pattern (o : ByteOrder) (c : Int) (n : Nat) : List UInt8 :=
  patternWords o (n / 4) (toUint32 c) ++
    (toBytes o (lfsr23 (lfsr23^[n / 4] (toUint32 c)))).take (n % 4)

@[simp] theorem patternWords_length (o : ByteOrder) (k : Nat) (d : UInt32) :
    (patternWords o k d).length = 4 * k := by
  induction k generalizing d with
  | zero => rfl
  | succ k ih =>
    rw [patternWords, List.length_append, toBytes_length, ih]
    omega

@[simp] theorem pattern_length (o : ByteOrder) (c : Int) (n : Nat) :
    (pattern o c n).length = n := by
  simp only [pattern, List.length_append, patternWords_length, List.length_take, toBytes_length]
  omega

/-- The word loop overwrites the `4 * k` bytes behind the part already written. -/
theorem lfsrset_words (o : ByteOrder) (k : Nat) :
    ∀ (i : Nat) (pre mid post : List UInt8) (d : UInt32),
      4 * i = pre.length → 4 * k = mid.length →
      lfsrset.words o k i (pre ++ (mid ++ post)) d =
        some (pre ++ (patternWords o k d ++ post), lfsr23^[k] d) := by
  induction k with
  | zero =>
    intro i pre mid post d _ hmid
    have hnil : mid = [] := List.eq_nil_of_length_eq_zero (by omega)
    subst hnil
    rfl
  | succ k ih =>
    intro i pre mid post d hpre hmid
    have hsplit : pre ++ (mid ++ post) = pre ++ (mid.take 4 ++ (mid.drop 4 ++ post)) := by
      rw [← List.append_assoc (mid.take 4), List.take_append_drop]
    have htake : (mid.take 4).length = 4 := by rw [List.length_take]; omega
    rw [lfsrset.words, hsplit, storeAt_append hpre (by rw [toBytes_length, htake]),
      Option.bind_some, ← List.append_assoc,
      ih (i + 1) _ _ _ _ (by rw [List.length_append, toBytes_length]; omega)
        (by rw [List.length_drop]; omega), patternWords]
    simp only [List.append_assoc, Function.iterate_succ, Function.comp_apply]

/-- The tail loop overwrites the `k` bytes behind the part already written. -/
theorem lfsrset_tail (last : List UInt8) (e k : Nat) :
    ∀ (i : Nat) (pre mid post : List UInt8), i + e = pre.length → k = mid.length →
      i + k ≤ last.length →
      lfsrset.tail last e k i (pre ++ (mid ++ post)) =
        some (pre ++ ((last.drop i).take k ++ post)) := by
  induction k with
  | zero =>
    intro i pre mid post _ hmid _
    have hnil : mid = [] := List.eq_nil_of_length_eq_zero hmid.symm
    subst hnil
    simp [lfsrset.tail]
  | succ k ih =>
    intro i pre mid post hpre hmid hlast
    obtain ⟨b, mid', rfl⟩ := List.exists_cons_of_length_eq_add_one hmid.symm
    have hlt : i < last.length := by omega
    have hone : [last.getD i 0].length = [b].length := rfl
    rw [lfsrset.tail, show pre ++ (b :: mid' ++ post) = pre ++ ([b] ++ (mid' ++ post)) from rfl,
      storeAt_append hpre hone, Option.bind_some, ← List.append_assoc,
      ih (i + 1) _ _ _ (by rw [List.length_append, List.length_singleton]; omega)
        (by simpa using hmid) (by omega),
      List.drop_eq_getElem_cons hlt, List.take_succ_cons, List.getD_eq_getElem?_getD,
      List.getElem?_eq_getElem hlt]
    simp

/-- **`lfsrset` writes the pattern**, and nothing behind it.  First the words, with the object
    split in front of the next one, and then the trailing bytes of the state behind them. -/
theorem lfsrset_eq (o : ByteOrder) (c : Int) {n : Nat} {s : List UInt8} (hs : n ≤ s.length) :
    lfsrset o s c n =
      some (pattern o c n ++ s.drop n, lfsr23 (lfsr23^[n / 4] (toUint32 c))) := by
  have hsplit : s = [] ++ (s.take (n / 4 * 4) ++
      ((s.drop (n / 4 * 4)).take (n % 4) ++ s.drop n)) := by
    have hn : s.drop n = (s.drop (n / 4 * 4)).drop (n % 4) := by
      rw [List.drop_drop, Nat.div_add_mod']
    rw [hn, List.take_append_drop, List.take_append_drop, List.nil_append]
  have hwords := lfsrset_words o (n / 4) 0 [] (s.take (n / 4 * 4))
    ((s.drop (n / 4 * 4)).take (n % 4) ++ s.drop n) (toUint32 c) rfl
    (by rw [List.length_take]; omega)
  rw [← hsplit, List.nil_append] at hwords
  rw [lfsrset]
  simp only [hwords, Option.bind_some]
  rw [lfsrset_tail _ _ _ 0 _ _ _ (by rw [patternWords_length]; omega)
    (by rw [List.length_take, List.length_drop]; omega) (by rw [toBytes_length]; omega)]
  simp [pattern]

theorem lfsrset_words_length (o : ByteOrder) (k : Nat) :
    ∀ {i : Nat} {s : List UInt8} {d : UInt32} {r : List UInt8 × UInt32},
      lfsrset.words o k i s d = some r → r.1.length = s.length := by
  induction k with
  | zero =>
    intro i s d r h
    cases h
    rfl
  | succ k ih =>
    intro i s d r h
    obtain ⟨s', hs', h⟩ := Option.bind_eq_some_iff.mp h
    exact (ih h).trans (storeAt_length hs')

/-- The word loop leaves an object that is too short. -/
theorem lfsrset_words_none (o : ByteOrder) (k : Nat) :
    ∀ {i : Nat} {s : List UInt8} {d : UInt32}, 4 * i ≤ s.length → s.length < 4 * (i + k) →
      lfsrset.words o k i s d = none := by
  induction k with
  | zero =>
    intro i s d hle hlt
    omega
  | succ k ih =>
    intro i s d hle hlt
    rw [lfsrset.words]
    cases hstore : storeAt s (4 * i) (toBytes o (lfsr23 d)) with
    | none => rfl
    | some s' =>
      have hfit := storeAt_fits hstore
      have hlen := storeAt_length hstore
      rw [toBytes_length] at hfit
      exact ih (by omega) (by omega)

/-- The tail loop leaves an object that is too short. -/
theorem lfsrset_tail_none (last : List UInt8) (e k : Nat) :
    ∀ {i : Nat} {s : List UInt8}, i + e ≤ s.length → s.length < i + k + e →
      lfsrset.tail last e k i s = none := by
  induction k with
  | zero =>
    intro i s hle hlt
    omega
  | succ k ih =>
    intro i s hle hlt
    rw [lfsrset.tail]
    cases hstore : storeAt s (i + e) [last.getD i 0] with
    | none => rfl
    | some s' =>
      have hfit := storeAt_fits hstore
      have hlen := storeAt_length hstore
      rw [List.length_singleton] at hfit
      exact ih (by omega) (by omega)

/-- **`lfsrset` leaves an object** of fewer than `n` bytes. -/
theorem lfsrset_none (o : ByteOrder) (c : Int) {n : Nat} {s : List UInt8} (hs : s.length < n) :
    lfsrset o s c n = none := by
  rw [lfsrset]
  by_cases hwords : s.length < 4 * (n / 4)
  · rw [lfsrset_words_none o _ (Nat.zero_le _) (by omega)]
    rfl
  · cases h : lfsrset.words o (n / 4) 0 s (toUint32 c) with
    | none => rfl
    | some r =>
      have hlen := lfsrset_words_length o _ h
      simp only [Option.bind_some]
      rw [lfsrset_tail_none _ _ _ (by omega) (by omega)]
      rfl

/-- The word loop of the check finds nothing on the words of the pattern. -/
theorem lfsrcheck_words (o : ByteOrder) (k : Nat) :
    ∀ (i : Nat) (pre post : List UInt8) (d : UInt32), 4 * i = pre.length →
      lfsrcheck.words o (pre ++ (patternWords o k d ++ post)) k i d =
        some ([], lfsr23^[k] d) := by
  induction k with
  | zero => intro i pre post d _; rfl
  | succ k ih =>
    intro i pre post d hpre
    have hload : loadAt (pre ++ (patternWords o (k + 1) d ++ post)) (4 * i) 4 =
        some (toBytes o (lfsr23 d)) := by
      rw [loadAt, if_pos (by simp only [List.length_append, patternWords_length]; omega),
        hpre, List.drop_left, patternWords, List.append_assoc,
        List.take_left' (toBytes_length o _)]
    have hrest : pre ++ (patternWords o (k + 1) d ++ post) =
        (pre ++ toBytes o (lfsr23 d)) ++ (patternWords o k (lfsr23 d) ++ post) := by
      simp only [patternWords, List.append_assoc]
    rw [lfsrcheck.words, hload, Option.bind_some, hrest,
      ih (i + 1) _ _ _ (by rw [List.length_append, toBytes_length]; omega), Option.map_some,
      ofBytes_toBytes]
    simp

/-- The tail loop of the check finds nothing on the bytes of the last state. -/
theorem lfsrcheck_tail (last : List UInt8) (e k : Nat) :
    ∀ (i : Nat) (pre post : List UInt8), e = pre.length → i + k ≤ last.length →
      lfsrcheck.tail (pre ++ (last.take (i + k) ++ post)) last e k i = some [] := by
  induction k with
  | zero => intro i pre post _ _; rfl
  | succ k ih =>
    intro i pre post hpre hlast
    have hlt : i < last.length := by omega
    have hget : (pre ++ (last.take (i + (k + 1)) ++ post))[i + e]? = some last[i] := by
      rw [List.getElem?_append_right (by omega), hpre, Nat.add_sub_cancel,
        List.getElem?_append_left (by rw [List.length_take]; omega), List.getElem?_take,
        if_pos (by omega), List.getElem?_eq_getElem hlt]
    have := ih (i + 1) pre post hpre (by omega)
    rw [Nat.add_right_comm] at this
    rw [lfsrcheck.tail, hget, Option.bind_some, show i + (k + 1) = i + k + 1 from rfl, this]
    simp [hlt]

/-- **`lfsrcheck` accepts the pattern**, whatever comes behind it. -/
theorem lfsrcheck_pattern (o : ByteOrder) (c : Int) (n : Nat) (post : List UInt8) :
    lfsrcheck o (pattern o c n ++ post) c n =
      some ([], lfsr23 (lfsr23^[n / 4] (toUint32 c))) := by
  have hwords := lfsrcheck_words o (n / 4) 0 []
    ((toBytes o (lfsr23 (lfsr23^[n / 4] (toUint32 c)))).take (n % 4) ++ post) (toUint32 c) rfl
  have htail := lfsrcheck_tail (toBytes o (lfsr23 (lfsr23^[n / 4] (toUint32 c)))) (n / 4 * 4)
    (n % 4) 0 (patternWords o (n / 4) (toUint32 c)) post
    (by rw [patternWords_length]; omega) (by rw [toBytes_length]; omega)
  rw [List.nil_append] at hwords
  rw [Nat.zero_add] at htail
  rw [lfsrcheck, pattern, List.append_assoc]
  simp only [hwords, Option.bind_some, htail, Option.map_some, List.append_nil]

/-- The first words of an eleven-byte pattern, as both hosts would print them. -/
example : pattern .little 97 11 = [0x20, 0, 0x40, 0, 0x10, 0, 0x20, 0, 8, 0, 0x10] := by decide

end NetPipe
