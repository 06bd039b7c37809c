/-
  The integrity check: what a buffer filled by `lfsrset` and checked by `lfsrcheck` tells.

  1. **The bytes of a pattern.**  The `j`-th byte depends on `j` and the seed alone
     (`pattern_eq_map`), so a shorter pattern is an initial part of a longer one, words and trailing
     bytes alike.

  2. **Exactness** (`lfsrcheck_exact`): the check reports the words and the trailing bytes in which
     the buffer differs from the pattern, each once and in order, and nothing else.

  3. **Truncation** (`truncated_detected_iff`): a buffer of 'a' with the first bytes of one of 'b'
     stored over it.  It passes where the two patterns agree on what has not arrived.  The
     load-bearing fact is that the generator is linear (`patternByte_xor`): the two patterns
     differ where the pattern of 'a' xor 'b' is not zero.  And since the generator has 23 bits, one
     byte of each of its words is zero, so there are messages whose last byte is never missed.

  4. **Byte orders** (`delivered_silent_iff`): the pattern is stored in the order of the host that
     fills the buffer and checked in that of the host that receives it.

  Both parts go through `InitBufferData` and `CheckBufferData` themselves, with the bytes that are
  delivered stored in between, and what they show is read off the events (`logging`).
-/
import Mathlib.Data.List.GetD
import NetPipe.Buffers

namespace NetPipe

open Memory Process

/-! ## The bytes of a pattern -/

/-- The `j`-th byte of the patterns of seed `c`. -/
def patternByte (o : ByteOrder) (c : Int) (j : Nat) : UInt8 :=
  (toBytes o (lfsr23^[j / 4 + 1] (toUint32 c))).getD (j % 4) 0

/-- The bytes of the words, one by one. -/
theorem patternWords_getElem? (o : ByteOrder) (k : Nat) : ∀ (d : UInt32) {j : Nat}, j < 4 * k →
    (patternWords o k d)[j]? = some ((toBytes o (lfsr23^[j / 4 + 1] d)).getD (j % 4) 0) := by
  induction k with
  | zero => intro d j hj; omega
  | succ k ih =>
    intro d j hj
    have hlen : (toBytes o (lfsr23 d)).length = 4 := toBytes_length ..
    rw [patternWords]
    by_cases hlt : j < 4
    · -- the first word
      rw [List.getElem?_append_left (by omega), List.getElem?_eq_getElem (by omega),
        Nat.div_eq_of_lt hlt, Nat.mod_eq_of_lt hlt,
        List.getD_eq_getElem _ _ (by rwa [toBytes_length])]
      rfl
    · rw [List.getElem?_append_right (by omega), hlen, ih (lfsr23 d) (by omega),
        ← Function.iterate_succ_apply, show ((j - 4) / 4 + 1).succ = j / 4 + 1 by omega,
        show (j - 4) % 4 = j % 4 by omega]

/-- Every byte of a pattern, words and tail alike. -/
theorem pattern_getElem? (o : ByteOrder) (c : Int) {n j : Nat} (hj : j < n) :
    (pattern o c n)[j]? = some (patternByte o c j) := by
  unfold pattern patternByte
  by_cases hlt : j < 4 * (n / 4)
  · rw [List.getElem?_append_left (by rwa [patternWords_length]),
      patternWords_getElem? o _ _ hlt]
  · -- the tail starts a word of its own
    have hlen := toBytes_length o (lfsr23 (lfsr23^[n / 4] (toUint32 c)))
    rw [List.getElem?_append_right (by rw [patternWords_length]; omega), patternWords_length,
      List.getElem?_take, if_pos (by omega), List.getElem?_eq_getElem (by omega),
      show j / 4 + 1 = n / 4 + 1 by omega, Function.iterate_succ_apply',
      List.getD_eq_getElem _ _ (by omega)]
    simp only [show j - 4 * (n / 4) = j % 4 by omega]

/-- A pattern, byte by byte. -/
theorem pattern_eq_map (o : ByteOrder) (c : Int) (n : Nat) :
    pattern o c n = (List.range n).map (patternByte o c) := by
  apply List.ext_getElem?
  intro j
  by_cases hj : j < n
  · rw [pattern_getElem? o c hj, List.getElem?_map, List.getElem?_range hj, Option.map_some]
  · rw [List.getElem?_eq_none (by rw [pattern_length]; omega),
      List.getElem?_eq_none (by rw [List.length_map, List.length_range]; omega)]

/-- A shorter pattern is the beginning of a longer one. -/
theorem pattern_take (o : ByteOrder) (c : Int) {n m : Nat} (h : n ≤ m) :
    (pattern o c m).take n = pattern o c n := by
  rw [pattern_eq_map, pattern_eq_map, ← List.map_take, List.take_range, Nat.min_eq_left h]

/-! ## Exactness -/

/-- The word of `s` at byte `j`. -/
def wordAt (o : ByteOrder) (s : List UInt8) (j : Nat) : UInt32 := ofBytes o ((s.drop j).take 4)

/-- The report on the `i`-th word of `s`, where `p` is expected. -/
def wordReport (o : ByteOrder) (p s : List UInt8) (i : Nat) : Option Mismatch :=
  if wordAt o s (4 * i) ≠ wordAt o p (4 * i) then
    some (.word (4 * i) (wordAt o p (4 * i)) (wordAt o s (4 * i))) else none

/-- The report on the `j`-th byte. -/
def charReport (p s : List UInt8) (j : Nat) : Option Mismatch :=
  if s.getD j 0 ≠ p.getD j 0 then some (.char j (p.getD j 0) (s.getD j 0)) else none

/-- Where the first `n` bytes of `s` differ from those of `p`: by words below `n & ~3`, then by
    bytes. -/
def differences (o : ByteOrder) (p s : List UInt8) (n : Nat) : List Mismatch :=
  (List.range' 0 (n / 4)).filterMap (wordReport o p s) ++
    (List.range' (n / 4 * 4) (n % 4)).filterMap (charReport p s)

/-- The words of a pattern. -/
theorem wordAt_pattern (o : ByteOrder) (c : Int) {n i : Nat} (hi : 4 * i + 4 ≤ n) :
    wordAt o (pattern o c n) (4 * i) = lfsr23^[i + 1] (toUint32 c) := by
  have hbytes : ((pattern o c n).drop (4 * i)).take 4 =
      toBytes o (lfsr23^[i + 1] (toUint32 c)) := by
    apply List.ext_getElem?
    intro j
    have hlen := toBytes_length o (lfsr23^[i + 1] (toUint32 c))
    by_cases hj : j < 4
    · rw [List.getElem?_take, if_pos hj, List.getElem?_drop, pattern_getElem? o c (by omega),
        List.getElem?_eq_getElem (by omega), patternByte, show (4 * i + j) / 4 = i by omega,
        show (4 * i + j) % 4 = j by omega, List.getD_eq_getElem _ _ (by omega)]
    · rw [List.getElem?_take, if_neg hj, List.getElem?_eq_none (by omega)]
  rw [wordAt, hbytes, ofBytes_toBytes]

/-- The word loop of the check, where it expects the words of `p`. -/
theorem lfsrcheck_words_eq (o : ByteOrder) (p s : List UInt8) (k : Nat) : ∀ (i : Nat) (d : UInt32),
    4 * (i + k) ≤ s.length → (∀ t < k, wordAt o p (4 * (i + t)) = lfsr23^[t + 1] d) →
    lfsrcheck.words o s k i d =
      some ((List.range' i k).filterMap (wordReport o p s), lfsr23^[k] d) := by
  induction k with
  | zero => intro i d _ _; rfl
  | succ k ih =>
    intro i d hs hp
    have hfirst : wordAt o p (4 * i) = lfsr23 d := hp 0 (Nat.succ_pos k)
    have hrest := ih (i + 1) (lfsr23 d) (by omega) fun t ht => by
      have := hp (t + 1) (by omega)
      rwa [show i + (t + 1) = i + 1 + t by omega, Function.iterate_succ_apply] at this
    rw [lfsrcheck.words, loadAt, if_pos (by omega), Option.bind_some, hrest, List.range'_succ,
      List.filterMap_cons, Option.map_some, Function.iterate_succ_apply]
    simp only [wordReport, hfirst]
    rw [show ofBytes o ((s.drop (4 * i)).take 4) = wordAt o s (4 * i) from rfl]
    split <;> rfl

/-- The tail loop of the check, where it expects the bytes of `p`. -/
theorem lfsrcheck_tail_eq (p s last : List UInt8) (e k : Nat) : ∀ i, i + k + e ≤ s.length →
    (∀ t < k, p.getD (i + t + e) 0 = last.getD (i + t) 0) →
    lfsrcheck.tail s last e k i = some ((List.range' (i + e) k).filterMap (charReport p s)) := by
  induction k with
  | zero => intro i _ _; rfl
  | succ k ih =>
    intro i hs hp
    have hfirst : p.getD (i + e) 0 = last.getD i 0 := hp 0 (Nat.succ_pos k)
    have hrest := ih (i + 1) (by omega) fun t ht => by
      have := hp (t + 1) (by omega)
      rwa [show i + (t + 1) = i + 1 + t by omega] at this
    rw [lfsrcheck.tail, List.getElem?_eq_getElem (by omega), Option.bind_some, hrest,
      Option.map_some, List.range'_succ, List.filterMap_cons, Nat.add_right_comm i 1 e]
    simp only [charReport, hfirst, List.getD_eq_getElem s 0 (by omega : i + e < s.length)]
    split <;> rfl

/-- The check reports the differences from the pattern. -/
theorem lfsrcheck_eq (o : ByteOrder) (c : Int) {n : Nat} {s : List UInt8} (hs : n ≤ s.length) :
    lfsrcheck o s c n =
      some (differences o (pattern o c n) s n, lfsr23 (lfsr23^[n / 4] (toUint32 c))) := by
  have hwords := lfsrcheck_words_eq o (pattern o c n) s (n / 4) 0 (toUint32 c) (by omega)
    fun t ht => by
      rw [Nat.zero_add, wordAt_pattern o c (by omega)]
  have htail := lfsrcheck_tail_eq (pattern o c n) s
    (toBytes o (lfsr23 (lfsr23^[n / 4] (toUint32 c)))) (n / 4 * 4) (n % 4) 0 (by omega)
    fun t ht => by
      rw [Nat.zero_add, List.getD_eq_getElem?_getD, pattern_getElem? o c (by omega), patternByte,
        Option.getD_some, show (t + n / 4 * 4) / 4 = n / 4 by omega,
        show (t + n / 4 * 4) % 4 = t by omega, Function.iterate_succ_apply']
  rw [Nat.zero_add] at htail
  rw [lfsrcheck]
  simp only [hwords, Option.bind_some, htail, Option.map_some, differences]

/-- Four bytes are told apart by their word. -/
theorem toBytes_ofBytes (o : ByteOrder) {bs : List UInt8} (h : bs.length = 4) :
    toBytes o (ofBytes o bs) = bs := by
  match bs, h with
  | [a, b, c, d], _ =>
    cases o with
    | little => exact leBytes_ofLeBytes a b c d
    | big => exact congrArg List.reverse (leBytes_ofLeBytes d c b a)

theorem wordAt_inj (o : ByteOrder) {p s : List UInt8} {j : Nat} (hp : j + 4 ≤ p.length)
    (hs : j + 4 ≤ s.length) :
    wordAt o s j = wordAt o p j ↔ (s.drop j).take 4 = (p.drop j).take 4 := by
  constructor
  · intro h
    have hs' : ((s.drop j).take 4).length = 4 := by
      rw [List.length_take, List.length_drop]
      omega
    have hp' : ((p.drop j).take 4).length = 4 := by
      rw [List.length_take, List.length_drop]
      omega
    rw [← toBytes_ofBytes o hs', ← toBytes_ofBytes o hp']
    exact congrArg (toBytes o) h
  · intro h
    rw [wordAt, wordAt, h]

/-- A word is not reported where its four bytes are as expected. -/
theorem wordReport_eq_none (o : ByteOrder) {p s : List UInt8} {i : Nat} (hp : 4 * i + 4 ≤ p.length)
    (hs : 4 * i + 4 ≤ s.length) :
    wordReport o p s i = none ↔ (s.drop (4 * i)).take 4 = (p.drop (4 * i)).take 4 := by
  rw [← wordAt_inj o hp hs, wordReport]
  simp

/-- A byte is not reported where it is as expected. -/
theorem charReport_eq_none {p s : List UInt8} {j : Nat} (hp : j < p.length) (hs : j < s.length) :
    charReport p s j = none ↔ s[j]? = p[j]? := by
  rw [charReport, List.getD_eq_getElem _ _ hs, List.getD_eq_getElem _ _ hp,
    List.getElem?_eq_getElem hs, List.getElem?_eq_getElem hp, Option.some.injEq]
  simp

/-- Nothing is reported where nothing differs, and only there. -/
theorem differences_eq_nil_iff (o : ByteOrder) {p s : List UInt8} {n : Nat} (hp : n ≤ p.length)
    (hs : n ≤ s.length) : differences o p s n = [] ↔ s.take n = p.take n := by
  constructor
  · intro h
    obtain ⟨hwords, hchars⟩ := List.append_eq_nil_iff.mp h
    rw [List.filterMap_eq_nil_iff] at hwords hchars
    apply List.ext_getElem?
    intro j
    by_cases hj : j < n
    · rw [List.getElem?_take, List.getElem?_take, if_pos hj, if_pos hj]
      by_cases hlt : j < n / 4 * 4
      · -- a byte of a word
        have hrep := hwords (j / 4) (List.mem_range'_1.mpr (by omega))
        rw [wordReport_eq_none o (by omega) (by omega)] at hrep
        have := congrArg (fun bs => bs[j % 4]?) hrep
        simp only [List.getElem?_take, List.getElem?_drop, if_pos (by omega : j % 4 < 4),
          show 4 * (j / 4) + j % 4 = j by omega] at this
        exact this
      · -- a byte of the tail
        have hrep := hchars j (List.mem_range'_1.mpr (by omega))
        rwa [charReport_eq_none (by omega) (by omega)] at hrep
    · rw [List.getElem?_take, List.getElem?_take, if_neg hj, if_neg hj]
  · intro h
    have hget : ∀ j < n, s[j]? = p[j]? := by
      intro j hj
      have := congrArg (fun bs => bs[j]?) h
      simpa only [List.getElem?_take, if_pos hj] using this
    refine List.append_eq_nil_iff.mpr ⟨List.filterMap_eq_nil_iff.mpr ?_,
      List.filterMap_eq_nil_iff.mpr ?_⟩
    · intro i hi
      have := List.mem_range'_1.mp hi
      rw [wordReport_eq_none o (by omega) (by omega)]
      apply List.ext_getElem?
      intro j
      by_cases hj : j < 4
      · rw [List.getElem?_take, List.getElem?_take, if_pos hj, if_pos hj, List.getElem?_drop,
          List.getElem?_drop, hget _ (by omega)]
      · rw [List.getElem?_take, List.getElem?_take, if_neg hj, if_neg hj]
    · intro j hj
      have := List.mem_range'_1.mp hj
      rw [charReport_eq_none (by omega) (by omega)]
      exact hget j (by omega)

/-- The check is silent exactly on the pattern. -/
theorem differences_pattern_eq_nil_iff (o : ByteOrder) (c : Int) {n : Nat} {s : List UInt8}
    (hs : n ≤ s.length) : differences o (pattern o c n) s n = [] ↔ s.take n = pattern o c n := by
  rw [differences_eq_nil_iff o (Nat.le_of_eq (pattern_length o c n).symm) hs,
    pattern_take o c le_rfl]

/-- The words reported. -/
theorem word_mem_differences (o : ByteOrder) {p s : List UInt8} {n : Nat} (hp : n ≤ p.length)
    (hs : n ≤ s.length) (i : Nat) (e g : UInt32) :
    Mismatch.word i e g ∈ differences o p s n ↔
      4 ∣ i ∧ i + 4 ≤ n ∧ (s.drop i).take 4 ≠ (p.drop i).take 4 ∧
        e = wordAt o p i ∧ g = wordAt o s i := by
  simp only [differences, List.mem_append, List.mem_filterMap, List.mem_range'_1]
  constructor
  · rintro (⟨t, ht, hrep⟩ | ⟨j, -, hrep⟩)
    · unfold wordReport at hrep
      split at hrep
      · rename_i hne
        obtain ⟨rfl, rfl, rfl⟩ := Mismatch.word.inj (Option.some.inj hrep)
        refine ⟨Nat.dvd_mul_right 4 t, by omega, ?_, rfl, rfl⟩
        rwa [Ne, wordAt_inj o (by omega) (by omega)] at hne
      · cases hrep
    · unfold charReport at hrep
      split at hrep <;> cases hrep
  · rintro ⟨⟨t, rfl⟩, hi, hne, rfl, rfl⟩
    refine Or.inl ⟨t, by omega, if_pos ?_⟩
    rwa [Ne, wordAt_inj o (by omega) (by omega)]

/-- The bytes reported. -/
theorem char_mem_differences (o : ByteOrder) (p s : List UInt8) (n i : Nat) (e g : UInt8) :
    Mismatch.char i e g ∈ differences o p s n ↔
      n / 4 * 4 ≤ i ∧ i < n ∧ s.getD i 0 ≠ p.getD i 0 ∧ e = p.getD i 0 ∧ g = s.getD i 0 := by
  simp only [differences, List.mem_append, List.mem_filterMap, List.mem_range'_1]
  constructor
  · rintro (⟨t, -, hrep⟩ | ⟨j, hj, hrep⟩)
    · unfold wordReport at hrep
      split at hrep <;> cases hrep
    · unfold charReport at hrep
      split at hrep
      · rename_i hne
        obtain ⟨rfl, rfl, rfl⟩ := Mismatch.char.inj (Option.some.inj hrep)
        exact ⟨hj.1, by omega, hne, rfl, rfl⟩
      · cases hrep
  · rintro ⟨h₁, h₂, hne, rfl, rfl⟩
    exact Or.inr ⟨i, by omega, if_pos hne⟩

/-- **`lfsrcheck` is an exact test** for what `lfsrset` writes, on any host and at any length:
    `lfsrset` writes the pattern and nothing behind it, the check reports the differences from the
    pattern and is silent exactly where there are none, and patterns extend each other. -/
theorem lfsrcheck_exact (o : ByteOrder) (c : Int) (n : Nat) (s : List UInt8) (hs : n ≤ s.length) :
    ∃ p d, p.length = n ∧
      lfsrset o s c n = some (p ++ s.drop n, d) ∧
      lfsrcheck o s c n = some (differences o p s n, d) ∧
      (differences o p s n = [] ↔ s.take n = p) ∧
      (∀ i e g, Mismatch.word i e g ∈ differences o p s n ↔
        4 ∣ i ∧ i + 4 ≤ n ∧ (s.drop i).take 4 ≠ (p.drop i).take 4 ∧
          e = wordAt o p i ∧ g = wordAt o s i) ∧
      (∀ i e g, Mismatch.char i e g ∈ differences o p s n ↔
        n / 4 * 4 ≤ i ∧ i < n ∧ s.getD i 0 ≠ p.getD i 0 ∧ e = p.getD i 0 ∧ g = s.getD i 0) ∧
      ∀ m s', m ≤ s'.length → n ≤ m →
        ∃ p' d', lfsrset o s' c m = some (p' ++ s'.drop m, d') ∧ p'.length = m ∧ p'.take n = p := by
  have hp : n ≤ (pattern o c n).length := Nat.le_of_eq (pattern_length o c n).symm
  refine ⟨pattern o c n, _, pattern_length o c n, lfsrset_eq o c hs, lfsrcheck_eq o c hs,
    differences_pattern_eq_nil_iff o c hs, word_mem_differences o hp hs,
    char_mem_differences o _ s n, ?_⟩
  intro m s' hs' hm
  exact ⟨pattern o c m, _, lfsrset_eq o c hs', pattern_length o c m, pattern_take o c hm⟩

/-- A five-byte buffer, checked for four bytes. -/
theorem lfsrcheck_exact_word :
    ∃ p d, lfsrset .little [0, 0, 0, 0, 7] 97 4 = some (p ++ [7], d) ∧
      lfsrcheck .little [0, 0, 0, 0, 7] 97 4 =
        some (differences .little p [0, 0, 0, 0, 7] 4, d) := by
  obtain ⟨p, d, -, hset, hcheck, -⟩ :=
    lfsrcheck_exact .little 97 4 [0, 0, 0, 0, 7] (by decide)
  exact ⟨p, d, hset, hcheck⟩

/-! ## The generator is linear -/

theorem and_one_cases (x : UInt32) : x &&& 1 = 0 ∨ x &&& 1 = 1 := by
  have h : (x &&& 1).toNat = x.toNat % 2 := by
    rw [UInt32.toNat_and, UInt32.toNat_one, Nat.and_one_is_mod]
  rcases Nat.mod_two_eq_zero_or_one x.toNat with h' | h'
  · left
    apply UInt32.toNat_inj.mp
    rw [h, h']
    rfl
  · right
    apply UInt32.toNat_inj.mp
    rw [h, h']
    rfl

/-- The feedback of a sum is the sum of the feedbacks. -/
theorem feedback_xor (a b : UInt32) :
    (0 - ((a ^^^ b) &&& 1)) &&& 0x400010 =
      ((0 - (a &&& 1)) &&& 0x400010) ^^^ ((0 - (b &&& 1)) &&& 0x400010) := by
  have hand : (a ^^^ b) &&& 1 = (a &&& 1) ^^^ (b &&& 1) := by
    apply UInt32.toNat_inj.mp
    simp only [UInt32.toNat_and, UInt32.toNat_xor, Nat.and_xor_distrib_right]
  rw [hand]
  rcases and_one_cases a with ha | ha <;> rcases and_one_cases b with hb | hb <;> rw [ha, hb] <;>
    rfl

theorem lfsr23_xor (a b : UInt32) : lfsr23 (a ^^^ b) = lfsr23 a ^^^ lfsr23 b := by
  unfold lfsr23
  rw [feedback_xor, UInt32.shiftRight_xor]
  ac_rfl

theorem lfsr23_iterate_xor (k : Nat) (a b : UInt32) :
    lfsr23^[k] (a ^^^ b) = lfsr23^[k] a ^^^ lfsr23^[k] b := by
  induction k generalizing a b with
  | zero => rfl
  | succ k ih =>
    rw [Function.iterate_succ_apply, lfsr23_xor, ih]
    rfl

theorem leBytes_xor (a b : UInt32) :
    leBytes (a ^^^ b) = List.zipWith (· ^^^ ·) (leBytes a) (leBytes b) := by
  simp only [leBytes, List.zipWith_cons_cons, List.zipWith_nil_left, List.cons.injEq, and_true,
    ← UInt8.toNat_inj, UInt8.toNat_xor, UInt8.toNat_ofNat', UInt32.toNat_xor, Nat.xor_div_two_pow,
    Nat.xor_mod_two_pow]

theorem toBytes_xor (o : ByteOrder) (a b : UInt32) :
    toBytes o (a ^^^ b) = List.zipWith (· ^^^ ·) (toBytes o a) (toBytes o b) := by
  cases o with
  | little => exact leBytes_xor a b
  | big =>
    rw [toBytes, leBytes_xor]
    rfl

/-- **Linearity**: two patterns differ by the pattern of the sum of their seeds.  So where two of
    them agree is a question about one, and not about two that go on side by side. -/
theorem patternByte_xor (o : ByteOrder) {a b c : Int} (h : toUint32 a ^^^ toUint32 b = toUint32 c)
    (j : Nat) : patternByte o a j ^^^ patternByte o b j = patternByte o c j := by
  unfold patternByte
  have hj : j % 4 < 4 := Nat.mod_lt j (by decide)
  rw [← h, lfsr23_iterate_xor, toBytes_xor, List.getD_eq_getElem _ _ (by rwa [toBytes_length]),
    List.getD_eq_getElem _ _ (by rwa [toBytes_length]),
    List.getD_eq_getElem _ _ (by simpa using hj), List.getElem_zipWith]

/-! ## Truncation -/

variable {Op : Type} {Res : Op → Type} {Prot : Type}

/-- Both sides fill their buffers, the first `k` bytes of the peer's send buffer arrive, and the
    receive buffer is checked. -/
def truncatedCheck (h peer : Netpipe Prot) (n : Int) (k : Nat) :
    Proc Op Res Event (Netpipe Prot) := do
  let peer ← initBufferData peer n 0 0
  let h ← initBufferData h n 0 0
  let bs ← Proc.ofOption (peer.heap.load peer.args.sBuff k)
  let heap ← Proc.ofOption (h.heap.store h.args.rBuff bs)
  checkBufferData { h with heap } n 0 0

/-- What a process shows, and nothing else. -/
def logging : Env Op Res Event (List Event) where
  emit e log := log ++ [e]
  alloc _ _ := True
  answer _ log _ log' := log' = log

/-- Reports and then a return. -/
theorem exec_report {α : Type} {a : α} {out : Outcome α} (ms : List Mismatch) :
    ∀ {log log' : List Event},
      Exec (@logging Op Res) ((report ms).bind fun _ => .ret a) log out log' ↔
        out = .returned a ∧ log' = log ++ ms.map .mismatch := by
  induction ms with
  | nil =>
    intro log log'
    constructor
    · rintro ⟨⟩
      exact ⟨rfl, (List.append_nil log).symm⟩
    · rintro ⟨rfl, rfl⟩
      rw [List.map_nil, List.append_nil]
      exact .ret
  | cons m ms ih =>
    intro log log'
    constructor
    · rintro (⟨⟩ | ⟨⟩ | ⟨⟩ | h)
      have := ih.mp h
      rwa [logging, List.append_assoc] at this
    · intro h
      refine .emit (ih.mpr ?_)
      rwa [logging, List.append_assoc]

section truncated

variable {h peer : Netpipe Prot} {n k : Nat} {r s r' s' : List UInt8}

variable (Op Res) in
/-- What the check of a truncated delivery comes to. -/
theorem truncatedCheck_eq (hh : Armed h n r s) (hp : Armed peer n r' s') (hn : n < 2 ^ 31)
    (hcache : h.args.cache = false) (hcache' : peer.args.cache = false) (hk : k ≤ n) :
    ∃ h₁, (truncatedCheck h peer n k : Proc Op Res Event _) =
      (report (differences h.order (pattern h.order 98 n)
        ((pattern peer.order 98 n).take k ++ (pattern h.order 97 n).drop k) n)).bind
          fun _ => .ret h₁ := by
  obtain ⟨p₁, hpi, -, hp₁⟩ := initBufferData_eq Op Res hp hn hcache'
  obtain ⟨h₁, hhi, hsame, hh₁⟩ := initBufferData_eq Op Res hh hn hcache
  have horder : h₁.order = h.order := congrArg Settings.order hsame.settings
  -- the delivery covers the first `k` bytes
  have hcover : ((pattern peer.order 98 n).take k).length =
      ((pattern h.order 97 n).take k).length := by
    rw [List.length_take, List.length_take, pattern_length, pattern_length]
  rw [← List.take_append_drop k (pattern h.order 97 n)] at hh₁
  obtain ⟨heap, hstore, hh₂⟩ := Armed.store_rPtr (show Armed h₁ n ([] ++ _) _ from hh₁) hcover
  have hlen := hh₂.length_r
  rw [List.nil_append] at hlen hh₂
  obtain ⟨h₂, hcheck, -, -⟩ := checkBufferData_eq Op Res hh₂ hn
    (lfsrcheck_eq _ 98 (Nat.le_of_eq hlen.symm))
  refine ⟨h₂, ?_⟩
  unfold truncatedCheck
  simp only [hpi, hhi, hp₁.load_sBuff hk, Proc.ofOption, Proc.bind_eq, Proc.bind,
    hh₁.rBuff_eq]
  rw [show h₁.heap.store (h₁.args.rPtr.add 0) _ = some heap from hstore]
  simp only [Proc.bind]
  rw [hcheck]
  simp only [horder]

/-- A truncated buffer, byte by byte: what has arrived, and then still the pattern of 'a'. -/
theorem truncated_getElem? (o o' : ByteOrder) (hk : k ≤ n) {j : Nat} (hj : j < n) :
    ((pattern o' 98 n).take k ++ (pattern o 97 n).drop k)[j]? =
      some (if j < k then patternByte o' 98 j else patternByte o 97 j) := by
  have htake : ((pattern o' 98 n).take k).length = k := by
    rw [List.length_take, pattern_length, Nat.min_eq_left hk]
  split
  · rename_i hlt
    rw [List.getElem?_append_left (by omega), List.getElem?_take, if_pos hlt,
      pattern_getElem? o' 98 hj]
  · rename_i hge
    rw [List.getElem?_append_right (by omega), htake, List.getElem?_drop,
      Nat.add_sub_cancel' (by omega), pattern_getElem? o 97 hj]

/-- The truncated buffer passes where what has arrived is as on this host, and the patterns of 'a'
    and of 'b' agree from the `k`-th byte on, that is, the pattern of their sum is zero. -/
theorem truncated_passes_iff (o o' : ByteOrder) (hk : k ≤ n) :
    differences o (pattern o 98 n) ((pattern o' 98 n).take k ++ (pattern o 97 n).drop k) n = [] ↔
      (∀ j < k, patternByte o' 98 j = patternByte o 98 j) ∧
        ∀ j, k ≤ j → j < n → patternByte o 3 j = 0 := by
  have hlen : ((pattern o' 98 n).take k ++ (pattern o 97 n).drop k).length = n := by
    rw [List.length_append, List.length_take, List.length_drop, pattern_length, pattern_length]
    omega
  have hsum : toUint32 97 ^^^ toUint32 98 = toUint32 3 := by decide
  rw [differences_pattern_eq_nil_iff o 98 (Nat.le_of_eq hlen.symm),
    List.take_of_length_le (Nat.le_of_eq hlen)]
  constructor
  · intro h
    have hget : ∀ j < n, (if j < k then patternByte o' 98 j else patternByte o 97 j) =
        patternByte o 98 j := by
      intro j hj
      rw [← Option.some.injEq, ← truncated_getElem? o o' hk hj, h, pattern_getElem? o 98 hj]
    constructor
    · intro j hj
      rw [← hget j (by omega), if_pos hj]
    · -- what has not arrived is still the pattern of 'a'
      intro j hkj hj
      rw [← patternByte_xor o hsum, ← hget j hj, if_neg (by omega), UInt8.xor_self]
  · rintro ⟨hfirst, hrest⟩
    apply List.ext_getElem?
    intro j
    by_cases hj : j < n
    · rw [truncated_getElem? o o' hk hj, pattern_getElem? o 98 hj]
      split
      · rename_i hlt
        rw [hfirst j hlt]
      · rename_i hge
        have hzero := hrest j (by omega) hj
        rw [← patternByte_xor o hsum, UInt8.xor_eq_zero_iff] at hzero
        rw [hzero]
    · rw [List.getElem?_eq_none (by omega), List.getElem?_eq_none (by rw [pattern_length]; omega)]

/-- However the check ends, it has reported something. -/
def TruncationDetected (Op : Type) (Res : Op → Type) (h peer : Netpipe Prot) (n k : Nat) : Prop :=
  ∀ out log, Exec logging (truncatedCheck h peer n k : Proc Op Res Event _) [] out log →
    ∃ m, .mismatch m ∈ log

theorem truncationDetected_iff (hh : Armed h n r s) (hp : Armed peer n r' s') (hn : n < 2 ^ 31)
    (hcache : h.args.cache = false) (hcache' : peer.args.cache = false) (hk : k < n) :
    TruncationDetected Op Res h peer n k ↔
      ¬ ((∀ j < k, patternByte peer.order 98 j = patternByte h.order 98 j) ∧
        ∀ j, k ≤ j → j < n → patternByte h.order 3 j = 0) := by
  obtain ⟨h₁, hprog⟩ := truncatedCheck_eq Op Res hh hp hn hcache hcache' hk.le
  rw [← truncated_passes_iff h.order peer.order hk.le]
  simp only [TruncationDetected, hprog, exec_report]
  -- the reports are the differences, whatever they are
  generalize differences _ _ _ _ = ms
  constructor
  · rintro hall rfl
    obtain ⟨m, hm⟩ := hall _ _ ⟨rfl, rfl⟩
    cases hm
  · rintro hne out log ⟨-, rfl⟩
    obtain ⟨m, hm⟩ := List.exists_mem_of_ne_nil ms hne
    exact ⟨m, List.mem_map_of_mem hm⟩

/-- **A truncated delivery is detected** on a little-endian host exactly where the pattern of 'a'
    xor 'b' has a byte other than zero in what is missing, or the peer's bytes come in another
    order than the host's and what has arrived of them shows it. -/
theorem truncated_detected_iff (hh : Armed h n r s) (hp : Armed peer n r' s') (hn : n < 2 ^ 31)
    (hcache : h.args.cache = false) (hcache' : peer.args.cache = false)
    (horder : h.order = .little) (hk : k < n) :
    TruncationDetected Op Res h peer n k ↔
      (∃ j < k, patternByte peer.order 98 j ≠ patternByte .little 98 j) ∨
        ∃ j, k ≤ j ∧ j < n ∧ patternByte .little 3 j ≠ 0 := by
  rw [truncationDetected_iff hh hp hn hcache hcache' hk, horder, not_and_or]
  simp only [not_forall, ne_eq, exists_prop]

end truncated

/-- Nothing of a one-byte message arrives: that is noticed. -/
theorem truncated_detected_oneByte :
    TruncationDetected Unit (fun _ => Unit) (twoBuffers .little () [0] [0])
      (twoBuffers .little () [0] [0]) 1 0 :=
  (truncated_detected_iff (armed_twoBuffers .little () rfl) (armed_twoBuffers .little () rfl)
    (by decide) rfl rfl rfl (by decide)).mpr (Or.inr ⟨0, le_rfl, by decide, by decide⟩)

/-- The second byte of a two-byte message is lost, and the check passes. -/
theorem truncated_undetected :
    ¬ TruncationDetected Unit (fun _ => Unit) (twoBuffers .little () [0, 0] [0, 0])
      (twoBuffers .little () [0, 0] [0, 0]) 2 1 := by
  have harmed : Armed (twoBuffers .little () [0, 0] [0, 0]) 2 [0, 0] [0, 0] :=
    armed_twoBuffers .little () rfl
  rw [truncationDetected_iff harmed harmed (by decide) rfl rfl (by decide), not_not]
  refine ⟨fun j _ => rfl, ?_⟩
  intro j h₁ h₂
  have hj : j = 1 := by omega
  subst hj
  decide

/-! ## Byte orders -/

/-- All of the peer's send buffer arrives. -/
def deliveredCheck (h peer : Netpipe Prot) (n : Nat) : Proc Op Res Event (Netpipe Prot) :=
  truncatedCheck h peer n n

/-- The check returns and reports nothing. -/
def DeliverySilent (Op : Type) (Res : Op → Type) (h peer : Netpipe Prot) (n : Nat) : Prop :=
  ∀ out log, Exec logging (deliveredCheck h peer n : Proc Op Res Event _) [] out log →
    (∃ h', out = .returned h') ∧ ∀ m, .mismatch m ∉ log

/-- The first bytes of the two patterns of 'b' tell the byte orders apart. -/
theorem patternByte_order {o o' : ByteOrder} (h : patternByte o' 98 0 = patternByte o 98 0) :
    o = o' := by
  cases o <;> cases o' <;> first | rfl | exact absurd h (by decide)

/-- The patterns of 'a' and of 'b' agree where they are empty, or one byte on a big-endian host:
    their sum then is the high byte of a register of 23 bits. -/
theorem patterns_agree_iff (o : ByteOrder) {n : Nat} (hn : 0 < n) :
    (∀ j < n, patternByte o 3 j = 0) ↔ o = .big ∧ n = 1 := by
  constructor
  · intro h
    cases o with
    | little => exact absurd (h 0 hn) (by decide)
    | big =>
      refine ⟨rfl, ?_⟩
      by_contra hne
      exact absurd (h 1 (by omega)) (by decide)
  · rintro ⟨rfl, rfl⟩ j hj
    obtain rfl : j = 0 := by omega
    decide

/-- So a buffer in which nothing has arrived passes its check there only. -/
theorem untouched_passes_iff (o : ByteOrder) (n : Nat) :
    differences o (pattern o 98 n) (pattern o 97 n) n = [] ↔ n = 0 ∨ o = .big ∧ n = 1 := by
  have hnothing := truncated_passes_iff o o (Nat.zero_le n)
  rw [List.take_zero, List.drop_zero, List.nil_append] at hnothing
  rw [hnothing]
  rcases Nat.eq_zero_or_pos n with rfl | hn
  · exact ⟨fun _ => Or.inl rfl, fun _ => ⟨nofun, nofun⟩⟩
  · rw [or_iff_right (Nat.pos_iff_ne_zero.mp hn), ← patterns_agree_iff o hn]
    exact ⟨fun h j hj => h.2 j (Nat.zero_le j) hj, fun h => ⟨nofun, fun j _ hj => h j hj⟩⟩

section delivered

variable {h peer : Netpipe Prot} {n : Nat} {r s r' s' : List UInt8}

/-- A delivery passes where the two hosts have the same pattern of 'b'. -/
theorem deliverySilent_iff_bytes (hh : Armed h n r s) (hp : Armed peer n r' s') (hn : n < 2 ^ 31)
    (hcache : h.args.cache = false) (hcache' : peer.args.cache = false) :
    DeliverySilent Op Res h peer n ↔
      ∀ j < n, patternByte peer.order 98 j = patternByte h.order 98 j := by
  obtain ⟨h₁, hprog⟩ := truncatedCheck_eq Op Res hh hp hn hcache hcache' le_rfl
  have hpass := truncated_passes_iff h.order peer.order (le_refl n)
  have hmissing : ∀ j, n ≤ j → j < n → patternByte h.order 3 j = 0 :=
    fun j hge hlt => absurd hge (by omega)
  rw [and_iff_left hmissing] at hpass
  rw [← hpass]
  simp only [DeliverySilent, deliveredCheck, hprog, exec_report]
  generalize differences _ _ _ _ = ms
  constructor
  · intro hall
    have hno := (hall _ _ ⟨rfl, rfl⟩).2
    refine List.eq_nil_iff_forall_not_mem.mpr ?_
    intro m hm
    exact hno m (List.mem_map_of_mem hm)
  · rintro rfl out log ⟨rfl, rfl⟩
    refine ⟨⟨h₁, rfl⟩, ?_⟩
    intro m hm
    cases hm

/-- **A delivery passes the check** exactly between hosts of one byte order, unless it is empty. -/
theorem delivered_silent_iff (hh : Armed h n r s) (hp : Armed peer n r' s') (hn : n < 2 ^ 31)
    (hcache : h.args.cache = false) (hcache' : peer.args.cache = false) :
    DeliverySilent Op Res h peer n ↔ h.order = peer.order ∨ n = 0 := by
  rw [deliverySilent_iff_bytes hh hp hn hcache hcache']
  constructor
  · intro hbytes
    rcases Nat.eq_zero_or_pos n with hzero | hpos
    · exact Or.inr hzero
    · exact Or.inl (patternByte_order (hbytes 0 hpos))
  · rintro (horder | rfl) j hj
    · rw [horder]
    · omega

end delivered

/-- One byte between hosts of one byte order. -/
theorem delivered_silent_oneByte :
    DeliverySilent Unit (fun _ => Unit) (twoBuffers .big () [0] [0])
      (twoBuffers .big () [0] [0]) 1 :=
  (delivered_silent_iff (armed_twoBuffers .big () rfl) (armed_twoBuffers .big () rfl) (by decide)
    rfl rfl).mpr (Or.inl rfl)

/-- One byte from a big-endian host to a little-endian one. -/
theorem delivered_reported :
    ¬ DeliverySilent Unit (fun _ => Unit) (twoBuffers .little () [0] [0])
      (twoBuffers .big () [0] [0]) 1 := by
  intro hsilent
  have hbytes := (deliverySilent_iff_bytes (armed_twoBuffers .little () rfl)
    (armed_twoBuffers .big () rfl) (by decide) rfl rfl).mp hsilent
  exact absurd (hbytes 0 (by decide)) (by decide)

end NetPipe
