/-
  The generator of `netpipe.c` is maximal-length.

  1. **The register and its polynomial** — `lfsr23` is the register of `x^23 + x^5 + 1`, as its
     comment says (`toNat_lfsr23`, `characteristic`): the mask 0x400010 is what is left of the
     polynomial after a shift to the right.

  2. **The period** — a step of the register is a multiplication by `x` (`Lib.Gf2`), so
     `2 ^ 23 - 1` steps lead back to the start if `x` to that power is 1 modulo the polynomial
     (`dvd_period`).  The load-bearing step is that fewer do not (`isCoprime_period`): for both
     prime factors of the number, 47 and 178481, the power that is left when it is divided out
     differs from 1, even modulo any factor the polynomial may have.  So irreducibility is not
     needed.

  3. **What that says of a buffer** (`lfsrset_maximal`): its words are different from each other, up
     to a distance of `2 ^ 23 - 1` words.
-/
import Mathlib.Data.UInt
import Mathlib.Tactic.NormNum.Prime
import NetPipe.Lib.Gf2
import NetPipe.Integrity

namespace NetPipe

open Memory Function
open scoped Polynomial

/-- `lfsr23` is the register of `x^23 + x^5 + 1`. -/
theorem toNat_lfsr23 (d : UInt32) : (lfsr23 d).toNat = Gf2.galois 0x400010 d.toNat := by
  have hbit : (d &&& 1).toNat = d.toNat % 2 := by
    rw [UInt32.toNat_and, UInt32.toNat_one, Nat.and_one_is_mod]
  have hshift : (d >>> 1).toNat = d.toNat / 2 := by
    rw [UInt32.toNat_shiftRight, Nat.shiftRight_eq_div_pow]
    rfl
  rw [lfsr23, UInt32.toNat_xor, hshift, Gf2.galois]
  congr 1
  rcases and_one_cases d with h | h
  · rw [h] at hbit ⊢
    rw [if_neg (by rw [← hbit]; decide)]
    rfl
  · rw [h] at hbit ⊢
    rw [if_pos (by rw [← hbit]; rfl)]
    rfl

theorem toNat_lfsr23_iterate (d : UInt32) (k : Nat) :
    (lfsr23^[k] d).toNat = (Gf2.galois 0x400010)^[k] d.toNat := by
  induction k with
  | zero => rfl
  | succ k ih => rw [iterate_succ_apply', iterate_succ_apply', toNat_lfsr23, ih]

/-- The polynomial, as a number. -/
theorem characteristic : Gf2.poly (2 * 0x400010 + 1) = .X ^ 23 + .X ^ 5 + 1 := by
  have hbits : 2 * 0x400010 + 1 = 1 <<< 23 ^^^ 1 <<< 5 ^^^ 1 := by decide
  rw [hbits, Gf2.poly_xor, Gf2.poly_xor, Gf2.poly_shiftLeft, Gf2.poly_shiftLeft, Gf2.poly_one,
    mul_one, mul_one]

/-- `X` to the `2 ^ 23 - 1` is 1. -/
theorem dvd_period : (.X ^ 23 + .X ^ 5 + 1 : (ZMod 2)[X]) ∣ .X ^ (2 ^ 23 - 1) - 1 := by
  have hpower : Gf2.power (2 * 0x400010 + 1) 23 (2 ^ 23 - 1) = 1 := by decide +kernel
  rw [← characteristic]
  exact Gf2.dvd_of_power (by norm_num) hpower

/-- And no smaller power that has to be looked at has a divisor in common with the polynomial. -/
theorem isCoprime_period {q : Nat} (hq : q.Prime) (hdvd : q ∣ 2 ^ 23 - 1) :
    IsCoprime (.X ^ 23 + .X ^ 5 + 1 : (ZMod 2)[X]) (.X ^ ((2 ^ 23 - 1) / q) - 1) := by
  rw [← characteristic]
  have hfactors : 2 ^ 23 - 1 = 47 * 178481 := by norm_num
  rw [hfactors] at hdvd ⊢
  rcases hq.dvd_mul.mp hdvd with h | h
  · obtain rfl := (Nat.prime_dvd_prime_iff_eq hq (by norm_num)).mp h
    exact Gf2.isCoprime_of_power (w := 18) (u := 0x8c429) (v := 0x191238) (by decide)
      (by decide +kernel)
  · obtain rfl := (Nat.prime_dvd_prime_iff_eq hq (by norm_num)).mp h
    exact Gf2.isCoprime_of_power (w := 6) (u := 0x1b8) (v := 0x1b8597) (by decide)
      (by decide +kernel)

/-- **The period of `lfsr23`**, from any state of 23 bits but 0: by `minimalPeriod_galois`, with
    the two facts above on powers of `X`. -/
theorem lfsr23_iterate_eq_iff {d : UInt32} (hpos : d ≠ 0) (hlt : d.toNat < 2 ^ 23) (i j : Nat) :
    lfsr23^[i] d = lfsr23^[j] d ↔ i ≡ j [MOD 2 ^ 23 - 1] := by
  have hpos' : 0 < d.toNat := Nat.pos_of_ne_zero fun h => hpos (UInt32.toNat_inj.mp h)
  have hperiod : Function.minimalPeriod (Gf2.galois 0x400010) d.toNat = 2 ^ 23 - 1 := by
    refine Gf2.minimalPeriod_galois (by decide) (by decide) ?_ (fun q hq hdvd => ?_) hlt hpos'
    · rw [characteristic]
      exact dvd_period
    · rw [characteristic]
      exact isCoprime_period hq hdvd
  rw [← UInt32.toNat_inj, toNat_lfsr23_iterate, toNat_lfsr23_iterate,
    Gf2.iterate_eq_iff (by rw [hperiod]; decide), hperiod]

/-- No state but 0 leads to 0, and none of 23 bits to one of more. -/
theorem lfsr23_iterate_range {d : UInt32} (hpos : d ≠ 0) (hlt : d.toNat < 2 ^ 23) (k : Nat) :
    lfsr23^[k] d ≠ 0 ∧ lfsr23^[k] d < 2 ^ 23 := by
  have hpos' : 0 < d.toNat := Nat.pos_of_ne_zero fun h => hpos (UInt32.toNat_inj.mp h)
  constructor
  · intro hzero
    have hstay : 0 < (Gf2.galois 0x400010)^[k] d.toNat :=
      Gf2.galois_iterate_pos (by decide) hlt hpos' k
    rw [← toNat_lfsr23_iterate, hzero] at hstay
    exact absurd hstay (by decide)
  · rw [UInt32.lt_iff_toNat_lt, toNat_lfsr23_iterate]
    exact Gf2.galois_iterate_lt (by decide) hlt k

/-- The words of a filled buffer are those of the pattern. -/
theorem wordAt_filled (o : ByteOrder) (c : Int) {n i : Nat} (hi : 4 * i + 4 ≤ n)
    (rest : List UInt8) :
    wordAt o (pattern o c n ++ rest) (4 * i) = lfsr23^[i + 1] (toUint32 c) := by
  have hlen := pattern_length o c n
  rw [← wordAt_pattern o c hi, wordAt, wordAt, List.drop_append_of_le_length (by omega),
    List.take_append_of_le_length (by rw [List.length_drop]; omega)]

/-- **The generator is maximal-length.**  The words `lfsrset` writes do not depend on the buffer;
    none is 0 or has more than 23 bits, and two of them are equal exactly where their places are
    congruent modulo `2 ^ 23 - 1`. -/
theorem lfsrset_maximal {c : Int} (hpos : 0 < c) (hlt : c < 2 ^ 23) :
    ∃ w : Nat → UInt32,
      (∀ (o : ByteOrder) (n : Nat) (s : List UInt8), n ≤ s.length →
        ∃ s' d, lfsrset o s c n = some (s', d) ∧
          ∀ i, 4 * i + 4 ≤ n → wordAt o s' (4 * i) = w i) ∧
      (∀ i, w i ≠ 0 ∧ w i < 2 ^ 23) ∧
      ∀ i j, w i = w j ↔ i ≡ j [MOD 2 ^ 23 - 1] := by
  have hseed : (toUint32 c).toNat = c.toNat := by
    rw [toUint32, UInt32.ofInt, Int.emod_eq_of_lt hpos.le (by omega), UInt32.toNat_ofNat',
      Nat.mod_eq_of_lt (by omega)]
  have hne : toUint32 c ≠ 0 := by
    intro hzero
    have hzero' : c.toNat = 0 := hseed.symm.trans (congrArg UInt32.toNat hzero)
    omega
  have hseed' : (toUint32 c).toNat < 2 ^ 23 := by omega
  refine ⟨fun i => lfsr23^[i + 1] (toUint32 c), ?_, fun i => lfsr23_iterate_range hne hseed' _, ?_⟩
  · intro o n s hs
    exact ⟨_, _, lfsrset_eq o c hs, fun i hi => wordAt_filled o c hi _⟩
  · intro i j
    rw [lfsr23_iterate_eq_iff hne hseed']
    exact ⟨Nat.ModEq.add_right_cancel' 1, Nat.ModEq.add_right 1⟩

/-- The words of 'a'. -/
theorem lfsrset_maximal_a :
    ∃ w : Nat → UInt32,
      (∀ (o : ByteOrder) (n : Nat) (s : List UInt8), n ≤ s.length →
        ∃ s' d, lfsrset o s 97 n = some (s', d) ∧
          ∀ i, 4 * i + 4 ≤ n → wordAt o s' (4 * i) = w i) ∧
      (∀ i, w i ≠ 0 ∧ w i < 2 ^ 23) ∧
      ∀ i j, w i = w j ↔ i ≡ j [MOD 2 ^ 23 - 1] :=
  lfsrset_maximal (by decide) (by decide)

end NetPipe
