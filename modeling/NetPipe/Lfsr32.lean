/-
  `lfsr32`, for builds of `netpipe.c` with another `LFSR` than `lfsr23`.

  It is the register of its comment, `x^32 + x^31 + x^29 + x + 1`, and maximal-length like `lfsr23`:
  all states but 0 are on one cycle, and two seeds never meet.  The argument is that of
  `NetPipe.LfsrPeriod`.  The prime factors of `2 ^ 32 - 1` are the five Fermat primes, and the
  load-bearing step is a certificate for each of them (`isCoprime_period32`): two polynomials, as
  numbers, by which the power of `x` that is left, less 1, is coprime to that of the register.
  That two seeds never meet needs none: a whole period leads back from everywhere, so one call is
  injective.
-/
import NetPipe.LfsrPeriod

namespace NetPipe

open Function
open scoped Polynomial

/-- `lfsr32`, on the global `lfsrData`. -/
def lfsr32 (lfsrData : UInt32) : UInt32 :=
  (lfsrData >>> 1) ^^^ ((0 - (lfsrData &&& 1)) &&& 0xD0000001)

theorem toNat_lfsr32 (d : UInt32) : (lfsr32 d).toNat = Gf2.galois 0xD0000001 d.toNat := by
  have hbit : (d &&& 1).toNat = d.toNat % 2 := by
    rw [UInt32.toNat_and, UInt32.toNat_one, Nat.and_one_is_mod]
  have hshift : (d >>> 1).toNat = d.toNat / 2 := by
    rw [UInt32.toNat_shiftRight, Nat.shiftRight_eq_div_pow]
    rfl
  rw [lfsr32, UInt32.toNat_xor, hshift, Gf2.galois]
  congr 1
  rcases and_one_cases d with h | h
  · rw [h] at hbit ⊢
    rw [if_neg (by rw [← hbit]; decide)]
    rfl
  · rw [h] at hbit ⊢
    rw [if_pos (by rw [← hbit]; rfl)]
    rfl

theorem toNat_lfsr32_iterate (d : UInt32) (k : Nat) :
    (lfsr32^[k] d).toNat = (Gf2.galois 0xD0000001)^[k] d.toNat := by
  induction k with
  | zero => rfl
  | succ k ih => rw [iterate_succ_apply', iterate_succ_apply', toNat_lfsr32, ih]

/-- The polynomial of the comment, as a number. -/
theorem characteristic32 :
    Gf2.poly (2 * 0xD0000001 + 1) = .X ^ 32 + .X ^ 31 + .X ^ 29 + .X + 1 := by
  have hbits : 2 * 0xD0000001 + 1 = 1 <<< 32 ^^^ 1 <<< 31 ^^^ 1 <<< 29 ^^^ 1 <<< 1 ^^^ 1 := by
    decide
  rw [hbits]
  simp only [Gf2.poly_xor, Gf2.poly_shiftLeft, Gf2.poly_one, mul_one, pow_one]

/-- The prime factors of the period are the Fermat primes. -/
theorem prime_dvd_period32 {q : Nat} (hq : q.Prime) (hdvd : q ∣ 2 ^ 32 - 1) :
    q = 3 ∨ q = 5 ∨ q = 17 ∨ q = 257 ∨ q = 65537 := by
  have hfactors : 2 ^ 32 - 1 = 3 * (5 * (17 * (257 * 65537))) := by norm_num
  have hsame : ∀ {p : Nat}, p.Prime → q ∣ p → q = p :=
    fun hp h => (Nat.prime_dvd_prime_iff_eq hq hp).mp h
  rw [hfactors] at hdvd
  rcases hq.dvd_mul.mp hdvd with h | hdvd
  · exact Or.inl (hsame (by norm_num) h)
  rcases hq.dvd_mul.mp hdvd with h | hdvd
  · exact Or.inr (Or.inl (hsame (by norm_num) h))
  rcases hq.dvd_mul.mp hdvd with h | hdvd
  · exact Or.inr (Or.inr (Or.inl (hsame (by norm_num) h)))
  rcases hq.dvd_mul.mp hdvd with h | h
  · exact Or.inr (Or.inr (Or.inr (Or.inl (hsame (by norm_num) h))))
  · exact Or.inr (Or.inr (Or.inr (Or.inr (hsame (by norm_num) h))))

/-- With any of them divided out, the power of `X` that is left is not 1, even modulo a factor of
    the polynomial. -/
theorem isCoprime_period32 {q : Nat} (hq : q.Prime) (hdvd : q ∣ 2 ^ 32 - 1) :
    IsCoprime (.X ^ 32 + .X ^ 31 + .X ^ 29 + .X + 1 : (ZMod 2)[X])
      (.X ^ ((2 ^ 32 - 1) / q) - 1) := by
  rw [← characteristic32]
  rcases prime_dvd_period32 hq hdvd with rfl | rfl | rfl | rfl | rfl
  · exact Gf2.isCoprime_of_power (w := 31) (u := 0x6ee8687) (v := 0x3a76dbc8) (by decide)
      (by decide +kernel)
  · exact Gf2.isCoprime_of_power (w := 30) (u := 0x1a41a60f) (v := 0x27d86d89) (by decide)
      (by decide +kernel)
  · exact Gf2.isCoprime_of_power (w := 28) (u := 0x278e3244) (v := 0x83c4ba75) (by decide)
      (by decide +kernel)
  · exact Gf2.isCoprime_of_power (w := 24) (u := 0x30a58d67) (v := 0x481c41a4) (by decide)
      (by decide +kernel)
  · exact Gf2.isCoprime_of_power (w := 16) (u := 0x3fdc01b5) (v := 0x7279857f) (by decide)
      (by decide +kernel)

/-- `X` to the `2 ^ 32 - 1` is 1. -/
theorem dvd_period32 :
    (.X ^ 32 + .X ^ 31 + .X ^ 29 + .X + 1 : (ZMod 2)[X]) ∣ .X ^ (2 ^ 32 - 1) - 1 := by
  have hpower : Gf2.power (2 * 0xD0000001 + 1) 32 (2 ^ 32 - 1) = 1 := by decide +kernel
  rw [← characteristic32]
  exact Gf2.dvd_of_power (by norm_num) hpower

/-- The number of steps from a state back to itself. -/
theorem minimalPeriod_lfsr32 {d : UInt32} (hd : d ≠ 0) :
    minimalPeriod (Gf2.galois 0xD0000001) d.toNat = 2 ^ 32 - 1 := by
  have hpos : 0 < d.toNat := Nat.pos_of_ne_zero fun h => hd (UInt32.toNat_inj.mp h)
  refine Gf2.minimalPeriod_galois (by decide) (by decide) ?_ (fun q hq hdvd => ?_) d.toNat_lt hpos
  · rw [characteristic32]
    exact dvd_period32
  · rw [characteristic32]
    exact isCoprime_period32 hq hdvd

/-- Two seeds never meet: everything is back after a period. -/
theorem lfsr32_iterate_injective (k : Nat) : Injective (lfsr32^[k]) := by
  have hback : ∀ d : UInt32, lfsr32^[2 ^ 32 - 1] d = d := by
    intro d
    rw [← UInt32.toNat_inj, toNat_lfsr32_iterate]
    refine Gf2.galois_periodic (by decide) (by decide) ?_ d.toNat_lt
    rw [characteristic32]
    exact dvd_period32
  have hinj : Injective lfsr32 := by
    intro c d h
    have hiter := congrArg (lfsr32^[2 ^ 32 - 2]) h
    rw [← iterate_succ_apply, ← iterate_succ_apply] at hiter
    exact (hback c).symm.trans (hiter.trans (hback d))
  exact hinj.iterate k

/-- **`lfsr32` is maximal-length**: from any seed but 0 it never gives 0, it gives the same value
    twice exactly at places that are congruent modulo `2 ^ 32 - 1`, so that all other values come
    up in between, and from two seeds it never gives the same value at the same place. -/
theorem lfsr32_maximal (c : UInt32) (hc : c ≠ 0) :
    (∀ k, lfsr32^[k] c ≠ 0) ∧ (∀ i j, lfsr32^[i] c = lfsr32^[j] c ↔ i ≡ j [MOD 2 ^ 32 - 1]) ∧
      (∀ d, d ≠ 0 → ∃ k < 2 ^ 32 - 1, lfsr32^[k] c = d) ∧
      ∀ d k, lfsr32^[k] c = lfsr32^[k] d ↔ c = d := by
  have hperiod := minimalPeriod_lfsr32 hc
  have hzero : ∀ k, lfsr32^[k] c ≠ 0 := by
    intro k h
    have hfix : lfsr32^[k] 0 = 0 := iterate_fixed (by decide) k
    exact hc (lfsr32_iterate_injective k (h.trans hfix.symm))
  have heq : ∀ i j, lfsr32^[i] c = lfsr32^[j] c ↔ i ≡ j [MOD 2 ^ 32 - 1] := by
    intro i j
    rw [← UInt32.toNat_inj, toNat_lfsr32_iterate, toNat_lfsr32_iterate,
      Gf2.iterate_eq_iff (by rw [hperiod]; decide), hperiod]
  refine ⟨hzero, heq, ?_, fun d k => (lfsr32_iterate_injective k).eq_iff⟩
  -- as many values as there are numbers they could be
  intro d hd
  have hrange : (Finset.range (2 ^ 32 - 1)).image (fun k => (lfsr32^[k] c).toNat) =
      Finset.Ico 1 (2 ^ 32) := by
    apply Finset.eq_of_subset_of_card_le
    · intro m hm
      obtain ⟨k, -, rfl⟩ := Finset.mem_image.mp hm
      refine Finset.mem_Ico.mpr ⟨Nat.pos_of_ne_zero fun h => ?_, UInt32.toNat_lt _⟩
      exact hzero k (UInt32.toNat_inj.mp h)
    · rw [Finset.card_image_of_injOn, Finset.card_range, Nat.card_Ico]
      intro i hi j hj hij
      have hmod := (heq i j).mp (UInt32.toNat_inj.mp hij)
      rw [Nat.ModEq, Nat.mod_eq_of_lt (by simpa using hi), Nat.mod_eq_of_lt (by simpa using hj)]
        at hmod
      exact hmod
  have hmem : d.toNat ∈ Finset.Ico 1 (2 ^ 32) :=
    Finset.mem_Ico.mpr ⟨Nat.pos_of_ne_zero fun h => hd (UInt32.toNat_inj.mp h), d.toNat_lt⟩
  rw [← hrange] at hmem
  obtain ⟨k, hk, hkd⟩ := Finset.mem_image.mp hmem
  exact ⟨k, Finset.mem_range.mp hk, UInt32.toNat_inj.mp hkd⟩

/-- From the seed 'a'. -/
theorem lfsr32_maximal_a : (∀ k, lfsr32^[k] 97 ≠ 0) ∧
    ∀ d, d ≠ 0 → ∃ k < 2 ^ 32 - 1, lfsr32^[k] 97 = d := by
  obtain ⟨hzero, -, hall, -⟩ := lfsr32_maximal 97 (by decide)
  exact ⟨hzero, hall⟩

end NetPipe
