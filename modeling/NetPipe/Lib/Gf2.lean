/-
  Polynomials over GF(2) as numbers, and the period of a shift register.

  Bit `i` of a number stands for `X ^ i`, so that a sum is an xor, a multiple of a power of `X` a
  shift, and arithmetic modulo a polynomial can be computed.  The registers that are verified with
  this have far too many states to be run through; their periods are found as orders of `X`.

  1. `poly` — the polynomial of a number; `poly_xor`, `poly_shiftLeft`, `poly_mul`.

  2. `power f e` — a number for `X ^ e` modulo `f` (`dvd_power`), by repeated squaring.
     Divisibility and inverses are therefore facts of a few numbers (`dvd_of_power`,
     `isCoprime_of_power`), which `decide` settles.

  3. `galois mask` — one step of the register with the polynomial `2 * mask + 1`.  The load-bearing
     lemma is `dvd_galois`: a step divides by `X`, modulo the polynomial.  So `k` steps divide by
     `X ^ k`, from every state alike, and whether a state is back after `k` steps does not depend on
     the state but on `X ^ k - 1`.

  4. **The period** (`minimalPeriod_galois`): from every state but 0 it is `n`, where `X ^ n` is 1
     modulo the polynomial and `X ^ (n / q) - 1` has an inverse for every prime factor `q` of `n`.
     Of the polynomial itself nothing is asked but its degree.
-/
import Mathlib.Algebra.Polynomial.Degree.Domain
import Mathlib.Algebra.CharP.Two
import Mathlib.Algebra.Field.ZMod
import Mathlib.Data.Nat.Bitwise
import Mathlib.Dynamics.PeriodicPts.Lemmas
import Mathlib.RingTheory.Coprime.Basic
import Mathlib.Tactic.LinearCombination

namespace Gf2

open Polynomial

/-! ## Numbers as polynomials -/

/-- The polynomial with the bits of `n` as coefficients. -/
noncomputable def poly (n : Nat) : (ZMod 2)[X] :=
  ∑ i ∈ Finset.range n, if n.testBit i then X ^ i else 0

theorem coeff_poly (n i : Nat) : (poly n).coeff i = if n.testBit i then 1 else 0 := by
  have hterm : ∀ j, (if n.testBit j then (X : (ZMod 2)[X]) ^ j else 0).coeff i =
      if i = j then (if n.testBit i then 1 else 0) else 0 := by
    intro j
    split
    · rename_i hj
      rw [coeff_X_pow]
      by_cases hij : i = j
      · rw [if_pos hij, if_pos hij, hij, if_pos hj]
      · rw [if_neg hij, if_neg hij]
    · rename_i hj
      rw [coeff_zero]
      by_cases hij : i = j
      · rw [if_pos hij, hij, if_neg hj]
      · rw [if_neg hij]
  rw [poly, finsetSum_coeff, Finset.sum_congr rfl fun j _ => hterm j, Finset.sum_ite_eq]
  split
  · rfl
  · -- a number has no bits from its own value on
    rename_i hi
    have hle : n ≤ i := not_lt.mp fun hlt => hi (Finset.mem_range.mpr hlt)
    have hlt : n < 2 ^ i := lt_of_lt_of_le Nat.lt_two_pow_self (Nat.pow_le_pow_right two_pos hle)
    rw [Nat.testBit_lt_two_pow hlt]
    rfl

@[simp] theorem poly_zero : poly 0 = 0 := rfl

@[simp] theorem poly_one : poly 1 = 1 := by
  simp [poly]

/-- Different numbers have different polynomials. -/
theorem poly_injective : Function.Injective poly := by
  intro m n h
  apply Nat.eq_of_testBit_eq
  intro i
  have hcoeff := congrArg (Polynomial.coeff · i) h
  simp only [coeff_poly] at hcoeff
  cases hm : m.testBit i <;> cases hn : n.testBit i <;> simp_all

theorem degree_poly_lt {n d : Nat} (h : n < 2 ^ d) : (poly n).degree < d := by
  rw [degree_lt_iff_coeff_zero]
  intro i hi
  have hlt : n < 2 ^ i := lt_of_lt_of_le h (Nat.pow_le_pow_right two_pos hi)
  rw [coeff_poly, Nat.testBit_lt_two_pow hlt]
  rfl

/-- The sum. -/
theorem poly_xor (m n : Nat) : poly (m ^^^ n) = poly m + poly n := by
  ext i
  rw [coeff_add, coeff_poly, coeff_poly, coeff_poly, Nat.testBit_xor]
  cases m.testBit i <;> cases n.testBit i <;> decide

theorem poly_shiftLeft (n k : Nat) : poly (n <<< k) = X ^ k * poly n := by
  ext i
  rw [coeff_X_pow_mul', coeff_poly, coeff_poly, Nat.testBit_shiftLeft]
  by_cases hk : k ≤ i <;> simp [hk]

/-! ## Arithmetic -/

/-- The product of the lowest `w` bits of `m` with `n`. -/
def mulBits (m n : Nat) : (w : Nat) → Nat
  | 0 => 0
  | w + 1 => mulBits m n w ^^^ (if m.testBit w then n <<< w else 0)

/-- The product. -/
def mul (m n : Nat) : Nat := mulBits m n (m.log2 + 1)

/-- The lowest bits, one more. -/
theorem mod_two_pow_succ (m w : Nat) :
    m % 2 ^ (w + 1) = m % 2 ^ w ^^^ (if m.testBit w then 2 ^ w else 0) := by
  apply Nat.eq_of_testBit_eq
  intro i
  rw [Nat.testBit_mod_two_pow, Nat.testBit_xor, Nat.testBit_mod_two_pow]
  rcases eq_or_ne i w with rfl | hne
  · cases m.testBit i <;> simp
  · have hlast : (if m.testBit w then 2 ^ w else 0).testBit i = false := by
      split
      · exact Nat.testBit_two_pow_of_ne hne.symm
      · exact Nat.zero_testBit i
    rw [hlast, Bool.xor_false]
    congr 2
    exact propext (by omega)

theorem poly_mulBits (m n w : Nat) : poly (mulBits m n w) = poly (m % 2 ^ w) * poly n := by
  induction w with
  | zero => simp [mulBits, Nat.mod_one]
  | succ w ih =>
    rw [mulBits, poly_xor, ih, mod_two_pow_succ, poly_xor, add_mul]
    congr 1
    split
    · rw [← Nat.one_shiftLeft, poly_shiftLeft, poly_shiftLeft, poly_one, mul_one]
    · rw [poly_zero, zero_mul]

theorem poly_mul (m n : Nat) : poly (mul m n) = poly m * poly n := by
  rw [mul, poly_mulBits, Nat.mod_eq_of_lt Nat.lt_log2_self]

/-- Multiples of `f` taken away from the top, `f` having degree `d`. -/
def reduceBits (f d : Nat) : (k m : Nat) → Nat
  | 0, m => m
  | k + 1, m => reduceBits f d k (if m.testBit (d + k) then m ^^^ (f <<< k) else m)

/-- The remainder. -/
def reduce (f m : Nat) : Nat := reduceBits f f.log2 (m.log2 + 1 - f.log2) m

theorem dvd_reduceBits (f d k : Nat) : ∀ m, poly f ∣ poly (reduceBits f d k m) - poly m := by
  induction k with
  | zero => exact fun m => ⟨0, by rw [reduceBits, sub_self, mul_zero]⟩
  | succ k ih =>
    intro m
    rw [reduceBits]
    split
    · have hsub := (ih (m ^^^ (f <<< k))).add (Dvd.intro_left (X ^ k) (poly_shiftLeft f k).symm)
      rwa [poly_xor, sub_add_eq_add_sub, add_sub_add_right_eq_sub] at hsub
    · exact ih m

theorem dvd_reduce (f m : Nat) : poly f ∣ poly (reduce f m) - poly m :=
  dvd_reduceBits f f.log2 _ m

/-! ## Powers of `X` -/

/-- `X ^ e` modulo `f`, for an exponent of `w` bits. -/
def power (f : Nat) : (w e : Nat) → Nat
  | 0, _ => 1
  | w + 1, e =>
    let h := power f w (e / 2)
    reduce f (mul h h <<< (e % 2))

theorem dvd_power (f w : Nat) : ∀ e < 2 ^ w, poly f ∣ poly (power f w e) - X ^ e := by
  induction w with
  | zero =>
    intro e he
    obtain rfl : e = 0 := by omega
    simp [power]
  | succ w ih =>
    intro e he
    have hhalf := ih (e / 2) (by omega)
    have hsplit : (X : (ZMod 2)[X]) ^ e = X ^ (e % 2) * (X ^ (e / 2) * X ^ (e / 2)) := by
      rw [← pow_add, ← pow_add]
      congr 1
      omega
    have hsquare : poly f ∣ X ^ (e % 2) * (poly (power f w (e / 2)) * poly (power f w (e / 2))) -
        X ^ e := by
      rw [hsplit, ← mul_sub, mul_self_sub_mul_self]
      exact (hhalf.mul_left _).mul_left _
    have hreduce := dvd_reduce f (mul (power f w (e / 2)) (power f w (e / 2)) <<< (e % 2))
    rw [poly_shiftLeft, poly_mul] at hreduce
    have hsum := hreduce.add hsquare
    rwa [sub_add_sub_cancel] at hsum

theorem dvd_of_power {f w e : Nat} (he : e < 2 ^ w) (h : power f w e = 1) :
    poly f ∣ X ^ e - 1 := by
  have hdvd := dvd_power f w e he
  rw [h, poly_one] at hdvd
  exact dvd_sub_comm.mp hdvd

/-- An inverse, as a certificate: `u * f + v * (X ^ e - 1) = 1` modulo `f`. -/
theorem isCoprime_of_power {f w e u v : Nat} (he : e < 2 ^ w)
    (h : mul u f ^^^ mul v (power f w e ^^^ 1) = 1) : IsCoprime (poly f) (X ^ e - 1) := by
  obtain ⟨q, hq⟩ := dvd_power f w e he
  have htwo : (2 : (ZMod 2)[X]) = 0 := CharTwo.two_eq_zero
  have hpoly := congrArg poly h
  rw [poly_xor, poly_mul, poly_mul, poly_xor, poly_one] at hpoly
  refine ⟨poly u + poly v * q, poly v, ?_⟩
  linear_combination hpoly - poly v * hq - poly v * htwo

/-! ## Shift registers -/

/-- One step of the register of `2 * mask + 1`: a shift to the right, and `mask` where a bit is
    shifted out. -/
def galois (mask s : Nat) : Nat := s / 2 ^^^ (if s % 2 = 1 then mask else 0)

/-- The lowest bit, split off. -/
theorem poly_bits (s : Nat) : poly s = X * poly (s / 2) + poly (s % 2) := by
  ext i
  rw [coeff_add, coeff_poly, coeff_poly]
  cases i with
  | zero =>
    rw [coeff_X_mul_zero, zero_add, Nat.testBit_zero, Nat.testBit_zero, Nat.mod_mod]
  | succ i =>
    have hlow : (s % 2).testBit (i + 1) = false := by
      rw [Nat.testBit_succ, Nat.div_eq_of_lt (Nat.mod_lt s two_pos), Nat.zero_testBit]
    rw [coeff_X_mul, coeff_poly, hlow, Nat.testBit_succ, if_neg Bool.false_ne_true, add_zero]

section galois

variable {mask d : Nat}

/-- **A step divides by `X`**, modulo the polynomial: `X` times the new state is the old one,
    plus the polynomial where a bit is shifted out. -/
theorem dvd_galois (mask s : Nat) :
    poly (2 * mask + 1) ∣ X * poly (galois mask s) - poly s := by
  have hmask : poly (2 * mask + 1) = X * poly mask + 1 := by
    rw [poly_bits, show (2 * mask + 1) / 2 = mask by omega, show (2 * mask + 1) % 2 = 1 by omega,
      poly_one]
  have htwo : (2 : (ZMod 2)[X]) = 0 := CharTwo.two_eq_zero
  rw [galois, poly_xor, poly_bits s, hmask]
  split
  · rename_i hs
    refine ⟨1, ?_⟩
    rw [hs, poly_one]
    linear_combination -htwo
  · rename_i hs
    refine ⟨0, ?_⟩
    rw [show s % 2 = 0 by omega, poly_zero]
    ring

theorem dvd_galois_iterate (mask s k : Nat) :
    poly (2 * mask + 1) ∣ X ^ k * poly ((galois mask)^[k] s) - poly s := by
  induction k with
  | zero => simp
  | succ k ih =>
    have hstep := (dvd_galois mask ((galois mask)^[k] s)).mul_left (X ^ k)
    rw [← Function.iterate_succ_apply' (galois mask), mul_sub, ← mul_assoc, ← pow_succ] at hstep
    have hsum := hstep.add ih
    rwa [sub_add_sub_cancel] at hsum

theorem galois_lt (hmask : mask < 2 ^ d) {s : Nat} (hs : s < 2 ^ d) : galois mask s < 2 ^ d := by
  have hhalf : s / 2 < 2 ^ d := lt_of_le_of_lt (Nat.div_le_self s 2) hs
  unfold galois
  split
  · exact Nat.xor_lt_two_pow hhalf hmask
  · rwa [Nat.xor_zero]

theorem galois_iterate_lt (hmask : mask < 2 ^ d) {s : Nat} (hs : s < 2 ^ d) (k : Nat) :
    (galois mask)^[k] s < 2 ^ d := by
  induction k with
  | zero => exact hs
  | succ k ih =>
    rw [Function.iterate_succ_apply']
    exact galois_lt hmask ih

/-- States of `d` bits are told apart modulo a polynomial of degree `d`. -/
theorem eq_of_dvd {f s t : Nat} (hf : f.testBit d = true) (hs : s < 2 ^ d) (ht : t < 2 ^ d)
    (h : poly f ∣ poly s - poly t) : s = t := by
  have hdegree : (d : WithBot ℕ) ≤ (poly f).degree := by
    refine le_degree_of_ne_zero ?_
    rw [coeff_poly, if_pos hf]
    exact one_ne_zero
  rw [CharTwo.sub_eq_add, ← poly_xor] at h
  have hzero := eq_zero_of_dvd_of_degree_lt h
    ((degree_poly_lt (Nat.xor_lt_two_pow hs ht)).trans_le hdegree)
  exact Nat.eq_of_xor_eq_zero (poly_injective hzero)

theorem eq_zero_of_dvd {f s : Nat} (hf : f.testBit d = true) (hs : s < 2 ^ d)
    (h : poly f ∣ poly s) : s = 0 := by
  rw [← sub_zero (poly s), ← poly_zero] at h
  exact eq_of_dvd hf hs (Nat.two_pow_pos d) h

/-- 0 is only reached from 0. -/
theorem galois_iterate_pos (htop : (2 * mask + 1).testBit d = true) {s : Nat} (hs : s < 2 ^ d)
    (hpos : 0 < s) (k : Nat) : 0 < (galois mask)^[k] s := by
  refine Nat.pos_of_ne_zero ?_
  intro hzero
  have hdvd := dvd_galois_iterate mask s k
  rw [hzero, poly_zero, mul_zero, zero_sub, dvd_neg] at hdvd
  exact hpos.ne' (eq_zero_of_dvd htop hs hdvd)

/-- After `n` steps a state is back, where `X ^ n` is 1. -/
theorem galois_periodic (hmask : mask < 2 ^ d) (htop : (2 * mask + 1).testBit d = true) {n : Nat}
    (hn : poly (2 * mask + 1) ∣ X ^ n - 1) {s : Nat} (hs : s < 2 ^ d) :
    (galois mask)^[n] s = s := by
  refine eq_of_dvd htop (galois_iterate_lt hmask hs n) hs ?_
  have hsub := (dvd_galois_iterate mask s n).sub (hn.mul_right (poly ((galois mask)^[n] s)))
  rwa [sub_mul, one_mul, sub_sub_sub_cancel_left] at hsub

/-- And no state but 0 is back after `m` steps, where `X ^ m - 1` has an inverse. -/
theorem galois_not_periodic (htop : (2 * mask + 1).testBit d = true) {m : Nat}
    (hm : IsCoprime (poly (2 * mask + 1)) (X ^ m - 1)) {s : Nat} (hs : s < 2 ^ d) (hpos : 0 < s) :
    (galois mask)^[m] s ≠ s := by
  intro hback
  have hdvd := dvd_galois_iterate mask s m
  rw [hback, ← sub_one_mul] at hdvd
  exact hpos.ne' (eq_zero_of_dvd htop hs (hm.dvd_of_dvd_mul_left hdvd))

end galois

/-! ## Periods -/

section period

open Function

variable {α : Type*} {f : α → α} {x : α} {n : Nat}

/-- A period is the smallest one if no prime can be divided out of it. -/
theorem minimalPeriod_eq (hback : f^[n] x = x)
    (hprime : ∀ q, q.Prime → q ∣ n → f^[n / q] x ≠ x) : minimalPeriod f x = n := by
  obtain ⟨k, hk⟩ : minimalPeriod f x ∣ n := IsPeriodicPt.minimalPeriod_dvd hback
  by_contra hne
  have hk1 : k ≠ 1 := by
    rintro rfl
    exact hne (by rw [hk, mul_one])
  obtain ⟨q, hq, l, rfl⟩ := Nat.exists_prime_and_dvd hk1
  have hdiv : n / q = minimalPeriod f x * l := by
    rw [hk, Nat.mul_left_comm, Nat.mul_div_cancel_left _ hq.pos]
  refine hprime q hq ⟨minimalPeriod f x * l, by rw [hk, Nat.mul_left_comm]⟩ ?_
  rw [hdiv]
  exact (isPeriodicPt_minimalPeriod f x).mul_const l

/-- Iterates are equal exactly where their numbers are congruent modulo the period. -/
theorem iterate_eq_iff (hpos : 0 < minimalPeriod f x) (i j : Nat) :
    f^[i] x = f^[j] x ↔ i ≡ j [MOD minimalPeriod f x] := by
  rw [← iterate_mod_minimalPeriod_eq (n := i), ← iterate_mod_minimalPeriod_eq (n := j),
    iterate_eq_iterate_iff_of_lt_minimalPeriod (Nat.mod_lt i hpos) (Nat.mod_lt j hpos)]
  rfl

end period

/-- **The period of a register**: `n` steps, from every state but 0.  Back after `n` steps as `X
    ^ n` is 1; and not after `n / q`, or the state times something invertible would be 0. -/
theorem minimalPeriod_galois {mask d n : Nat} (hmask : mask < 2 ^ d)
    (htop : (2 * mask + 1).testBit d = true)
    (hone : poly (2 * mask + 1) ∣ X ^ n - 1)
    (hcoprime : ∀ q, q.Prime → q ∣ n → IsCoprime (poly (2 * mask + 1)) (X ^ (n / q) - 1))
    {s : Nat} (hs : s < 2 ^ d) (hpos : 0 < s) :
    Function.minimalPeriod (galois mask) s = n :=
  minimalPeriod_eq (galois_periodic hmask htop hone hs)
    fun q hq hdvd => galois_not_periodic htop (hcoprime q hq hdvd) hs hpos

end Gf2
