import Mathlib.Tactic.ReduceModChar
import Mathlib.Tactic.NormNum.Prime
import Cake.Lib.Generator
import Cake.Pool

/-! The numbers that pick the slot to wait for (`frand`).

    The constants are those of the exact generator `16807 ^ n % 2147483647`, whose values are never 0
    and all different for 2147483646 calls. `frand` multiplies 32-bit words: the product is cut to 32
    bits before it is reduced. The second value, 282475249, is too large to be multiplied again, so the
    third call leaves the exact sequence. The orbit still avoids 0, but it is short.

        call        1        2            3
        exact       16807    282475249    1622650073
        frand       16807    282475249    1622647863 ──▶ … 16313 calls, then a cycle of 21729 -/

namespace Cake

open Generator

/-- One call: the static `seed` before it gives the new seed, which is returned. -/
def frand (seed : UInt32) : UInt32 :=
  let m : UInt32 := 2147483647
  let a : UInt32 := 16807
  (seed * a) % m

/-- The seed after `n` calls, which the `n`-th call returned. -/
def seedAfter (n : ℕ) : UInt32 := frand^[n] 1

theorem frand_toNat (seed : UInt32) :
    (frand seed).toNat = wrapped (2 ^ 32) 2147483647 16807 seed.toNat := by
  simp [frand, wrapped, UInt32.toNat_mod, UInt32.toNat_mul]

theorem seedAfter_succ (n : ℕ) : seedAfter (n + 1) = frand (seedAfter n) :=
  Function.iterate_succ_apply' frand n 1

theorem seedAfter_toNat (n : ℕ) :
    (seedAfter n).toNat = (wrapped (2 ^ 32) 2147483647 16807)^[n] 1 := by
  induction n with
  | zero => rfl
  | succ n ih => rw [seedAfter_succ, frand_toNat, ih, Function.iterate_succ_apply']

/-! ### What the constants describe -/

theorem prime_dvd_period {q : ℕ} (hq : q.Prime) (h : q ∣ 2147483646) :
    q ∈ [2, 3, 3, 7, 11, 31, 151, 331] := by
  have hprimes : ∀ r ∈ [2, 3, 3, 7, 11, 31, 151, 331], Prime r := by
    simp only [← Nat.prime_iff]
    norm_num
  have hprod : 2147483646 = [2, 3, 3, 7, 11, 31, 151, 331].prod := by norm_num
  rw [hprod] at h
  exact mem_list_primes_of_dvd_prod hq.prime hprimes h

/-- 16807 is a primitive root modulo 2147483647. -/
theorem primitive_constants : Primitive 2147483647 16807 := by
  refine ⟨by norm_num, ?_⟩
  refine orderOf_eq_of_pow_and_pow_div_prime (by norm_num) ?_ ?_
  · norm_num
    reduce_mod_char
  · intro q hq hdvd
    have hmem := prime_dvd_period hq hdvd
    simp only [List.mem_cons, List.not_mem_nil, or_false] at hmem
    rcases hmem with rfl | rfl | rfl | rfl | rfl | rfl | rfl | rfl
    all_goals
      norm_num
      reduce_mod_char
      decide +kernel

/-! ### The values of a run -/

/-- What the constants promise of the first `k` calls: the values of exact arithmetic, never 0, and none
    twice among 2147483646 of them. -/
structure MinimalStandard (k : ℕ) : Prop where
  exact : ∀ n, 1 ≤ n → n ≤ k → (seedAfter n).toNat = 16807 ^ n % 2147483647
  nonzero : ∀ n, 1 ≤ n → n ≤ k → seedAfter n ≠ 0
  fresh : ∀ i j, 1 ≤ i → i < j → j ≤ k → j ≤ 2147483646 → seedAfter i ≠ seedAfter j

/-- The product of every one of the first `k` calls fits in 32 bits. -/
def ProductsFit (k : ℕ) : Prop := ∀ n < k, (seedAfter n).toNat * 16807 < 2 ^ 32

theorem ProductsFit.exact {k n : ℕ} (h : ProductsFit k) (hpos : 1 ≤ n) (hn : n ≤ k) :
    (seedAfter n).toNat = 16807 ^ n % 2147483647 := by
  obtain ⟨n, rfl⟩ := Nat.exists_eq_add_of_le' hpos
  have hfit : ∀ i < n + 1, (wrapped (2 ^ 32) 2147483647 16807)^[i] 1 * 16807 < 2 ^ 32 := by
    intro i hi
    rw [← seedAfter_toNat]
    exact h i (by omega)
  rw [seedAfter_toNat, wrapped_iterate hfit, exact_iterate, one_mul]

/-- Exact values are those of a primitive root: not 0 and not repeated. -/
theorem minimalStandard_of_exact {k : ℕ}
    (h : ∀ n, 1 ≤ n → n ≤ k → (seedAfter n).toNat = 16807 ^ n % 2147483647) : MinimalStandard k := by
  refine ⟨h, ?_, ?_⟩
  · intro n hpos hn hzero
    refine primitive_constants.pow_mod_ne_zero n ?_
    rw [← h n hpos hn, hzero]
    rfl
  · intro i j hi hij hj hperiod heq
    refine primitive_constants.pow_mod_ne hij (by omega) ?_
    rw [← h i hi (by omega), ← h j (by omega) hj, heq]

/-- The third call multiplies 282475249, and is off. -/
theorem third_call : (seedAfter 2).toNat = 282475249 ∧ (seedAfter 3).toNat = 1622647863 := by
  decide

theorem productsFit_iff (k : ℕ) : ProductsFit k ↔ k ≤ 2 := by
  constructor
  · intro h
    by_contra hk
    have hfit := h 2 (by omega)
    rw [third_call.1] at hfit
    omega
  · intro hk n hn
    obtain rfl | rfl : n = 0 ∨ n = 1 := by omega
    · decide
    · decide

/-- `frand` is the exact generator for as long as its products fit in 32 bits, which is two calls. -/
theorem frand_minimalStandard_iff (k : ℕ) :
    (MinimalStandard k ↔ ProductsFit k) ∧ (MinimalStandard k ↔ k ≤ 2) := by
  have hfit : MinimalStandard k ↔ ProductsFit k := by
    constructor
    · intro h
      rw [productsFit_iff]
      by_contra hk
      have hthird := h.exact 3 (by omega) (by omega)
      rw [third_call.2] at hthird
      norm_num at hthird
    · intro h
      exact minimalStandard_of_exact fun n hpos hn => h.exact hpos hn
  exact ⟨hfit, hfit.trans (productsFit_iff k)⟩

/-- Three calls from the start: 1622647863 is returned, exact arithmetic gives 1622650073. -/
theorem frand_third_call :
    ¬ ∀ n, 1 ≤ n → (seedAfter n).toNat = 16807 ^ n % 2147483647 := by
  intro h
  have hthird := h 3 (by norm_num)
  rw [third_call.2] at hthird
  norm_num at hthird

/-! ### The orbit -/

/-- After 16313 calls the seed is on a cycle of 21729 values. -/
theorem seed_cycle :
    (wrapped (2 ^ 32) 2147483647 16807)^[16313] 1 = 1623076423 ∧
      (wrapped (2 ^ 32) 2147483647 16807)^[21729] 1623076423 = 1623076423 := by
  -- 16313 and 21729 by their binary digits
  have htail := leaps_eq (wrapped (2 ^ 32) 2147483647 16807) [0, 3, 4, 5, 7, 8, 9, 10, 11, 12, 13] 1
  have hcycle := leaps_eq (wrapped (2 ^ 32) 2147483647 16807) [0, 5, 6, 7, 10, 12, 14] 1623076423
  have hlen : ([0, 3, 4, 5, 7, 8, 9, 10, 11, 12, 13].map (2 ^ ·)).sum = 16313 := by decide
  have hlen' : ([0, 5, 6, 7, 10, 12, 14].map (2 ^ ·)).sum = 21729 := by decide
  rw [hlen] at htail
  rw [hlen'] at hcycle
  exact ⟨by rw [← htail]; decide +kernel, by rw [← hcycle]; decide +kernel⟩

/-- The seed never becomes 0, wrapped products or not. -/
theorem seedAfter_ne_zero (n : ℕ) : seedAfter n ≠ 0 := by
  intro h
  have hzero : (wrapped (2 ^ 32) 2147483647 16807)^[n] 1 = 0 := by
    rw [← seedAfter_toNat, h]
    rfl
  exact iterate_ne_of_cycle (by rfl) seed_cycle.1 seed_cycle.2 (by norm_num) (by norm_num) n hzero

/-- From the 16313th call on, every value comes back 21729 calls later. -/
theorem seedAfter_repeats {n : ℕ} (h : 16313 ≤ n) : seedAfter n = seedAfter (n + 21729) := by
  obtain ⟨k, rfl⟩ := Nat.exists_eq_add_of_le' h
  apply UInt32.toNat_inj.mp
  rw [seedAfter_toNat, seedAfter_toNat, Nat.add_assoc, Nat.add_comm 16313 21729,
    Function.iterate_add_apply, seed_cycle.1, Function.iterate_add_apply,
    Function.iterate_add_apply, seed_cycle.1, seed_cycle.2]

/-! ### The slots -/

/-- An outside whose random numbers are those of `frand`. -/
def Env.seeded (env : Env) : Env := { env with frand := fun n => (seedAfter (n + 1)).toNat }

/-- A full pool of any size waits for its slots in a cycle: 21729 waits later it is the same slot. -/
theorem Env.seeded_slot (env : Env) {n : ℕ} (h : 16313 ≤ n + 1) (size : ℕ) :
    env.seeded.frand n % size = env.seeded.frand (n + 21729) % size := by
  have hrep := seedAfter_repeats h
  have hcomm : n + 1 + 21729 = n + 21729 + 1 := Nat.add_right_comm n 1 21729
  simp only [seeded, hrep, hcomm]

end Cake
