import Mathlib.Data.ZMod.Basic
import Mathlib.GroupTheory.OrderOfElement
import Mathlib.Dynamics.PeriodicPts.Defs

/-! Multiplicative congruential generators, and orbits that run into a cycle.

    `exact m a` multiplies by `a` modulo `m`. `wrapped w m a` does the same on words below `w`: the
    product is cut to a word before it is reduced. They agree as long as no product reaches `w`. When
    `a` is a primitive root modulo `m`, the exact generator has `m - 1` different values, none of
    them 0.

        s ──▶ s * a % m              exact: s, s * a, s * a², … modulo m
        s ──▶ s * a % w % m          wrapped: the same while s * a < w -/

namespace Generator

variable {w m a : ℕ}

def exact (m a s : ℕ) : ℕ := s * a % m

def wrapped (w m a s : ℕ) : ℕ := s * a % w % m

theorem wrapped_eq_exact {s : ℕ} (h : s * a < w) : wrapped w m a s = exact m a s := by
  rw [wrapped, exact, Nat.mod_eq_of_lt h]

theorem exact_iterate (m a s n : ℕ) : (exact m a)^[n + 1] s = s * a ^ (n + 1) % m := by
  induction n with
  | zero => simp [exact]
  | succ n ih =>
    rw [Function.iterate_succ_apply', ih, exact, Nat.mod_mul_mod, pow_succ a (n + 1), mul_assoc]

/-- A run none of whose products reaches `w` is a run of the exact generator. -/
theorem wrapped_iterate {s k : ℕ} (h : ∀ n < k, (wrapped w m a)^[n] s * a < w) :
    (wrapped w m a)^[k] s = (exact m a)^[k] s := by
  induction k with
  | zero => rfl
  | succ k ih =>
    rw [Function.iterate_succ_apply', Function.iterate_succ_apply',
      wrapped_eq_exact (h k k.lt_succ_self), ih fun n hn => h n (Nat.lt_succ_of_lt hn)]

/-! ### Primitive roots -/

/-- The powers of `a` modulo `m` come back to 1 after `m - 1` steps and not before. -/
structure Primitive (m a : ℕ) : Prop where
  two_lt : 2 < m
  order : orderOf (a : ZMod m) = m - 1

variable (hp : Primitive m a)
include hp

theorem Primitive.isOfFinOrder : IsOfFinOrder (a : ZMod m) := by
  have hm := hp.two_lt
  rw [← orderOf_pos_iff, hp.order]
  omega

theorem Primitive.pow_mod_ne_zero (n : ℕ) : a ^ n % m ≠ 0 := by
  intro h
  have hm : Fact (1 < m) := ⟨by have := hp.two_lt; omega⟩
  have hz : (a : ZMod m) ^ n = 0 := by
    have := (ZMod.natCast_eq_zero_iff (a ^ n) m).mpr (Nat.dvd_of_mod_eq_zero h)
    rwa [Nat.cast_pow] at this
  have hone : ((a : ZMod m) ^ n) ^ orderOf (a : ZMod m) = 1 := by
    rw [← pow_mul, mul_comm, pow_mul, pow_orderOf_eq_one, one_pow]
  rw [hz, zero_pow hp.isOfFinOrder.orderOf_pos.ne'] at hone
  exact zero_ne_one hone

/-- Fewer than `m - 1` steps apart, two powers differ. -/
theorem Primitive.pow_mod_ne {i j : ℕ} (hij : i < j) (hj : j < i + (m - 1)) :
    a ^ i % m ≠ a ^ j % m := by
  intro h
  have hpow : (a : ZMod m) ^ i = (a : ZMod m) ^ j := by
    have := (ZMod.natCast_eq_natCast_iff' (a ^ i) (a ^ j) m).mpr h
    rwa [Nat.cast_pow, Nat.cast_pow] at this
  have hmod := hp.isOfFinOrder.pow_eq_pow_iff_modEq.mp hpow
  rw [hp.order, Nat.modEq_iff_dvd' hij.le] at hmod
  have hle := Nat.le_of_dvd (by omega) hmod
  omega

omit hp

/-! ### Orbits -/

section Orbits

variable {α : Type*} {f : α → α}

theorem iterate_add_cycle {s y : α} {t c : ℕ} (ht : f^[t] s = y) (hc : f^[c] y = y) (k : ℕ) :
    f^[t + k * c] s = y := by
  rw [add_comm, Function.iterate_add_apply, ht, mul_comm, Function.iterate_mul]
  exact Function.iterate_fixed hc k

/-- An orbit that runs into a cycle away from a fixed point never meets that fixed point. -/
theorem iterate_ne_of_cycle {s y z : α} {t c : ℕ} (hz : f z = z) (ht : f^[t] s = y)
    (hc : f^[c] y = y) (hpos : 0 < c) (hy : y ≠ z) (n : ℕ) : f^[n] s ≠ z := by
  intro hn
  have hle : n ≤ t + n * c := Nat.le_add_left_of_le (Nat.le_mul_of_pos_right n hpos)
  obtain ⟨d, hd⟩ := Nat.exists_eq_add_of_le hle
  have hyz : f^[t + n * c] s = z := by
    rw [hd, add_comm, Function.iterate_add_apply, hn, Function.iterate_fixed hz]
  exact hy ((iterate_add_cycle ht hc n).symm.trans hyz)

end Orbits

/-! ### Long runs by doubling -/

/-- `f` at a number that is evaluated first. -/
def forced (f : ℕ → ℕ) : ℕ → ℕ
  | 0 => f 0
  | x + 1 => f (x + 1)

theorem forced_eq (f : ℕ → ℕ) (x : ℕ) : forced f x = f x := by
  cases x <;> rfl

/-- `2 ^ k` steps. -/
def leap (f : ℕ → ℕ) : ℕ → ℕ → ℕ
  | 0, x => f x
  | k + 1, x => forced (leap f k) (leap f k x)

theorem leap_eq (f : ℕ → ℕ) (k x : ℕ) : leap f k x = f^[2 ^ k] x := by
  induction k generalizing x with
  | zero => rfl
  | succ k ih => rw [leap, forced_eq, ih, ih, ← Function.iterate_add_apply, pow_succ, mul_two]

/-- The steps of a number given by its binary digits. -/
def leaps (f : ℕ → ℕ) (ks : List ℕ) (x : ℕ) : ℕ := ks.foldl (fun y k => leap f k y) x

theorem leaps_eq (f : ℕ → ℕ) (ks : List ℕ) (x : ℕ) :
    leaps f ks x = f^[(ks.map (2 ^ ·)).sum] x := by
  induction ks generalizing x with
  | nil => rfl
  | cons k ks ih =>
    have hstep : leaps f (k :: ks) x = leaps f ks (leap f k x) := rfl
    rw [hstep, ih, leap_eq, ← Function.iterate_add_apply, List.map_cons, List.sum_cons, add_comm]

end Generator
