import Mathlib.Data.Finset.Max
import Mathlib.Data.Finset.Card
import Mathlib.Data.Finset.Image
import Mathlib.Order.Bounds.Defs
import Mathlib.Data.List.Infix

/-! Occurrences of one list in another, and how many of them fit side by side.

    Points at least `k` apart are packed best by taking the first point that is left, each time
    (`Greedy.isGreatest`): whatever another packing takes first lies no earlier, so the rest of it
    still fits behind the greedy choice.

        points    1  3  4  6  8  9         k = 3
        greedy    1     4     8            takes 1, goes on from 4, takes 4, goes on from 7 …

    With `k` the length of the needle this counts non-overlapping occurrences. A needle that does not
    overlap itself has no others. -/

namespace Occurrences

/-! ### Points that are apart -/

variable {P : ℕ → Prop} {k pos n : ℕ}

/-- A set of points from `pos` on, any two at least `k` apart. -/
structure Packing (P : ℕ → Prop) (k pos : ℕ) (S : Finset ℕ) : Prop where
  mem : ∀ i ∈ S, pos ≤ i ∧ P i
  apart : ∀ i ∈ S, ∀ j ∈ S, i < j → i + k ≤ j

/-- Taking the first point from `pos` on and going on `k` further takes `n` points. -/
inductive Greedy (P : ℕ → Prop) (k : ℕ) : ℕ → ℕ → Prop
  | done {pos : ℕ} (h : ∀ i, pos ≤ i → ¬ P i) : Greedy P k pos 0
  | take {pos i n : ℕ} (hpos : pos ≤ i) (hi : P i) (hfirst : ∀ j, pos ≤ j → P j → i ≤ j)
      (rest : Greedy P k (i + k) n) : Greedy P k pos (n + 1)

/-- A packing behind `i + k` has room for `i`. -/
theorem Packing.insert {i : ℕ} {S : Finset ℕ} (h : Packing P k (i + k) S) (hpos : pos ≤ i) (hi : P i) :
    Packing P k pos (Insert.insert i S) := by
  constructor
  · intro j hj
    rcases Finset.mem_insert.mp hj with rfl | hj
    · exact ⟨hpos, hi⟩
    · have := h.mem j hj
      exact ⟨by omega, this.2⟩
  · intro j hj l hl hjl
    rcases Finset.mem_insert.mp hj with rfl | hj
    · rcases Finset.mem_insert.mp hl with rfl | hl
      · omega
      · exact (h.mem l hl).1
    · rcases Finset.mem_insert.mp hl with hl | hl
      · have := (h.mem j hj).1
        omega
      · exact h.apart j hj l hl hjl

/-- Without its least point, a packing lies behind the first point there is. -/
theorem Packing.erase_min {i : ℕ} {S : Finset ℕ} (h : Packing P k pos S) (hne : S.Nonempty)
    (hfirst : ∀ j, pos ≤ j → P j → i ≤ j) : Packing P k (i + k) (S.erase (S.min' hne)) := by
  have hmin := h.mem _ (S.min'_mem hne)
  have hle := hfirst _ hmin.1 hmin.2
  constructor
  · intro j hj
    have hS := Finset.mem_of_mem_erase hj
    have hlt : S.min' hne < j := Finset.min'_lt_of_mem_erase_min' S hne hj
    have hk := h.apart _ (S.min'_mem hne) j hS hlt
    exact ⟨by omega, (h.mem j hS).2⟩
  · intro j hj l hl
    exact h.apart j (Finset.mem_of_mem_erase hj) l (Finset.mem_of_mem_erase hl)

theorem Greedy.packing (h : Greedy P k pos n) (hk : 0 < k) : ∃ S, Packing P k pos S ∧ S.card = n := by
  induction h with
  | done h => exact ⟨∅, ⟨by simp, by simp⟩, rfl⟩
  | take hpos hi hfirst rest ih =>
    obtain ⟨S, hS, hcard⟩ := ih
    refine ⟨_, hS.insert hpos hi, ?_⟩
    rw [Finset.card_insert_of_notMem ?_, hcard]
    intro hmem
    have := (hS.mem _ hmem).1
    omega

/-- The exchange: another packing loses one point when the greedy choice is taken first. -/
theorem Greedy.card_le (h : Greedy P k pos n) {S : Finset ℕ} (hS : Packing P k pos S) : S.card ≤ n := by
  induction h generalizing S with
  | done h =>
    rw [Nat.le_zero, Finset.card_eq_zero, Finset.eq_empty_iff_forall_notMem]
    intro i hi
    exact h i (hS.mem i hi).1 (hS.mem i hi).2
  | take hpos hi hfirst rest ih =>
    -- the least point of the other packing is given up for the greedy one
    rcases S.eq_empty_or_nonempty with rfl | hne
    · simp
    · have hrest := ih (hS.erase_min hne hfirst)
      rw [Finset.card_erase_of_mem (S.min'_mem hne)] at hrest
      omega

theorem Greedy.isGreatest (h : Greedy P k pos n) (hk : 0 < k) :
    IsGreatest {m | ∃ S, Packing P k pos S ∧ S.card = m} n := by
  refine ⟨h.packing hk, ?_⟩
  rintro m ⟨S, hS, rfl⟩
  exact h.card_le hS

/-! ### Occurrences -/

variable {α : Type*} {needle hay : List α}

def OccursAt (needle hay : List α) (i : ℕ) : Prop := needle <+: hay.drop i

instance [DecidableEq α] (needle hay : List α) : DecidablePred (OccursAt needle hay) :=
  fun i => inferInstanceAs (Decidable (needle <+: hay.drop i))

theorem OccursAt.le_length {i : ℕ} (h : OccursAt needle hay i) (hne : needle ≠ []) :
    i + needle.length ≤ hay.length := by
  have hle := h.length_le
  have hpos := List.length_pos_iff.mpr hne
  rw [List.length_drop] at hle
  omega

/-- No end of the list is also a beginning of it. -/
def Unbordered (needle : List α) : Prop :=
  ∀ d, 0 < d → d < needle.length → ¬ needle.drop d <+: needle

/-- Occurrences of such a needle never overlap. -/
theorem Unbordered.apart (h : Unbordered needle) {i j : ℕ} (hi : OccursAt needle hay i)
    (hj : OccursAt needle hay j) (hij : i < j) : i + needle.length ≤ j := by
  by_contra hlt
  obtain ⟨r, hr⟩ := hi
  have hdrop : hay.drop j = needle.drop (j - i) ++ r := by
    rw [← Nat.add_sub_of_le hij.le, ← List.drop_drop, ← hr,
      List.drop_append_of_le_length (by omega), Nat.add_sub_cancel_left]
  have hpre : needle.drop (j - i) <+: hay.drop j := hdrop ▸ List.prefix_append ..
  exact h (j - i) (by omega) (by omega)
    (List.prefix_of_prefix_length_le hpre hj (by simp))

/-- Where a needle occurs. -/
def positions [DecidableEq α] (needle hay : List α) : Finset ℕ :=
  {i ∈ Finset.range hay.length | OccursAt needle hay i}

theorem mem_positions [DecidableEq α] (hne : needle ≠ []) (i : ℕ) :
    i ∈ positions needle hay ↔ OccursAt needle hay i := by
  rw [positions, Finset.mem_filter, Finset.mem_range, and_iff_right_iff_imp]
  intro h
  have hle := h.le_length hne
  have hpos := List.length_pos_iff.mpr hne
  omega

/-- All occurrences of a needle that does not overlap itself are counted. -/
theorem Greedy.eq_card [DecidableEq α] (hne : needle ≠ []) (hu : Unbordered needle)
    (h : Greedy (OccursAt needle hay) needle.length 0 n) : n = (positions needle hay).card := by
  have hall : Packing (OccursAt needle hay) needle.length 0 (positions needle hay) := by
    refine ⟨fun i hi => ⟨i.zero_le, (mem_positions hne i).mp hi⟩, ?_⟩
    intro i hi j hj
    exact hu.apart ((mem_positions hne i).mp hi) ((mem_positions hne j).mp hj)
  obtain ⟨S, hS, hcard⟩ := h.packing (List.length_pos_iff.mpr hne)
  refine le_antisymm ?_ (h.card_le hall)
  rw [← hcard]
  exact Finset.card_le_card fun i hi => (mem_positions hne i).mpr (hS.mem i hi).2

theorem drop_copies (needle : List α) (m n : ℕ) :
    (List.replicate (m + n) needle).flatten.drop (m * needle.length) =
      (List.replicate n needle).flatten := by
  rw [List.replicate_add, List.flatten_append]
  refine List.drop_left' ?_
  simp

/-- In a text made of copies, every copy is found. -/
theorem greedy_copies (hne : needle ≠ []) (m n : ℕ) :
    Greedy (OccursAt needle (List.replicate (m + n) needle).flatten) needle.length
      (m * needle.length) n := by
  induction n generalizing m with
  | zero =>
    refine .done fun i hi h => ?_
    have hle := h.le_length hne
    have hpos := List.length_pos_iff.mpr hne
    have hlen : (List.replicate (m + 0) needle).flatten.length = m * needle.length := by simp
    omega
  | succ n ih =>
    refine .take le_rfl ?_ (fun j hj _ => hj) ?_
    · rw [OccursAt, drop_copies, List.replicate_succ, List.flatten_cons]
      exact List.prefix_append ..
    · have hnext := ih (m + 1)
      rwa [Nat.add_right_comm, Nat.add_assoc, Nat.add_mul, Nat.one_mul] at hnext

end Occurrences
