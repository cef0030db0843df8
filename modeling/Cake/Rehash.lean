import Cake.Ltable
import Mathlib.Order.Bounds.Basic

/-! The rehash of a Lua table.

    The keys in use, with the new one, are counted by slices between powers of two. From the counts follow
    the size of the array part, the largest that is more than half full, and the number of nodes for the
    other keys. When all is inserted again nothing is lost, and no second rehash comes of it.

        slice    1 | 2 | 3 4 | 5 … 8 | …        1, 2, 3, 5 in use: array part of 4, one node -/

namespace Ltable

open Scatter (Hash)

variable {κ α : Type*} {K : Keys κ} {t t' : Table κ α} {k c : κ} {v : Option α}

/-! ### Counting -/

/-- The keys of an array part that large. -/
def isCounted (i : ℕ) : Bool := decide (i ≤ 2 ^ maxBits)

/-- The keys in slice `j`, from behind 2 ^ (j - 1) to 2 ^ j. -/
def atSlice (j i : ℕ) : Bool := decide (i ≤ 2 ^ maxBits ∧ ceillog2 i = j)

/-- The element of the array part counted from 1 is not nil. -/
def isLive (array : List (Option α)) (i : ℕ) : Bool := (array[i - 1]?).join.isSome

/-- The entries of both parts, in the order of a traversal. -/
def Table.arrayEntries (K : Keys κ) (t : Table κ α) : List (κ × α) :=
  (List.range t.array.length).filterMap (t.arraySlot K)

def Table.nodeEntries (t : Table κ α) : List (κ × α) := (List.range t.hash.size).filterMap t.nodeSlot

def Table.entries (K : Keys κ) (t : Table κ α) : List (κ × α) := t.arrayEntries K ++ t.nodeEntries

/-- The positive integers among the keys. -/
def indices (K : Keys κ) (l : List (κ × α)) : List ℕ := l.filterMap fun e => K.arrayindex e.1

theorem countint_adds (K : Keys κ) (k : κ) (nums : ℕ → ℕ) :
    (countint K k nums).1 = (K.arrayindex k).toList.countP isCounted ∧
      ∀ j, (countint K k nums).2 j = nums j + (K.arrayindex k).toList.countP (atSlice j) := by
  rw [countint]
  cases K.arrayindex k with
  | none => simp
  | some i =>
    by_cases hi : i ≤ 2 ^ maxBits
    · simp only [Option.toList_some, List.countP_singleton, isCounted, atSlice, hi, decide_true,
        if_true, true_and]
      intro j
      by_cases hj : ceillog2 i = j
      · simp [hj]
      · simp [hj, Function.update_of_ne (Ne.symm hj)]
    · simp [isCounted, atSlice, hi]

theorem numusehash_adds (K : Keys κ) (t : Table κ α) (n : ℕ) (nums : ℕ → ℕ) :
    let l := (List.range n).filterMap t.nodeSlot
    (numusehash K t n nums).1 = l.length ∧
      (numusehash K t n nums).2.1 = (indices K l).countP isCounted ∧
        ∀ j, (numusehash K t n nums).2.2 j = nums j + (indices K l).countP (atSlice j) := by
  induction n generalizing nums with
  | zero => simp [numusehash, indices]
  | succ p ih =>
    have hslot : (List.range (p + 1)).filterMap t.nodeSlot =
        (List.range p).filterMap t.nodeSlot ++ (t.nodeSlot p).toList := by
      rw [List.range_succ, List.filterMap_append]
      cases h : t.nodeSlot p <;> simp [h]
    simp only [hslot]
    rw [numusehash]
    cases hnode : t.nodeSlot p with
    | some e =>
      obtain ⟨k, v⟩ := e
      obtain ⟨hcount, hslices⟩ := countint_adds K k nums
      obtain ⟨hlen, hc, hs⟩ := ih (countint K k nums).2
      have hindices : ∀ l : List (κ × α),
          indices K (l ++ [(k, v)]) = indices K l ++ (K.arrayindex k).toList := by
        intro l
        rw [indices, List.filterMap_append, ← indices]
        cases h : K.arrayindex k <;> simp [h]
      simp only [Option.toList_some, hindices, List.length_append, List.length_singleton, List.countP_append]
      refine ⟨congrArg (· + 1) hlen, by rw [hcount, hc, Nat.add_comm], fun j => ?_⟩
      rw [hs, hslices, Nat.add_assoc, Nat.add_comm (List.countP _ _)]
    | none => simpa using ih nums

theorem ceillog2_slice {lg i : ℕ} (hlow : 2 ^ lg / 2 < i) (hhigh : i ≤ 2 ^ lg) : ceillog2 i = lg := by
  have hle : Nat.clog 2 i ≤ lg := (Nat.clog_le_iff_le_pow Nat.one_lt_two).mpr hhigh
  refine Nat.le_antisymm hle ?_
  cases lg with
  | zero => exact Nat.zero_le _
  | succ lg =>
    rw [pow_succ, Nat.mul_div_cancel _ Nat.two_pos] at hlow
    exact (Nat.lt_clog_iff_pow_lt Nat.one_lt_two).mpr hlow

theorem numusearray_adds {array : List (Option α)} (harray : array.length ≤ 2 ^ maxBits) (slices lg i : ℕ)
    (nums : ℕ → ℕ) (hlg : slices + lg = maxBits + 1)
    (hi : i = 2 ^ lg / 2 + 1 ∨ array.length < i ∧ array.length < 2 ^ lg) :
    let l := (List.range' i (array.length + 1 - i)).filter (isLive array)
    (numusearray array slices lg i nums).1 = l.length ∧
      ∀ j, (numusearray array slices lg i nums).2 j = nums j + l.countP (atSlice j) := by
  induction slices generalizing lg i nums with
  | zero =>
    have hend : array.length + 1 - i = 0 := by
      rw [Nat.zero_add] at hlg
      subst hlg
      rcases hi with rfl | ⟨hlt, -⟩
      · rw [pow_succ, Nat.mul_div_cancel _ Nat.two_pos]
        omega
      · omega
    simp [numusearray, hend]
  | succ slices ih =>
    rw [numusearray]
    by_cases hbreak : array.length < 2 ^ lg ∧ array.length < i
    · have hend : array.length + 1 - i = 0 := by omega
      simp [if_pos hbreak, hend]
    · -- the slice, and what is behind it
      rw [if_neg hbreak]
      obtain rfl : i = 2 ^ lg / 2 + 1 := hi.resolve_right fun h => hbreak ⟨h.2, h.1⟩
      obtain ⟨lim, hlim⟩ : ∃ lim, lim = min (2 ^ lg) array.length := ⟨_, rfl⟩
      have hpow : 2 ^ (lg + 1) / 2 = 2 ^ lg := by rw [pow_succ, Nat.mul_div_cancel _ Nat.two_pos]
      have hpos := Nat.one_le_two_pow (n := lg)
      have hstart : 2 ^ lg / 2 + 1 ≤ lim := by omega
      obtain ⟨hlen, hs⟩ := ih (lg + 1) (lim + 1)
        (Function.update nums lg (nums lg + lives array (2 ^ lg / 2 + 1) lim))
        (by omega) (by
          rw [hpow]
          rw [pow_succ]
          omega)
      have hsplit : List.range' (2 ^ lg / 2 + 1) (array.length + 1 - (2 ^ lg / 2 + 1)) =
          List.range' (2 ^ lg / 2 + 1) (lim + 1 - (2 ^ lg / 2 + 1)) ++
            List.range' (lim + 1) (array.length + 1 - (lim + 1)) := by
        have happend := List.range'_append_1 (s := 2 ^ lg / 2 + 1) (m := lim + 1 - (2 ^ lg / 2 + 1))
          (n := array.length + 1 - (lim + 1))
        rw [Nat.add_sub_cancel' (by omega)] at happend
        rw [happend]
        congr 1
        omega
      have hslice : ∀ j, ((List.range' (2 ^ lg / 2 + 1) (lim + 1 - (2 ^ lg / 2 + 1))).filter
          (isLive array)).countP (atSlice j) = if j = lg then lives array (2 ^ lg / 2 + 1) lim else 0 := by
        intro j
        have hmem : ∀ x ∈ (List.range' (2 ^ lg / 2 + 1) (lim + 1 - (2 ^ lg / 2 + 1))).filter (isLive array),
            x ≤ 2 ^ maxBits ∧ ceillog2 x = lg := by
          intro x hx
          have hrange := List.mem_range'_1.mp (List.mem_filter.mp hx).1
          exact ⟨by omega, ceillog2_slice (by omega) (by omega)⟩
        split
        · rename_i hj
          rw [List.countP_eq_length.mpr fun x hx => by simp [atSlice, hmem x hx, hj], lives,
            List.countP_eq_length_filter]
          rfl
        · rename_i hj
          exact List.countP_eq_zero.mpr fun x hx => by simp [atSlice, hmem x hx, Ne.symm hj]
      simp only [← hlim, hsplit, List.filter_append, List.length_append, List.countP_append, hslice]
      refine ⟨by rw [hlen, lives, List.countP_eq_length_filter]; rfl, fun j => ?_⟩
      rw [hs]
      by_cases hj : j = lg
      · subst hj
        rw [Function.update_self, if_pos rfl, Nat.add_assoc]
      · rw [Function.update_of_ne hj, if_neg hj, Nat.zero_add]

/-- What the counters say of a list of positive integers. -/
def Counts (I : List ℕ) (nums : ℕ → ℕ) : Prop := ∀ j, nums j = I.countP (atSlice j)

/-- The slices below `i`, and slice `i`. -/
theorem countP_slices (I : List ℕ) (i : ℕ) :
    I.countP (fun x => decide (x ≤ 2 ^ maxBits ∧ ceillog2 x < i)) + I.countP (atSlice i) =
      I.countP fun x => decide (x ≤ 2 ^ maxBits ∧ ceillog2 x < i + 1) := by
  induction I with
  | nil => rfl
  | cons x I ih =>
    simp only [List.countP_cons, atSlice, decide_eq_true_eq] at ih ⊢
    split_ifs <;> omega

/-- A slice with something in it is one of the array part. -/
theorem two_pow_le {I : List ℕ} {i : ℕ} (h : 0 < I.countP (atSlice i)) : 2 ^ i ≤ 2 ^ maxBits := by
  obtain ⟨x, -, hx⟩ := List.countP_pos_iff.mp h
  obtain ⟨hle, rfl⟩ := of_decide_eq_true hx
  exact Nat.pow_le_pow_right Nat.two_pos ((Nat.clog_le_iff_le_pow Nat.one_lt_two).mpr hle)

theorem countP_two_pow {I : List ℕ} {i : ℕ} (h : 2 ^ i ≤ 2 ^ maxBits) :
    I.countP (fun x => decide (x ≤ 2 ^ maxBits ∧ ceillog2 x < i + 1)) =
      I.countP fun x => decide (x ≤ 2 ^ i) := by
  refine List.countP_congr fun x _ => ?_
  rw [decide_eq_true_eq, decide_eq_true_eq, Nat.lt_succ_iff, ceillog2, Nat.clog_le_iff_le_pow Nat.one_lt_two]
  exact ⟨And.right, fun hx => ⟨hx.trans h, hx⟩⟩

/-- One round of `computesizes`. -/
theorem computesizes_round {I : List ℕ} {nums : ℕ → ℕ} (h : Counts I nums) {i a na n : ℕ}
    (ha : a = I.countP fun x => decide (x ≤ 2 ^ maxBits ∧ ceillog2 x < i)) (hn : n ≤ 2 ^ maxBits)
    (hna : na = I.countP fun x => decide (x ≤ n)) :
    let grow := 0 < nums i ∧ 2 ^ i / 2 < a + nums i
    let n' := if grow then 2 ^ i else n
    a + nums i = I.countP (fun x => decide (x ≤ 2 ^ maxBits ∧ ceillog2 x < i + 1)) ∧ n' ≤ 2 ^ maxBits ∧
      (if grow then a + nums i else na) = I.countP fun x => decide (x ≤ n') := by
  intro grow n'
  have ha' : a + nums i = I.countP (fun x => decide (x ≤ 2 ^ maxBits ∧ ceillog2 x < i + 1)) := by
    rw [ha, h i, countP_slices]
  refine ⟨ha', ?_⟩
  by_cases hgrow : grow
  · have hle := two_pow_le (h i ▸ hgrow.1)
    have hn' : n' = 2 ^ i := if_pos hgrow
    rw [if_pos hgrow, hn', ha', countP_two_pow hle]
    exact ⟨hle, rfl⟩
  · have hn' : n' = n := if_neg hgrow
    rw [if_neg hgrow, hn']
    exact ⟨hn, hna⟩

/-- `computesizes` finds a size, and how many of the integers are up to there. -/
theorem computesizes_count {I : List ℕ} {nums : ℕ → ℕ} (h : Counts I nums) (narray i a na n : ℕ)
    (ha : a = I.countP fun x => decide (x ≤ 2 ^ maxBits ∧ ceillog2 x < i)) (hn : n ≤ 2 ^ maxBits)
    (hna : na = I.countP fun x => decide (x ≤ n)) :
    (computesizes nums narray i a na n).1 ≤ 2 ^ maxBits ∧ (computesizes nums narray i a na n).2 =
      I.countP fun x => decide (x ≤ (computesizes nums narray i a na n).1) := by
  induction i, a, na, n using computesizes.induct nums narray with
  | case1 i a na n hlt a' heq =>
    obtain ⟨-, hn', hna'⟩ := computesizes_round h ha hn hna
    rw [computesizes, if_pos hlt]
    simp only
    rw [if_pos heq]
    exact ⟨hn', hna'⟩
  | case2 i a na n hlt a' grow n' na' hne ih =>
    obtain ⟨ha', hn', hna'⟩ := computesizes_round h ha hn hna
    rw [computesizes, if_pos hlt]
    simp only
    rw [if_neg hne]
    exact ih ha' hn' hna'
  | case3 i a na n hend =>
    rw [computesizes, if_neg hend]
    exact ⟨hn, hna⟩

/-- The sizes an array part may have: none, or a power of two with more than half of it in use. -/
def Suits (I : List ℕ) (n : ℕ) : Prop :=
  n = 0 ∨ (∃ i ≤ maxBits, n = 2 ^ i) ∧ n / 2 < I.countP fun x => decide (x ≤ n)

/-- There are no more positive integers up to a number than the number says. -/
theorem countP_le {I : List ℕ} (hnodup : I.Nodup) (hpos : ∀ x ∈ I, 0 < x) (m : ℕ) :
    I.countP (fun x => decide (x ≤ m)) ≤ m := by
  rw [List.countP_eq_length_filter]
  have hsub : I.filter (fun x => decide (x ≤ m)) ⊆ List.range' 1 m := by
    intro x hx
    obtain ⟨hmem, hle⟩ := List.mem_filter.mp hx
    have := hpos x hmem
    have := of_decide_eq_true hle
    exact List.mem_range'_1.mpr ⟨by omega, by omega⟩
  simpa using ((hnodup.filter _).subperm hsub).length_le

/-- All integers of the slices up to `i` are up to 2 ^ i. -/
theorem countP_below {I : List ℕ} (hnodup : I.Nodup) (hpos : ∀ x ∈ I, 0 < x) (i : ℕ) :
    I.countP (fun x => decide (x ≤ 2 ^ maxBits ∧ ceillog2 x < i + 1)) ≤ 2 ^ i := by
  refine le_trans (List.countP_mono_left fun x _ hx => ?_) (countP_le hnodup hpos (2 ^ i))
  have hlt := (of_decide_eq_true hx).2
  exact decide_eq_true ((Nat.clog_le_iff_le_pow Nat.one_lt_two).mp (Nat.lt_succ_iff.mp hlt))

theorem Suits.two_pow {I : List ℕ} {i : ℕ} (h : Suits I (2 ^ i)) :
    i ≤ maxBits ∧ 2 ^ i / 2 < I.countP fun x => decide (x ≤ 2 ^ i) := by
  obtain hzero | ⟨⟨j, hj, heq⟩, hhalf⟩ := h
  · exact absurd hzero (Nat.two_pow_pos i).ne'
  · exact ⟨Nat.pow_right_injective le_rfl heq ▸ hj, hhalf⟩

/-- A power of two that suits is taken when its slice comes. -/
theorem suits_grow {I : List ℕ} {nums : ℕ → ℕ} (h : Counts I nums) (hnodup : I.Nodup)
    (hpos : ∀ x ∈ I, 0 < x) {i a : ℕ}
    (ha : a = I.countP fun x => decide (x ≤ 2 ^ maxBits ∧ ceillog2 x < i)) (hsuits : Suits I (2 ^ i)) :
    0 < nums i ∧ 2 ^ i / 2 < a + nums i := by
  obtain ⟨hi, hhalf⟩ := hsuits.two_pow
  rw [← countP_two_pow (Nat.pow_le_pow_right Nat.two_pos hi), ← countP_slices, ← ha, ← h i] at hhalf
  refine ⟨Nat.pos_of_ne_zero fun hzero => ?_, hhalf⟩
  -- without this slice the count is of those up to half of the size
  cases i with
  | zero =>
    rw [hzero, ha] at hhalf
    simp at hhalf
  | succ i =>
    have hle := countP_below hnodup hpos i
    rw [← ha] at hle
    rw [hzero, pow_succ, Nat.mul_div_cancel _ Nat.two_pos] at hhalf
    omega

/-- `computesizes` finds the largest size that suits. -/
theorem computesizes_greatest {I : List ℕ} {nums : ℕ → ℕ} (h : Counts I nums) (hnodup : I.Nodup)
    (hpos : ∀ x ∈ I, 0 < x) {narray : ℕ} (hnarray : narray = I.countP isCounted) (i a na n : ℕ)
    (ha : a = I.countP fun x => decide (x ≤ 2 ^ maxBits ∧ ceillog2 x < i))
    (hn : Suits I n) (hmax : ∀ j < i, Suits I (2 ^ j) → 2 ^ j ≤ n) :
    IsGreatest {n | Suits I n} (computesizes nums narray i a na n).1 := by
  have hall : ∀ j ≤ maxBits, I.countP (fun x => decide (x ≤ 2 ^ j)) ≤ narray := fun j hj => by
    rw [hnarray]
    refine List.countP_mono_left fun x _ hx => ?_
    exact decide_eq_true ((of_decide_eq_true hx).trans (Nat.pow_le_pow_right Nat.two_pos hj))
  -- the round: the size so far suits, and is the largest up to this slice
  have hround : ∀ {i a n : ℕ}, a = I.countP (fun x => decide (x ≤ 2 ^ maxBits ∧ ceillog2 x < i)) →
      Suits I n → (∀ j < i, Suits I (2 ^ j) → 2 ^ j ≤ n) →
        let n' := if 0 < nums i ∧ 2 ^ i / 2 < a + nums i then 2 ^ i else n
        a + nums i = I.countP (fun x => decide (x ≤ 2 ^ maxBits ∧ ceillog2 x < i + 1)) ∧ Suits I n' ∧
          ∀ j < i + 1, Suits I (2 ^ j) → 2 ^ j ≤ n' := by
    intro i a n ha hn hmax n'
    have ha' : a + nums i = I.countP (fun x => decide (x ≤ 2 ^ maxBits ∧ ceillog2 x < i + 1)) := by
      rw [ha, h i, countP_slices]
    refine ⟨ha', ?_⟩
    by_cases hgrow : 0 < nums i ∧ 2 ^ i / 2 < a + nums i
    · have hn' : n' = 2 ^ i := if_pos hgrow
      have hle := two_pow_le (h i ▸ hgrow.1)
      rw [hn']
      refine ⟨.inr ⟨⟨i, (Nat.pow_le_pow_iff_right Nat.one_lt_two).mp hle, rfl⟩, ?_⟩, fun j hj _ => ?_⟩
      · rw [← countP_two_pow hle, ← ha']
        exact hgrow.2
      · exact Nat.pow_le_pow_right Nat.two_pos (Nat.lt_succ_iff.mp hj)
    · have hn' : n' = n := if_neg hgrow
      rw [hn']
      refine ⟨hn, fun j hj hsuits => ?_⟩
      rcases Nat.lt_succ_iff_lt_or_eq.mp hj with hlt | rfl
      · exact hmax j hlt hsuits
      · exact absurd (suits_grow h hnodup hpos ha hsuits) hgrow
  induction i, a, na, n using computesizes.induct nums narray with
  | case1 i a na n hlt a' heq =>
    obtain ⟨ha', hn', hmax'⟩ := hround ha hn hmax
    rw [computesizes, if_pos hlt]
    simp only
    rw [if_pos heq]
    refine ⟨hn', fun m hm => ?_⟩
    obtain rfl | ⟨⟨j, hj, rfl⟩, hhalf⟩ := hm
    · exact Nat.zero_le _
    · rcases Nat.lt_or_ge j (i + 1) with hjlt | hjge
      · exact hmax' j hjlt (.inr ⟨⟨j, hj, rfl⟩, hhalf⟩)
      · -- all are counted, and they are no more than half of a larger size
        have hle := countP_below hnodup hpos i
        rw [← ha'] at hle
        have hpow := Nat.pow_le_pow_right Nat.two_pos hjge
        rw [pow_succ] at hpow
        have := hall j hj
        have heq' : a + nums i = narray := heq
        omega
  | case2 i a na n hlt a' grow n' na' hne ih =>
    obtain ⟨ha', hn', hmax'⟩ := hround ha hn hmax
    rw [computesizes, if_pos hlt]
    simp only
    rw [if_neg hne]
    exact ih ha' hn' hmax'
  | case3 i a na n hend =>
    rw [computesizes, if_neg hend]
    refine ⟨hn, fun m hm => ?_⟩
    obtain rfl | ⟨⟨j, hj, rfl⟩, hhalf⟩ := hm
    · exact Nat.zero_le _
    · rcases Nat.lt_or_ge j i with hjlt | hjge
      · exact hmax j hjlt (.inr ⟨⟨j, hj, rfl⟩, hhalf⟩)
      · have := hall j hj
        have hpow := Nat.div_le_div_right (c := 2) (Nat.pow_le_pow_right Nat.two_pos hjge)
        omega

/-! ### Entries -/

theorem nodeSlot_iff {p : ℕ} {a : α} : t.nodeSlot p = some (k, a) ↔
    (t.hash.nodes p).key = some k ∧ (t.hash.nodes p).val = some a := by
  rw [Table.nodeSlot]
  split
  · rename_i hnode
    rw [hnode]
    simp
  · rename_i hnode
    refine iff_of_false (by simp) fun ⟨hkey, hval⟩ => ?_
    exact hnode k a (t.hash.nodes p).next (by rw [← hkey, ← hval])

theorem mem_arrayEntries {a : α} : (k, a) ∈ t.arrayEntries K ↔
    ∃ i < t.array.length, k = K.num (i + 1) ∧ (t.array[i]?).join = some a := by
  simp only [Table.arrayEntries, Table.arraySlot, List.mem_filterMap, List.mem_range,
    Option.map_eq_some_iff, Prod.mk.injEq]
  constructor
  · rintro ⟨i, hi, b, hb, rfl, rfl⟩
    exact ⟨i, hi, rfl, hb⟩
  · rintro ⟨i, hi, rfl, ha⟩
    exact ⟨i, hi, a, ha, rfl, rfl⟩

theorem mem_nodeEntries (ht : t.Proper K) {a : α} :
    (k, a) ∈ t.nodeEntries ↔ Scatter.Holds t.hash.nodes k a := by
  simp only [Table.nodeEntries, List.mem_filterMap, List.mem_range, nodeSlot_iff]
  constructor
  · rintro ⟨p, -, hp⟩
    exact ⟨p, hp⟩
  · rintro ⟨p, hkey, hval⟩
    exact ⟨p, ht.hash.inv.bounded p (by simp [hkey]), hkey, hval⟩

theorem inArray_num (ht : t.Proper K) {i : ℕ} (hi : i < t.array.length) :
    K.arrayindex (K.num (i + 1)) = some (i + 1) :=
  K.arrayindex_num (i + 1) (Nat.succ_pos i) (hi.trans_le ht.array)

theorem nodup_entries (ht : t.Proper K) : ((t.entries K).map Prod.fst).Nodup := by
  rw [Table.entries, List.map_append, List.nodup_append, Table.arrayEntries, Table.nodeEntries,
    List.map_filterMap, List.map_filterMap]
  refine ⟨?_, ?_, ?_⟩
  · rw [List.filterMap_congr (g := fun i => if i < t.array.length then
      (t.arraySlot K i).map Prod.fst else none) fun i hi => (if_pos (List.mem_range.mp hi)).symm]
    refine List.nodup_range.filterMap fun i j c hi hj => ?_
    simp only [Option.mem_def, Option.ite_none_right_eq_some, Table.arraySlot, Option.map_map,
      Option.map_eq_some_iff, Function.comp_apply] at hi hj
    obtain ⟨hi, a, -, rfl⟩ := hi
    obtain ⟨hj, b, -, heq⟩ := hj
    have hindex := inArray_num ht hi
    rw [← heq, inArray_num ht hj, Option.some.injEq] at hindex
    omega
  · refine List.nodup_range.filterMap fun p q c hp hq => ?_
    simp only [Option.mem_def, Option.map_eq_some_iff] at hp hq
    obtain ⟨⟨k, a⟩, hp, rfl⟩ := hp
    obtain ⟨⟨k', b⟩, hq, heq⟩ := hq
    obtain rfl : k' = k := heq
    exact ht.hash.inv.distinct p q _ (nodeSlot_iff.mp hp).1 (nodeSlot_iff.mp hq).1
  · intro c hc d hd heq
    simp only [List.mem_filterMap, Table.arraySlot, List.mem_range, Option.map_eq_some_iff] at hc hd
    obtain ⟨i, hi, -, ⟨a, -, rfl⟩, rfl⟩ := hc
    obtain ⟨p, -, ⟨k, b⟩, hp, rfl⟩ := hd
    obtain rfl : K.num (i + 1) = k := heq
    have hlt := ht.outside p _ (i + 1) (nodeSlot_iff.mp hp).1 (inArray_num ht hi)
    omega

section Entries

variable [DecidableEq κ]

/-- The entries are the keys that have a value. -/
theorem mem_entries (ht : t.Proper K) {a : α} : (k, a) ∈ t.entries K ↔ t.get K k = some a := by
  rw [Table.entries, List.mem_append, mem_arrayEntries, mem_nodeEntries ht]
  by_cases hin : t.InArray K k
  · obtain ⟨i, hi, hle⟩ := hin
    obtain ⟨hpos, hk⟩ := K.of_arrayindex k i hi
    have hnode : ¬ Scatter.Holds t.hash.nodes k a := fun ⟨p, hp, _⟩ => by
      have := ht.outside p k i hp hi
      omega
    rw [get_array hi hle, or_iff_left hnode]
    constructor
    · rintro ⟨j, hj, rfl, ha⟩
      rw [inArray_num ht hj, Option.some.injEq] at hi
      rwa [← hi, Nat.add_sub_cancel]
    · exact fun ha => ⟨i - 1, by omega, by rw [Nat.sub_add_cancel hpos]; exact hk, ha⟩
  · rw [get_holds ht hin, or_iff_right]
    rintro ⟨i, hi, rfl, -⟩
    exact hin ⟨i + 1, inArray_num ht hi, hi⟩

/-! ### Rehash -/

/-- The key does not go to an array part of size `n`. -/
def beyond (K : Keys κ) (n : ℕ) (k : κ) : Bool :=
  match K.arrayindex k with
  | some i => decide (n < i)
  | none => true

omit [DecidableEq κ] in
theorem beyond_eq_false {n : ℕ} : beyond K n k = false ↔ ∃ i, K.arrayindex k = some i ∧ i ≤ n := by
  rw [beyond]
  split
  · rename_i i hi
    simp [hi]
  · rename_i hnone
    simp [hnone]

omit [DecidableEq κ] in
/-- Those that go to the array part, and the others. -/
theorem length_beyond (K : Keys κ) (n : ℕ) (A : List κ) :
    (A.filter (beyond K n)).length + (A.filterMap K.arrayindex).countP (fun x => decide (x ≤ n)) =
      A.length := by
  induction A with
  | nil => rfl
  | cons k A ih =>
    rw [List.filter_cons, List.length_cons]
    cases hk : K.arrayindex k with
    | none =>
      rw [List.filterMap_cons_none hk, if_pos (by simp [beyond, hk]), List.length_cons]
      omega
    | some i =>
      rw [List.filterMap_cons_some hk, List.countP_cons]
      by_cases hi : i ≤ n
      · simp only [beyond, hk, Nat.not_lt.mpr hi, hi, decide_false, decide_true, Bool.false_eq_true, if_false,
          if_true]
        omega
      · simp only [beyond, hk, Nat.not_le.mp hi, hi, decide_false, decide_true, Bool.false_eq_true, if_false,
          if_true, List.length_cons]
        omega

omit [DecidableEq κ] in
theorem unused_proper {size : ℕ} (hsize : 0 < size) (dummy : Bool) :
    Hash.Proper (K.mainposition size)
      (⟨fun _ => Scatter.unused, size, if dummy then 0 else size, dummy⟩ : Hash κ α) where
  inv := by
    refine ⟨fun p hp => absurd rfl hp, fun _ _ => rfl, nofun, nofun, ⟨fun _ => 0, nofun⟩, nofun, nofun, nofun⟩
  main k := K.mainposition_lt size k hsize
  last := by cases dummy <;> simp
  free p hle hlt hd := by
    obtain rfl : dummy = false := hd
    exact absurd hlt (Nat.not_lt.mpr hle)
  dummy hd := by
    obtain rfl : dummy = true := hd
    exact ⟨rfl, fun _ => rfl⟩

omit [DecidableEq κ] in
/-- `setnodevector` makes room for as many keys. -/
theorem setnodevector_cases (K : Keys κ) (H : List κ) :
    (setnodevector H.length : Result (Hash κ α)) = .overflow ∧ 2 ^ maxBits < H.length ∨
      ∃ hash : Hash κ α, setnodevector H.length = .ok hash ∧ hash.Proper (K.mainposition hash.size) ∧
        (∀ p, hash.nodes p = Scatter.unused) ∧ hash.size = 2 ^ ceillog2 H.length ∧
        (H ≠ [] → hash.dummy = false ∧ H.length ≤ hash.size) := by
  rw [setnodevector]
  by_cases hzero : H.length = 0
  · refine .inr ⟨_, if_pos hzero, unused_proper Nat.one_pos true, fun _ => rfl, ?_, fun hne => ?_⟩
    · rw [hzero]
      rfl
    · exact absurd (List.length_eq_zero_iff.mp hzero) hne
  · rw [if_neg hzero]
    by_cases hlarge : maxBits < ceillog2 H.length
    · exact .inl ⟨if_pos hlarge, (Nat.lt_clog_iff_pow_lt Nat.one_lt_two).mp hlarge⟩
    · refine .inr ⟨_, if_neg hlarge, unused_proper (Nat.two_pow_pos _) false, fun _ => rfl, rfl,
        fun _ => ⟨rfl, ?_⟩⟩
      exact Nat.le_pow_clog Nat.one_lt_two H.length

/-- The array part that another size leaves. -/
theorem resized_array (array : List (Option α)) {n i : ℕ} (hi : i < n) :
    (((array ++ List.replicate (n - array.length) none).take n)[i]?).join = (array[i]?).join := by
  rw [List.getElem?_take_of_lt hi, List.getElem?_append]
  split
  · rfl
  · rename_i hlen
    rw [List.getElem?_eq_none (Nat.not_lt.mp hlen), List.getElem?_replicate]
    split <;> rfl

/-- The entries that `resize` inserts again. -/
def Table.oldEntries (K : Keys κ) (t : Table κ α) (n : ℕ) : List (κ × α) :=
  (List.range' n (t.array.length - n)).filterMap (t.arraySlot K) ++
    (List.range t.hash.size).reverse.filterMap t.nodeSlot

omit [DecidableEq κ] in
theorem range'_sublist_range (n len : ℕ) : (List.range' n (len - n)).Sublist (List.range len) := by
  rcases Nat.le_total n len with hle | hle
  · have happend := List.range'_append_1 (s := 0) (m := n) (n := len - n)
    rw [Nat.zero_add, Nat.add_sub_cancel' hle] at happend
    rw [List.range_eq_range', ← happend]
    exact List.sublist_append_right _ _
  · rw [Nat.sub_eq_zero_of_le hle]
    exact List.nil_sublist _

omit [DecidableEq κ] in
theorem oldEntries_perm (K : Keys κ) (t : Table κ α) (n : ℕ) :
    ∃ l, (t.oldEntries K n).Perm l ∧ l.Sublist (t.entries K) := by
  refine ⟨_, ?_, ((range'_sublist_range n t.array.length).filterMap _).append_right _⟩
  rw [Table.oldEntries, List.filterMap_reverse]
  exact (List.reverse_perm _).append_left _

theorem mem_oldEntries (ht : t.Proper K) {n : ℕ} {a : α} (hget : t.get K c = some a)
    (hc : beyond K n c = true ∨ ¬ t.InArray K c) : (c, a) ∈ t.oldEntries K n := by
  rw [Table.oldEntries, List.mem_append, List.filterMap_reverse, List.mem_reverse]
  have hmem := (mem_entries ht).mpr hget
  rw [Table.entries, List.mem_append] at hmem
  refine hmem.imp_left fun harray => ?_
  obtain ⟨i, hi, rfl, ha⟩ := mem_arrayEntries.mp harray
  have hindex := inArray_num ht hi
  have hni : n ≤ i := by
    rcases hc with hc | hc
    · rw [beyond, hindex] at hc
      exact Nat.lt_succ_iff.mp (of_decide_eq_true hc)
    · exact absurd ⟨i + 1, hindex, hi⟩ hc
  refine List.mem_filterMap.mpr ⟨i, List.mem_range'_1.mpr ⟨hni, by omega⟩, ?_⟩
  rw [Table.arraySlot, ha, Option.map_some]

/-- A table of another size has the same entries. -/
theorem resize_ok (ht : t.Proper K) (fuel : ℕ) {n : ℕ} (hn : n ≤ 2 ^ maxBits) {H : List κ}
    (hH : ∀ e ∈ t.entries K, beyond K n e.1 = true → e.1 ∈ H) :
    resize K (set K fuel) t n H.length = .overflow ∧ 2 ^ maxBits < H.length ∨
      ∃ t', resize K (set K fuel) t n H.length = .ok t' ∧ t'.Proper K ∧ Fits t' H ∧ t'.array.length = n ∧
        t'.hash.size = 2 ^ ceillog2 H.length ∧ ∀ c, t'.get K c = t.get K c := by
  rw [resize]
  obtain ⟨hover, hlarge⟩ | ⟨hash, hvector, hproper, hunused, hsize, hfit⟩ := setnodevector_cases (α := α) K H
  · rw [hover]
    exact .inl ⟨rfl, hlarge⟩
  · right
    rw [hvector, Result.bind]
    let t₀ : Table κ α := ⟨(t.array ++ List.replicate (n - t.array.length) none).take n, hash⟩
    have hlength : t₀.array.length = n := by
      rw [List.length_take, List.length_append, List.length_replicate]
      omega
    have hnokey : ∀ p c, (hash.nodes p).key ≠ some c := fun p c => by simp [hunused p]
    have ht₀ : t₀.Proper K := ⟨hproper, hlength ▸ hn, fun p c i hp => absurd hp (hnokey p c)⟩
    have hfits : Fits t₀ H := ⟨hfit, fun p c hp => absurd hp (hnokey p c)⟩
    obtain ⟨l, hperm, hsub⟩ := oldEntries_perm K t n
    have hnodup : ((t.oldEntries K n).map Prod.fst).Nodup :=
      (hperm.map Prod.fst).nodup_iff.mpr ((nodup_entries ht).sublist (hsub.map Prod.fst))
    have hold : ∀ e ∈ t.oldEntries K n, e ∈ t.entries K := fun e he => hsub.subset (hperm.mem_iff.mp he)
    obtain ⟨t', heq, ht', hfits', hlength', hsize', hget, hrest⟩ :=
      reinsert_ok fuel hnodup ht₀ hfits fun e he => by
      cases hbeyond : beyond K n e.1 with
      | true => exact .inr (hH e (hold e he) hbeyond)
      | false =>
        obtain ⟨i, hi, hle⟩ := beyond_eq_false.mp hbeyond
        exact .inl ⟨i, hi, by rwa [hlength]⟩
    refine ⟨t', heq, ht', hfits', hlength'.trans hlength, hsize'.trans hsize, fun c => ?_⟩
    by_cases hc : c ∈ (t.oldEntries K n).map Prod.fst
    · obtain ⟨⟨k, a⟩, hmem, rfl⟩ := List.mem_map.mp hc
      rw [hget _ hmem, (mem_entries ht).mp (hold _ hmem)]
    · rw [hrest c hc]
      have hnot : ∀ a, t.get K c = some a → ¬ (beyond K n c = true ∨ ¬ t.InArray K c) := fun a ha hor =>
        hc (List.mem_map.mpr ⟨(c, a), mem_oldEntries ht ha hor, rfl⟩)
      cases hbeyond : beyond K n c with
      | true =>
        -- neither in the new table so far nor in the old one
        have hin : ¬ t₀.InArray K c := fun ⟨i, hi, hle⟩ => by
          rw [beyond_eq_false.mpr ⟨i, hi, hlength ▸ hle⟩] at hbeyond
          cases hbeyond
        ext a
        refine iff_of_false (fun ha => ?_) fun ha => hnot a ha (.inl hbeyond)
        obtain ⟨p, hp, -⟩ := (get_holds ht₀ hin).mp ha
        exact hnokey p c hp
      | false =>
        obtain ⟨i, hi, hle⟩ := beyond_eq_false.mp hbeyond
        have hpos := (K.of_arrayindex c i hi).1
        rw [get_array hi (hlength.symm ▸ hle), resized_array t.array (by omega : i - 1 < n)]
        by_cases hin : i ≤ t.array.length
        · rw [get_array hi hin]
        · rw [List.getElem?_eq_none (by omega)]
          refine (Option.eq_none_iff_forall_ne_some.mpr fun a ha => hnot a ha (.inr ?_)).symm
          rintro ⟨j, hj, hle⟩
          rw [hi, Option.some.injEq] at hj
          omega

omit [DecidableEq κ] in
/-- The keys of the array part are the indices of what is not nil. -/
theorem indices_array (ht : t.Proper K) (l : List ℕ) (hl : ∀ i ∈ l, i < t.array.length) :
    indices K (l.filterMap (t.arraySlot K)) = (l.map (· + 1)).filter (isLive t.array) ∧
      (indices K (l.filterMap (t.arraySlot K))).length = (l.filterMap (t.arraySlot K)).length := by
  induction l with
  | nil => exact ⟨rfl, rfl⟩
  | cons i l ih =>
    obtain ⟨hi, hl⟩ := List.forall_mem_cons.mp hl
    obtain ⟨hindices, hlength⟩ := ih hl
    rw [List.map_cons]
    cases ha : (t.array[i]?).join with
    | none =>
      have hslot : t.arraySlot K i = none := by rw [Table.arraySlot, ha, Option.map_none]
      rw [List.filterMap_cons_none hslot, List.filter_cons_of_neg (by simp [isLive, ha])]
      exact ⟨hindices, hlength⟩
    | some a =>
      have hslot : t.arraySlot K i = some (K.num (i + 1), a) := by rw [Table.arraySlot, ha, Option.map_some]
      have hcons : indices K ((K.num (i + 1), a) :: l.filterMap (t.arraySlot K)) =
          (i + 1) :: indices K (l.filterMap (t.arraySlot K)) := List.filterMap_cons_some (inArray_num ht hi)
      rw [List.filterMap_cons_some hslot, List.filter_cons_of_pos (by simp [isLive, ha]), hcons,
        List.length_cons, List.length_cons, hlength, hindices]
      exact ⟨rfl, rfl⟩

/-- The keys in use and a new one. -/
def Table.keysWith (K : Keys κ) (t : Table κ α) (k : κ) : List κ := (t.entries K).map Prod.fst ++ [k]

omit [DecidableEq κ] in
/-- The positive integers among them are all different. -/
theorem nodup_keysWith (ht : t.Proper K) (hk : k ∉ (t.entries K).map Prod.fst) :
    ((t.keysWith K k).filterMap K.arrayindex).Nodup ∧
      ∀ x ∈ (t.keysWith K k).filterMap K.arrayindex, 0 < x := by
  constructor
  · refine List.Nodup.filterMap (fun c d i hc hd => ?_) ?_
    · rw [(K.of_arrayindex c i hc).2, (K.of_arrayindex d i hd).2]
    · rw [Table.keysWith, List.nodup_append]
      refine ⟨nodup_entries ht, List.nodup_singleton k, fun c hc d hd heq => hk ?_⟩
      rwa [← List.mem_singleton.mp hd, ← heq]
  · intro x hx
    obtain ⟨c, -, hc⟩ := List.mem_filterMap.mp hx
    exact (K.of_arrayindex c x hc).1

omit [DecidableEq κ] in
/-- The sizes that `rehash` computes: the largest array part that suits, and a node for each key that does
    not go there. -/
theorem rehash_sizes (ht : t.Proper K) (k : κ)
    (set : Table κ α → κ → Option α → Result (Table κ α)) :
    ∃ n ≤ 2 ^ maxBits,
      rehash K set t k = resize K set t n ((t.keysWith K k).filter (beyond K n)).length ∧
        (k ∉ (t.entries K).map Prod.fst →
          IsGreatest {n | Suits ((t.keysWith K k).filterMap K.arrayindex) n} n) := by
  have harray := numusearray_adds ht.array (maxBits + 1) 0 1 (fun _ => 0) rfl (.inl rfl)
  have hrange : List.range' 1 (t.array.length + 1 - 1) = (List.range t.array.length).map (· + 1) := by
    rw [Nat.add_sub_cancel, List.range'_eq_map_range]
    exact List.map_congr_left fun i _ => Nat.add_comm 1 i
  obtain ⟨hindices, hlength⟩ := indices_array ht (List.range t.array.length) fun i hi => List.mem_range.mp hi
  simp only [hrange, ← hindices] at harray
  rw [rehash]
  generalize numusearray t.array (maxBits + 1) 0 1 (fun _ => 0) = inarray at harray ⊢
  have hnodes := numusehash_adds K t t.hash.size inarray.2
  generalize numusehash K t t.hash.size inarray.2 = inhash at hnodes ⊢
  have hextra := countint_adds K k inhash.2.2
  generalize countint K k inhash.2.2 = extra at hextra ⊢
  have hints : (t.keysWith K k).filterMap K.arrayindex =
      indices K (t.arrayEntries K) ++ indices K t.nodeEntries ++ (K.arrayindex k).toList := by
    rw [Table.keysWith, List.filterMap_append, List.filterMap_map, Table.entries, List.filterMap_append]
    cases h : K.arrayindex k <;> simp [h, indices]
  have hcounts : Counts ((t.keysWith K k).filterMap K.arrayindex) extra.2 := fun j => by
    rw [hints, List.countP_append, List.countP_append, hextra.2, hnodes.2.2, harray.2, Nat.zero_add]
    rfl
  have hall : inarray.1 + inhash.2.1 + extra.1 =
      ((t.keysWith K k).filterMap K.arrayindex).countP isCounted := by
    have hcounted : inarray.1 = (indices K (t.arrayEntries K)).countP isCounted := by
      rw [harray.1, Table.arrayEntries, List.countP_eq_length.mpr fun x hx => ?_]
      rw [hindices] at hx
      obtain ⟨i, hi, rfl⟩ := List.mem_map.mp (List.mem_filter.mp hx).1
      exact decide_eq_true ((List.mem_range.mp hi : i < _).trans_le ht.array)
    rw [hints, List.countP_append, List.countP_append, hcounted, hnodes.2.1, hextra.1]
    rfl
  obtain ⟨hn, hna⟩ := computesizes_count hcounts (inarray.1 + inhash.2.1 + extra.1) 0 0 0 0
    (by simp) (Nat.zero_le _) (List.countP_eq_zero.mpr fun x hx => by
      obtain ⟨c, -, hc⟩ := List.mem_filterMap.mp hx
      simpa using (K.of_arrayindex c x hc).1.ne').symm
  refine ⟨_, hn, ?_, fun hk => ?_⟩
  · have hsplit := length_beyond K (computesizes extra.2 (inarray.1 + inhash.2.1 + extra.1) 0 0 0 0).1
      (t.keysWith K k)
    have htotal : inarray.1 + inhash.1 + 1 = (t.keysWith K k).length := by
      rw [harray.1, hnodes.1, hlength, Table.keysWith, List.length_append, List.length_map, Table.entries,
        List.length_append]
      rfl
    simp only [htotal, hna]
    congr 1
    omega
  · obtain ⟨hnodup, hpos⟩ := nodup_keysWith ht hk
    exact computesizes_greatest hcounts hnodup hpos hall 0 0 0 0 (by simp) (.inl rfl) nofun

/-- What a rehash does: the entries are the same, the array part is as large as it can be, and there is a
    node for every other key, the new one too. -/
structure Rehashed (K : Keys κ) (t t' : Table κ α) (k : κ) : Prop where
  proper : t'.Proper K
  get : ∀ c, t'.get K c = t.get K c
  fits : Fits t' ((t.keysWith K k).filter (beyond K t'.array.length))
  length : t.get K k = none →
    IsGreatest {n | Suits ((t.keysWith K k).filterMap K.arrayindex) n} t'.array.length
  size : t'.hash.size = 2 ^ ceillog2 ((t.keysWith K k).filter (beyond K t'.array.length)).length

theorem rehash_ok (ht : t.Proper K) (fuel : ℕ) (k : κ) :
    rehash K (set K fuel) t k = .overflow ∧ 2 ^ maxBits ≤ (t.entries K).length ∨
      ∃ t', rehash K (set K fuel) t k = .ok t' ∧ Rehashed K t t' k := by
  obtain ⟨n, hn, heq, hgreatest⟩ := rehash_sizes ht k (set K fuel)
  rw [heq]
  obtain ⟨hover, hlarge⟩ | ⟨t', hok, ht', hfits, rfl, hsize, hget⟩ := resize_ok ht fuel hn
    (H := (t.keysWith K k).filter (beyond K n)) fun e he hbeyond =>
      List.mem_filter.mpr ⟨List.mem_append_left _ (List.mem_map_of_mem he), hbeyond⟩
  · have hle := hlarge.trans_le (List.length_filter_le _ _)
    rw [Table.keysWith, List.length_append, List.length_map] at hle
    exact .inl ⟨hover, Nat.lt_succ_iff.mp hle⟩
  · refine .inr ⟨t', hok, ht', hget, hfits, fun hk => hgreatest fun hmem => ?_, hsize⟩
    obtain ⟨e, he, rfl⟩ := List.mem_map.mp hmem
    rw [(mem_entries ht).mp he] at hk
    cases hk

omit [DecidableEq κ] in
/-- The new key goes to the array part or is one of those that get a node. -/
theorem keysWith_place (t t' : Table κ α) (k : κ) :
    t'.InArray K k ∨ k ∈ (t.keysWith K k).filter (beyond K t'.array.length) := by
  cases hbeyond : beyond K t'.array.length k with
  | true => exact .inr (List.mem_filter.mpr ⟨List.mem_append_right _ List.mem_cons_self, hbeyond⟩)
  | false => exact .inl (beyond_eq_false.mp hbeyond)

/-- The keys in the nodes are keys that had a value, or the new one. -/
theorem Rehashed.known (h : Rehashed K t t' k) (ht : t.Proper K) {p : ℕ}
    (hp : (t'.hash.nodes p).key = some c) : c = k ∨ t.get K c ≠ none := by
  rcases List.mem_append.mp (List.mem_filter.mp (h.fits.keys p c hp)).1 with hold | hnew
  · obtain ⟨e, he, rfl⟩ := List.mem_map.mp hold
    rw [(mem_entries ht).mp he]
    exact .inr (Option.some_ne_none e.2)
  · exact .inl (List.mem_singleton.mp hnew)

/-- A store does what it should, with one rehash at most; it raises an error only when there are as many
    entries as a table can have nodes. -/
theorem set_ok (ht : t.Proper K) (fuel : ℕ) (k : κ) (v : Option α) :
    set K (fuel + 1) t k v = .overflow ∧ 2 ^ maxBits ≤ (t.entries K).length ∨
      ∃ t', set K (fuel + 1) t k v = .ok t' ∧ t'.Proper K ∧
        (∀ c, t'.get K c = if c = k then v else t.get K c) ∧ ∀ p c, (t'.hash.nodes p).key = some c →
          c = k ∨ t.get K c ≠ none ∨ ∃ p, (t.hash.nodes p).key = some c := by
  cases hloc : t.locate K k with
  | some s =>
    obtain ⟨t', heq, hstored⟩ := set_found ht hloc (fuel + 1) v
    exact .inr ⟨t', heq, hstored.proper, hstored.get, fun p c hp => (hstored.keys p c hp).imp_right .inr⟩
  | none =>
    obtain ⟨hfull, -⟩ | ⟨hash, p, hnew, hproper, hsize, hd, hadd⟩ :=
      ht.hash.newkey ((locate_none_iff ht).mp hloc).2
    · rw [set.eq_def, hloc]
      simp only [hfull]
      obtain ⟨hover, hlarge⟩ | ⟨t₁, hok, hrehashed⟩ := rehash_ok ht fuel k
      · rw [hover]
        exact .inl ⟨rfl, hlarge⟩
      · obtain ⟨t', heq, hstored⟩ := set_room hrehashed.proper
          (hrehashed.fits.room hrehashed.proper (keysWith_place t t₁ k)) fuel v
        rw [hok]
        refine .inr ⟨t', heq, hstored.proper, fun c => ?_, fun p c hp => ?_⟩
        · rw [hstored.get, hrehashed.get]
        · obtain rfl | ⟨q, hq⟩ := hstored.keys p c hp
          · exact .inl rfl
          · exact (hrehashed.known ht hq).imp_right .inl
    · obtain ⟨t', heq, hstored⟩ := set_placed ht hloc hnew hproper hsize hd hadd (fuel + 1) v
      exact .inr ⟨t', heq, hstored.proper, hstored.get, fun p c hp => (hstored.keys p c hp).imp_right .inr⟩

end Entries

end Ltable
