import Mathlib.Data.List.Nodup
import Mathlib.Data.Nat.Notation
import Mathlib.Logic.Function.Basic
import Mathlib.Order.Nat

/-! References into a table, as `luaL_ref` and `luaL_unref` of the auxiliary library hand them out.

    A reference is the index of a slot. Slots that were given back make a list which begins in slot 0 and
    goes on in the slots themselves, and they are handed out first. When there are none, the slot behind
    the end of the table is taken, and the table may find any end it has, that is any slot that is not nil
    before one that is.

        slot      0    1    2    3    4
                  3    a    nil  2    b       free: 3, 2      then 5 -/

namespace RefTable

variable {α : Type*}

/-- What a slot holds: nothing, the number of a slot, or what it is kept for. -/
inductive Slot (α : Type*) where
  | nil
  | num (n : ℕ)
  | kept (a : α)
  deriving DecidableEq

def Slot.isNil : Slot α → Bool
  | .nil => true
  | _ => false

/-- `lua_tointeger`. -/
def Slot.tointeger : Slot α → ℕ
  | .num n => n
  | _ => 0

/-- The slots of a table. There are finitely many. -/
structure Slots (α : Type*) where
  get : ℕ → Slot α
  bound : ℕ
  above : ∀ n, bound < n → get n = .nil

namespace Slots

def empty : Slots α := ⟨fun _ => .nil, 0, fun _ _ => rfl⟩

def set (t : Slots α) (r : ℕ) (s : Slot α) : Slots α where
  get := Function.update t.get r s
  bound := max t.bound r
  above n hn := by
    rw [Function.update_of_ne (by omega)]
    exact t.above n (by omega)

@[simp] theorem get_set_self (t : Slots α) (r : ℕ) (s : Slot α) : (t.set r s).get r = s :=
  Function.update_self ..

theorem get_set_of_ne (t : Slots α) {r n : ℕ} (h : n ≠ r) (s : Slot α) : (t.set r s).get n = t.get n :=
  Function.update_of_ne h ..

theorem le_bound {t : Slots α} {n : ℕ} (h : (t.get n).isNil = false) : n ≤ t.bound := by
  by_contra hn
  rw [t.above n (by omega)] at h
  cases h

end Slots

/-! ### The end of a table -/

/-- The binary search between a slot `i` that is taken, or 0, and a slot `j` that is nil. -/
def bisect (t : Slots α) (i j : ℕ) : ℕ :=
  if 1 < j - i then
    let m := (i + j) / 2
    if (t.get m).isNil then bisect t i m else bisect t m j
  else i
termination_by j - i

/-- The linear search for a slot that is nil. -/
def linear (t : Slots α) (i : ℕ) : ℕ :=
  if h : (t.get i).isNil = false then linear t (i + 1) else i - 1
termination_by t.bound + 1 - i
decreasing_by
  have := Slots.le_bound h
  omega

/-- The loop of `unbound_search`. -/
def unbound (maxInt : ℕ) (t : Slots α) (i j : ℕ) : ℕ :=
  if h : 0 < j ∧ (t.get j).isNil = false then
    if maxInt < j * 2 then linear t 1 else unbound maxInt t j (j * 2)
  else bisect t i j
termination_by t.bound + 1 - j
decreasing_by
  have := Slots.le_bound h.2
  omega

/-- How the table lies in memory: the size of its array part, and whether its hash part is empty. -/
structure Layout where
  sizearray : ℕ
  dummynode : Bool

/-- With an empty hash part there is nothing beyond the array. -/
def Layout.Holds (l : Layout) (t : Slots α) : Prop :=
  l.dummynode = true → ∀ n, l.sizearray < n → t.get n = .nil

/-- `luaH_getn`. -/
def getn (maxInt : ℕ) (l : Layout) (t : Slots α) : ℕ :=
  if 0 < l.sizearray ∧ (t.get l.sizearray).isNil then bisect t 0 l.sizearray
  else if l.dummynode then l.sizearray
  else unbound maxInt t l.sizearray (l.sizearray + 1)

/-- A slot that is taken, or 0, before one that is nil. -/
structure Border (t : Slots α) (n : ℕ) : Prop where
  taken : n = 0 ∨ (t.get n).isNil = false
  next : (t.get (n + 1)).isNil = true

variable {t : Slots α} {i j n maxInt : ℕ}

theorem bisect_border (hij : i < j) (hi : i = 0 ∨ (t.get i).isNil = false) (hj : (t.get j).isNil = true) :
    Border t (bisect t i j) := by
  induction i, j using bisect.induct t with
  | case1 i j hlt m hm ih =>
    rw [bisect, if_pos hlt, if_pos hm]
    exact ih (by omega) hi hm
  | case2 i j hlt m hm ih =>
    rw [bisect, if_pos hlt, if_neg hm]
    exact ih (by omega) (Or.inr (Bool.eq_false_iff.mpr hm)) hj
  | case3 i j hlt =>
    rw [bisect, if_neg hlt]
    obtain rfl : j = i + 1 := by omega
    exact ⟨hi, hj⟩

theorem linear_border (hpos : 0 < i) (hi : i - 1 = 0 ∨ (t.get (i - 1)).isNil = false) :
    Border t (linear t i) := by
  induction i using linear.induct t with
  | case1 i h ih =>
    rw [linear, dif_pos h]
    exact ih (by omega) (Or.inr h)
  | case2 i h =>
    rw [linear, dif_neg h]
    refine ⟨hi, ?_⟩
    rw [Nat.sub_add_cancel hpos]
    exact Bool.not_eq_false _ ▸ h

theorem unbound_border (hij : i < j) (hi : i = 0 ∨ (t.get i).isNil = false) :
    Border t (unbound maxInt t i j) := by
  induction i, j using unbound.induct maxInt t with
  | case1 i j h hlarge =>
    rw [unbound, dif_pos h, if_pos hlarge]
    exact linear_border Nat.zero_lt_one (Or.inl rfl)
  | case2 i j h hsmall ih =>
    rw [unbound, dif_pos h, if_neg hsmall]
    exact ih (by omega) (Or.inr h.2)
  | case3 i j h =>
    rw [unbound, dif_neg h]
    refine bisect_border hij hi ?_
    rw [← Bool.not_eq_false]
    exact fun hj => h ⟨by omega, hj⟩

/-- `luaH_getn` finds a slot that is taken before one that is nil. -/
theorem getn_border {l : Layout} (h : l.Holds t) : Border t (getn maxInt l t) := by
  rw [getn]
  split
  · rename_i harray
    exact bisect_border harray.1 (Or.inl rfl) harray.2
  · rename_i harray
    have htaken : l.sizearray = 0 ∨ (t.get l.sizearray).isNil = false :=
      (Nat.eq_zero_or_pos _).imp_right fun hpos => by simpa [hpos] using harray
    split
    · rename_i hdummy
      refine ⟨htaken, ?_⟩
      rw [h hdummy _ (Nat.lt_succ_self _)]
      rfl
    · exact unbound_border (Nat.lt_succ_self _) htaken

/-! ### References -/

/-- `luaL_ref` for something that is not nil: the reference, and the table afterwards. -/
def luaLRef (maxInt : ℕ) (l : Layout) (a : α) (t : Slots α) : ℕ × Slots α :=
  let ref := (t.get 0).tointeger
  if ref ≠ 0 then
    let t := t.set 0 (t.get ref)
    (ref, t.set ref (.kept a))
  else
    let ref := getn maxInt l t + 1
    (ref, t.set ref (.kept a))

/-- `luaL_unref`. -/
def luaLUnref (ref : ℕ) (t : Slots α) : Slots α := (t.set ref (t.get 0)).set 0 (.num ref)

/-- The slots of the free list, from what the slot before holds. -/
inductive Chain (t : Slots α) : Slot α → List ℕ → Prop where
  | nil : Chain t .nil []
  | cons {r : ℕ} {rs : List ℕ} (hr : 0 < r) (h : Chain t (t.get r) rs) : Chain t (.num r) (r :: rs)

/-- The first `n` slots are in use, for what `live` says, or free; the others are nil. -/
structure Refs (t : Slots α) (n : ℕ) (live : ℕ → Option α) (free : List ℕ) : Prop where
  chain : Chain t (t.get 0) free
  nodup : free.Nodup
  kept : ∀ r a, live r = some a → 0 < r ∧ r ≤ n ∧ t.get r = .kept a
  free : ∀ r, r ∈ free ↔ 0 < r ∧ r ≤ n ∧ live r = none
  above : ∀ r, n < r → t.get r = .nil

variable {live : ℕ → Option α} {free : List ℕ} {a : α} {r : ℕ}

theorem refs_empty : Refs (Slots.empty : Slots α) 0 (fun _ => none) [] := by
  refine ⟨.nil, List.nodup_nil, fun r a h => ?_, fun r => ?_, fun _ _ => rfl⟩
  · cases h
  · simp only [List.not_mem_nil, false_iff]
    omega

/-- A free list that does not go through slot `r` does not notice when it is set. -/
theorem Chain.set {c : Slot α} (h : Chain t c free) (hr : r ∉ free) (s : Slot α) :
    Chain (t.set r s) c free := by
  induction h with
  | nil => exact .nil
  | @cons q rs hq h ih =>
    rw [List.mem_cons, not_or] at hr
    refine .cons hq ?_
    rw [Slots.get_set_of_ne t (Ne.symm hr.1)]
    exact ih hr.2

theorem Chain.of_nil {c : Slot α} (h : Chain t c []) : c = .nil := by
  cases h
  rfl

theorem Chain.of_cons {c : Slot α} {rs : List ℕ} (h : Chain t c (r :: rs)) :
    c = .num r ∧ Chain t (t.get r) rs := by
  cases h with
  | cons _ h => exact ⟨rfl, h⟩

theorem Refs.lives (h : Refs t n live free) (hr : r ∈ free) : 0 < r ∧ r ≤ n ∧ live r = none :=
  (h.free r).mp hr

theorem Refs.not_free (h : Refs t n live free) (hr : live r = some a) : r ∉ free := by
  intro hmem
  rw [(h.lives hmem).2.2] at hr
  cases hr

theorem Refs.zero (h : Refs t n live free) : live 0 = none ∧ 0 ∉ free := by
  refine ⟨Option.eq_none_iff_forall_ne_some.mpr fun a ha => ?_, fun hmem => ?_⟩
  · exact absurd (h.kept 0 a ha).1 (Nat.lt_irrefl 0)
  · exact absurd (h.lives hmem).1 (Nat.lt_irrefl 0)

/-- Slots of the free list are kept for nobody. -/
theorem Chain.not_kept {c : Slot α} (h : Chain t c free) : (∀ a, c ≠ .kept a) ∧
    ∀ q ∈ free, ∀ a, t.get q ≠ .kept a := by
  induction h with
  | nil => exact ⟨by simp, by simp⟩
  | cons _ _ ih => exact ⟨by simp, List.forall_mem_cons.mpr ⟨ih.1, ih.2⟩⟩

/-- The table keeps what is live and nothing else. -/
theorem Refs.kept_iff (h : Refs t n live free) : t.get r = .kept a ↔ live r = some a := by
  constructor
  · intro hkept
    have hnot := h.chain.not_kept
    cases hlive : live r with
    | some b =>
      have hb := (h.kept r b hlive).2.2
      rw [hkept, Slot.kept.injEq] at hb
      rw [hb]
    | none =>
      -- neither slot 0 nor a free slot nor one behind the end
      rcases Nat.eq_zero_or_pos r with rfl | hpos
      · exact absurd hkept (hnot.1 a)
      · rcases Nat.lt_or_ge n r with hlt | hle
        · rw [h.above r hlt] at hkept
          cases hkept
        · exact absurd hkept (hnot.2 r ((h.free r).mpr ⟨hpos, hle, hlive⟩) a)
  · exact fun hlive => (h.kept r a hlive).2.2

/-- When no slot is free the first `n` slots are taken, and there the table ends. -/
theorem Refs.end (h : Refs t n live []) {m : ℕ} (hm : Border t m) : m = n := by
  have htaken : ∀ r, 0 < r → r ≤ n → (t.get r).isNil = false := fun r hpos hle => by
    cases hr : live r with
    | none => exact absurd ((h.free r).mpr ⟨hpos, hle, hr⟩) List.not_mem_nil
    | some a =>
      rw [(h.kept r a hr).2.2]
      rfl
  by_contra hne
  rcases Nat.lt_or_gt_of_ne hne with hlt | hgt
  · have hnext := hm.next
    rw [htaken (m + 1) (by omega) hlt] at hnext
    cases hnext
  · rcases hm.taken with hzero | htaken
    · omega
    · rw [h.above m hgt] at htaken
      cases htaken

/-- A slot that becomes live. -/
theorem Refs.keep {t' : Slots α} {n' : ℕ} {free' : List ℕ} (h : Refs t n live free) (hr : live r = none)
    (hpos : 0 < r) (hn : n ≤ n') (hle : r ≤ n') (hnew : ∀ q, n < q → q ≤ n' → q = r)
    (hchain : Chain t' (t'.get 0) free') (hnodup : free'.Nodup) (hfree : ∀ q, q ∈ free' ↔ q ∈ free ∧ q ≠ r)
    (hself : t'.get r = .kept a) (hother : ∀ q, 0 < q → q ≠ r → t'.get q = t.get q) :
    Refs t' n' (Function.update live r (some a)) free' := by
  refine ⟨hchain, hnodup, fun q b hq => ?_, fun q => ?_, fun q hq => ?_⟩
  · rcases eq_or_ne q r with rfl | hne
    · rw [Function.update_self, Option.some.injEq] at hq
      exact ⟨hpos, hle, hq ▸ hself⟩
    · rw [Function.update_of_ne hne] at hq
      obtain ⟨hq0, hqn, hkept⟩ := h.kept q b hq
      exact ⟨hq0, hqn.trans hn, (hother q hq0 hne).trans hkept⟩
  · rw [hfree, h.free]
    rcases eq_or_ne q r with rfl | hne
    · simp
    · rw [Function.update_of_ne hne]
      constructor
      · rintro ⟨⟨hq0, hqn, hnone⟩, -⟩
        exact ⟨hq0, hqn.trans hn, hnone⟩
      · rintro ⟨hq0, hqn, hnone⟩
        refine ⟨⟨hq0, ?_, hnone⟩, hne⟩
        by_contra hgt
        exact hne (hnew q (by omega) hqn)
  · rw [hother q (by omega) (by omega)]
    exact h.above q (by omega)

/-- Without a free slot `luaL_ref` takes the next one. -/
theorem Refs.ref_new (maxInt : ℕ) {l : Layout} (h : Refs t n live []) (hl : l.Holds t) (a : α) :
    luaLRef maxInt l a t = (n + 1, t.set (n + 1) (.kept a)) ∧ live (n + 1) = none ∧
      Refs (t.set (n + 1) (.kept a)) (n + 1) (Function.update live (n + 1) (some a)) [] := by
  have hzero : t.get 0 = .nil := h.chain.of_nil
  have hnone : live (n + 1) = none := Option.eq_none_iff_forall_ne_some.mpr fun b hb => by
    have := (h.kept _ b hb).2.1
    omega
  refine ⟨?_, hnone, h.keep hnone (Nat.succ_pos n) (Nat.le_succ n) le_rfl (fun q _ _ => by omega) ?_
    List.nodup_nil (by simp) (Slots.get_set_self ..) fun q _ hne => Slots.get_set_of_ne _ hne _⟩
  · rw [luaLRef, hzero, if_neg (by simp [Slot.tointeger]), h.end (getn_border hl)]
  · rw [Slots.get_set_of_ne _ (Nat.succ_ne_zero n).symm, hzero]
    exact .nil

/-- Otherwise it takes the first free one off the list. -/
theorem Refs.ref_free (maxInt : ℕ) (l : Layout) {rs : List ℕ} (h : Refs t n live (r :: rs)) (a : α) :
    luaLRef maxInt l a t = (r, (t.set 0 (t.get r)).set r (.kept a)) ∧ live r = none ∧
      Refs ((t.set 0 (t.get r)).set r (.kept a)) n (Function.update live r (some a)) rs := by
  obtain ⟨hpos, hle, hnone⟩ := h.lives List.mem_cons_self
  obtain ⟨hzero, hchain⟩ := h.chain.of_cons
  obtain ⟨hr, hrs⟩ := List.nodup_cons.mp h.nodup
  have hrest : 0 ∉ rs := fun hmem => h.zero.2 (List.mem_cons_of_mem _ hmem)
  refine ⟨?_, hnone, h.keep hnone hpos le_rfl hle (fun q _ _ => by omega) ?_ hrs (fun q => ?_)
    (Slots.get_set_self ..) fun q hq hne => ?_⟩
  · rw [luaLRef, hzero, if_pos (by simp [Slot.tointeger]; omega)]
    rfl
  · rw [Slots.get_set_of_ne _ (by omega), Slots.get_set_self]
    exact (hchain.set hrest _).set hr _
  · rw [List.mem_cons]
    constructor
    · exact fun hq => ⟨Or.inr hq, fun heq => hr (heq ▸ hq)⟩
    · rintro ⟨hq | hq, hne⟩
      · exact absurd hq hne
      · exact hq
  · rw [Slots.get_set_of_ne _ hne, Slots.get_set_of_ne _ (by omega)]

/-- `luaL_ref` hands out a reference that nobody has, for what it was given. -/
theorem Refs.ref (maxInt : ℕ) {l : Layout} (h : Refs t n live free) (hl : l.Holds t) (a : α) :
    live (luaLRef maxInt l a t).1 = none ∧ ∃ n' free', n' ≤ n + 1 ∧ Refs (luaLRef maxInt l a t).2 n'
      (Function.update live (luaLRef maxInt l a t).1 (some a)) free' := by
  cases free with
  | nil =>
    obtain ⟨heq, hnone, hrefs⟩ := h.ref_new maxInt hl a
    rw [heq]
    exact ⟨hnone, n + 1, [], le_rfl, hrefs⟩
  | cons r rs =>
    obtain ⟨heq, hnone, hrefs⟩ := h.ref_free maxInt l a
    rw [heq]
    exact ⟨hnone, n, rs, Nat.le_succ n, hrefs⟩

/-- `luaL_unref` of a reference that somebody has gives it back. -/
theorem Refs.unref (h : Refs t n live free) (hr : live r = some a) :
    Refs (luaLUnref r t) n (Function.update live r none) (r :: free) := by
  obtain ⟨hpos, hle, -⟩ := h.kept r a hr
  have hfree := h.not_free hr
  have hget : ∀ q, 0 < q → q ≠ r → (luaLUnref r t).get q = t.get q := fun q hq hne => by
    rw [luaLUnref, Slots.get_set_of_ne _ (by omega), Slots.get_set_of_ne _ hne]
  refine ⟨?_, List.nodup_cons.mpr ⟨hfree, h.nodup⟩, fun q b hq => ?_, fun q => ?_, fun q hq => ?_⟩
  · have hself : (luaLUnref r t).get r = t.get 0 := by
      rw [luaLUnref, Slots.get_set_of_ne _ (by omega), Slots.get_set_self]
    rw [luaLUnref, Slots.get_set_self, ← luaLUnref]
    refine .cons hpos ?_
    rw [hself]
    exact (h.chain.set hfree _).set h.zero.2 _
  · rcases eq_or_ne q r with rfl | hne
    · rw [Function.update_self] at hq
      cases hq
    · rw [Function.update_of_ne hne] at hq
      obtain ⟨hq0, hqn, hkept⟩ := h.kept q b hq
      exact ⟨hq0, hqn, (hget q hq0 hne).trans hkept⟩
  · rw [List.mem_cons, h.free]
    rcases eq_or_ne q r with rfl | hne
    · simp [hpos, hle]
    · simp [hne]
  · rw [hget q (by omega) (by omega)]
    exact h.above q hq

/-- All that are in a list, one after the other. -/
theorem Refs.unref_all {keys : List ℕ} (h : Refs t n live free) (hnodup : keys.Nodup)
    (hkeys : ∀ r ∈ keys, ∃ a, live r = some a) : ∃ free', Refs (keys.foldl (fun t r => luaLUnref r t) t) n
      (fun r => if r ∈ keys then none else live r) free' := by
  induction keys generalizing t live free with
  | nil => exact ⟨free, by simpa using h⟩
  | cons r keys ih =>
    obtain ⟨hr, hnodup⟩ := List.nodup_cons.mp hnodup
    obtain ⟨⟨a, ha⟩, hkeys⟩ := List.forall_mem_cons.mp hkeys
    obtain ⟨free', hrefs⟩ := ih (h.unref ha) hnodup fun q hq => by
      rw [Function.update_of_ne (ne_of_mem_of_not_mem hq hr)]
      exact hkeys q hq
    have hlive : (fun q => if q ∈ r :: keys then none else live q) =
        fun q => if q ∈ keys then none else Function.update live r none q := by
      funext q
      rcases eq_or_ne q r with rfl | hne
      · simp
      · simp [hne]
    rw [hlive]
    exact ⟨free', hrefs⟩

end RefTable
