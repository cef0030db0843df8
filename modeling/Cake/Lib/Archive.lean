import Mathlib.Data.List.Perm.Basic

/-! Archives whose members are replaced by name.

    A member takes the place of the first old one of its name; one that finds none goes to the end. What
    is left of the old members (`rest`) depends on the names of the new ones alone, not on their order.

        old  x/a  y/a  z/b,  new  w/a  v/c   ──▶   w/a  y/a  z/b  v/c      rest  y/a  z/b -/

namespace Archive

variable {α β : Type*} [DecidableEq β] (name : α → β)

/-- Add a member to an archive whose old members are marked. -/
def put : List (α × Bool) → α → List (α × Bool)
  | [], x => [(x, false)]
  | (y, false) :: l, x => (y, false) :: put l x
  | (y, true) :: l, x => if name y = name x then (x, false) :: l else (y, true) :: put l x

/-- The archive of `old` after the members `xs` have been added. -/
def replace (xs old : List α) : List α :=
  (xs.foldl (put name) (old.map fun y => (y, true))).map Prod.fst

/-- The old members that no new one takes the place of. -/
def rest (xs old : List α) : List α :=
  xs.foldl (fun old x => old.eraseP fun y => name y = name x) old

/-- The members of a mark. -/
def marked (b : Bool) (l : List (α × Bool)) : List α := (l.filter fun m => m.2 == b).map Prod.fst

@[simp] theorem marked_cons (b c : Bool) (y : α) (l : List (α × Bool)) :
    marked b ((y, c) :: l) = if c = b then y :: marked b l else marked b l := by
  cases c <;> cases b <;> rfl

theorem mem_marked {x : α} {l : List (α × Bool)} :
    x ∈ l.map Prod.fst ↔ x ∈ marked false l ∨ x ∈ marked true l := by
  induction l with
  | nil => simp [marked]
  | cons m l ih =>
    obtain ⟨y, c⟩ := m
    rw [List.map_cons, List.mem_cons, ih]
    cases c <;> simp <;> tauto

/-- A new member takes one old member of its name away. -/
theorem put_old (x : α) (l : List (α × Bool)) :
    marked true (put name l x) = (marked true l).eraseP fun y => name y = name x := by
  induction l with
  | nil => rfl
  | cons m l ih =>
    obtain ⟨y, c⟩ := m
    cases c with
    | false => simpa [put] using ih
    | true =>
      by_cases h : name y = name x
      · simp [put, h]
      · simpa [put, h] using ih

theorem put_new {x z : α} {l : List (α × Bool)} :
    z ∈ marked false (put name l x) ↔ z = x ∨ z ∈ marked false l := by
  induction l with
  | nil => simp [put, marked]
  | cons m l ih =>
    obtain ⟨y, c⟩ := m
    cases c with
    | false =>
      simp only [put, marked_cons, if_true, List.mem_cons, ih]
      tauto
    | true =>
      by_cases h : name y = name x
      · simp [put, h]
      · simpa [put, h] using ih

theorem foldl_put (xs : List α) : ∀ l : List (α × Bool),
    marked true (xs.foldl (put name) l) = rest name xs (marked true l) ∧
      ∀ z, z ∈ marked false (xs.foldl (put name) l) ↔ z ∈ xs ∨ z ∈ marked false l := by
  induction xs with
  | nil => exact fun l => ⟨rfl, by simp⟩
  | cons x xs ih =>
    intro l
    obtain ⟨hold, hnew⟩ := ih (put name l x)
    refine ⟨by rw [List.foldl_cons, hold, put_old, rest, rest, List.foldl_cons], fun z => ?_⟩
    rw [List.foldl_cons, hnew, put_new, List.mem_cons]
    tauto

/-- An archive holds its new members and what is left of the old ones. -/
theorem mem_replace {xs old : List α} {z : α} :
    z ∈ replace name xs old ↔ z ∈ xs ∨ z ∈ rest name xs old := by
  have hall : marked true (old.map fun y => (y, true)) = old ∧
      marked false (old.map fun y => (y, true)) = [] := by
    induction old with
    | nil => exact ⟨rfl, rfl⟩
    | cons y old ih => simp [ih.1, ih.2]
  obtain ⟨hold, hnew⟩ := foldl_put name xs (old.map fun y => (y, true))
  rw [replace, mem_marked, hold, hnew, hall.1, hall.2]
  simp

theorem rest_subset (xs old : List α) : rest name xs old ⊆ old := by
  induction xs generalizing old with
  | nil => exact List.Subset.refl old
  | cons x xs ih => exact fun z hz => List.eraseP_subset (ih _ hz)

/-- The order of the new members does not matter. -/
theorem rest_perm {xs ys : List α} (h : xs.Perm ys) (old : List α) :
    rest name xs old = rest name ys old := by
  refine h.foldl_eq' (fun x _ y _ l => ?_) old
  by_cases hxy : name x = name y
  · rw [hxy]
  · refine List.eraseP_comm fun m _ => ?_
    simp only [decide_eq_true_eq]
    by_contra hboth
    push Not at hboth
    exact hxy (hboth.1.symm.trans hboth.2)

end Archive
