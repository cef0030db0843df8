import Mathlib.Data.List.Basic

/-! Resolving the components of a path: `here` is passed over, `up` takes the component before it away,
    and what cannot be taken away stays in front.

    A path that never goes up more often than it has gone down stays below the directory it starts in,
    whatever that is (`foldl_stays`); one that does goes on as it would from any sibling of that directory
    (`foldl_climbs`).

        a / .. / b        down up down       stays, from 0
        a / .. / .. / b   down up up down    climbs, from 0 -/

namespace Components

variable {α : Type*} [DecidableEq α] {here up : α}

/-- The stack without its last component; there has to be one that can be taken away. -/
def goUp (up : α) : List α → List α
  | [] => [up]
  | top :: rest => if top = up then up :: top :: rest else rest

/-- One component, on the stack of those before it, last first. -/
def walk (here up : α) (stack : List α) (c : α) : List α :=
  if c = here then stack else if c = up then goUp up stack else c :: stack

/-- The components of the path that is meant. -/
def resolve (here up : α) (cs : List α) : List α := (cs.foldl (walk here up) []).reverse

/-- Starting `n` components down, the path does not climb above its start. -/
def Stays (here up : α) : ℕ → List α → Prop
  | _, [] => True
  | n, c :: cs =>
    if c = here then Stays here up n cs
    else if c = up then 0 < n ∧ Stays here up (n - 1) cs
    else Stays here up (n + 1) cs

instance decidableStays : ∀ (n : ℕ) (cs : List α), Decidable (Stays here up n cs)
  | _, [] => isTrue trivial
  | n, c :: cs =>
    have := fun n => decidableStays n cs
    inferInstanceAs (Decidable (if c = here then Stays here up n cs
      else if c = up then 0 < n ∧ Stays here up (n - 1) cs
      else Stays here up (n + 1) cs))

theorem walk_here (stack : List α) : walk here up stack here = stack := if_pos rfl

theorem walk_up {top : α} (rest : List α) (hne : up ≠ here) (htop : top ≠ up) :
    walk here up (top :: rest) up = rest := by
  rw [walk, if_neg hne, if_pos rfl, goUp, if_neg htop]

theorem walk_name {c : α} (stack : List α) (hhere : c ≠ here) (hup : c ≠ up) :
    walk here up stack c = c :: stack := by
  rw [walk, if_neg hhere, if_neg hup]

/-- A name is one level down. -/
theorem stays_name {c : α} (hhere : c ≠ here) (hup : c ≠ up) : ∀ (cs : List α) (n : ℕ),
    Stays here up n (cs ++ [c]) ↔ Stays here up n cs
  | [], n => by simp [Stays, hhere, hup]
  | d :: cs, n => by
    have ih := stays_name hhere hup cs
    rw [List.cons_append, Stays, Stays]
    split
    · exact ih n
    · split
      · exact and_congr_right fun _ => ih (n - 1)
      · exact ih (n + 1)

/-- A path that stays leaves what is under its start alone. -/
theorem foldl_stays (hne : up ≠ here) (base : List α) : ∀ (cs top : List α), (∀ x ∈ top, x ≠ up) →
    Stays here up top.length cs →
      cs.foldl (walk here up) (top ++ base) = cs.foldl (walk here up) top ++ base
  | [], _, _, _ => rfl
  | c :: cs, top, htop, h => by
    rw [Stays] at h
    rw [List.foldl_cons, List.foldl_cons]
    split at h
    · rename_i hc
      rw [hc, walk_here, walk_here]
      exact foldl_stays hne base cs top htop h
    · rename_i hhere
      split at h
      · rename_i hc
        cases top with
        | nil => exact absurd h.1 (Nat.lt_irrefl 0)
        | cons x top =>
          obtain ⟨hx, hrest⟩ := List.forall_mem_cons.mp htop
          rw [hc, List.cons_append, walk_up _ hne hx, walk_up _ hne hx]
          exact foldl_stays hne base cs top hrest h.2
      · rename_i hup
        rw [walk_name _ hhere hup, walk_name _ hhere hup, ← List.cons_append]
        exact foldl_stays hne base cs (c :: top) (List.forall_mem_cons.mpr ⟨hup, htop⟩) h

/-- A path that climbs forgets the name of its start. -/
theorem foldl_climbs (hne : up ≠ here) {x y : α} (hx : x ≠ up) (hy : y ≠ up) (base : List α) :
    ∀ (cs top : List α), (∀ z ∈ top, z ≠ up) → ¬ Stays here up top.length cs →
      cs.foldl (walk here up) (top ++ x :: base) = cs.foldl (walk here up) (top ++ y :: base)
  | [], _, _, h => absurd trivial h
  | c :: cs, top, htop, h => by
    rw [Stays] at h
    rw [List.foldl_cons, List.foldl_cons]
    split at h
    · rename_i hc
      rw [hc, walk_here, walk_here]
      exact foldl_climbs hne hx hy base cs top htop h
    · rename_i hhere
      split at h
      · rename_i hc
        cases top with
        | nil => rw [hc, List.nil_append, List.nil_append, walk_up _ hne hx, walk_up _ hne hy]
        | cons z top =>
          obtain ⟨hz, hrest⟩ := List.forall_mem_cons.mp htop
          rw [hc, List.cons_append, List.cons_append, walk_up _ hne hz, walk_up _ hne hz]
          exact foldl_climbs hne hx hy base cs top hrest fun hs => h ⟨Nat.succ_pos _, hs⟩
      · rename_i hup
        rw [walk_name _ hhere hup, walk_name _ hhere hup, ← List.cons_append, ← List.cons_append]
        exact foldl_climbs hne hx hy base cs (c :: top) (List.forall_mem_cons.mpr ⟨hup, htop⟩) h

end Components
