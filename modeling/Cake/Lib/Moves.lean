import Mathlib.Logic.Relation

/-! Runs of a transition system.

    A program is a function on states and what it may do to the state is a step relation `R`; a call
    that is some number of steps is a path `ReflTransGen R`. One lemma for each way of putting calls
    together (`fold`), one rule for what a path keeps (`keeps`: a property of one state) and one for
    how its two ends compare (`compares`: a preorder on states). An invariant is then checked on the
    steps alone and holds after every call that moves along them. -/

namespace Moves
open Relation

variable {σ α : Type*} {R S : σ → σ → Prop}

/-- A loop moves along `R` when its body does, for every element it meets. -/
theorem fold {f : σ → α → σ} : ∀ (l : List α) (s : σ),
    (∀ s, ∀ a ∈ l, ReflTransGen R s (f s a)) → ReflTransGen R s (l.foldl f s)
  | [], _, _ => .refl
  | a :: l, s, h => (h s a (List.mem_cons_self ..)).trans
      (fold l (f s a) (fun s b hb => h s b (List.mem_cons_of_mem _ hb)))

/-- A property that every step keeps holds at the end of a path when it holds at its start. -/
theorem keeps {I : σ → Prop} (hI : ∀ s t, R s t → I s → I t) {s t : σ} (h : ReflTransGen R s t) :
    I s → I t := by
  intro hs
  induction h with
  | refl => exact hs
  | tail _ hr ih => exact hI _ _ hr ih

/-- A preorder that every step respects relates the two ends of a path. -/
theorem compares (refl : ∀ s, S s s) (trans : ∀ s t u, S s t → S t u → S s u)
    (hS : ∀ s t, R s t → S s t) {s t : σ} (h : ReflTransGen R s t) : S s t := by
  induction h with
  | refl => exact refl _
  | tail _ hr ih => exact trans _ _ _ ih (hS _ _ hr)

end Moves
