import Mathlib.Data.Multiset.Filter
import Mathlib.Algebra.Order.Group.Multiset

/-! The ledger of a work pool.

    Tasks are started and, in any order, settled: a settled task is booked as good or as bad. The
    ledger forgets everything else about the pool (slots, schedule, who waits for whom). Two facts
    are kept by both moves: nothing is lost or booked twice (`total`), and the books are honest
    (`Sound`). A drained ledger is therefore fixed by what was started, whatever the order. -/

/-- Tasks in flight, tasks booked as good, tasks booked as bad. -/
structure Ledger (τ : Type*) where
  running : Multiset τ
  good : Multiset τ
  bad : Multiset τ

namespace Ledger

variable {τ : Type*} {ok : τ → Prop}

/-- Everything that was ever started. -/
def total (l : Ledger τ) : Multiset τ := l.running + (l.good + l.bad)

/-- Honest books: the good tasks are the ones that are `ok`. -/
structure Sound (ok : τ → Prop) (l : Ledger τ) : Prop where
  good : ∀ t ∈ l.good, ok t
  bad : ∀ t ∈ l.bad, ¬ ok t

/-- Nothing has been started yet. -/
def empty : Ledger τ := ⟨0, 0, 0⟩

theorem sound_empty : Sound ok (empty : Ledger τ) := ⟨by simp [empty], by simp [empty]⟩

/-- Start a task. -/
def start (t : τ) (l : Ledger τ) : Ledger τ := { l with running := t ::ₘ l.running }

theorem total_start (t : τ) (l : Ledger τ) : (l.start t).total = t ::ₘ l.total := by
  simp [total, start]

theorem Sound.start {l : Ledger τ} (h : Sound ok l) (t : τ) : Sound ok (l.start t) :=
  ⟨h.good, h.bad⟩

/-- Take a task out of flight (`rest` is what stays there) and book it. -/
def settle (rest : Multiset τ) (t : τ) (good : Bool) (l : Ledger τ) : Ledger τ :=
  if good then ⟨rest, t ::ₘ l.good, l.bad⟩ else ⟨rest, l.good, t ::ₘ l.bad⟩

theorem total_settle {l : Ledger τ} {rest : Multiset τ} {t : τ} (h : l.running = t ::ₘ rest)
    (good : Bool) : (l.settle rest t good).total = l.total := by
  cases good <;> simp [total, settle, h]

theorem Sound.settle {l : Ledger τ} (h : Sound ok l) {rest : Multiset τ} {t : τ} {good : Bool}
    (hg : good = true ↔ ok t) : Sound ok (l.settle rest t good) := by
  cases good with
  | true =>
    refine ⟨fun u hu => ?_, h.bad⟩
    rcases Multiset.mem_cons.mp hu with rfl | hu
    · exact hg.mp rfl
    · exact h.good u hu
  | false =>
    refine ⟨h.good, fun u hu => ?_⟩
    rcases Multiset.mem_cons.mp hu with rfl | hu
    · exact fun hok => absurd (hg.mpr hok) (by simp)
    · exact h.bad u hu

/-- The good tasks are the settled tasks that are `ok`. -/
theorem Sound.good_eq [DecidablePred ok] {l : Ledger τ} (h : Sound ok l) :
    l.good = (l.good + l.bad).filter ok := by
  rw [Multiset.filter_add, Multiset.filter_eq_self.mpr h.good, Multiset.filter_eq_nil.mpr h.bad,
    add_zero]

/-- The bad tasks are the settled tasks that are not. -/
theorem Sound.bad_eq [DecidablePred ok] {l : Ledger τ} (h : Sound ok l) :
    l.bad = (l.good + l.bad).filter (fun t => ¬ ok t) := by
  rw [Multiset.filter_add, Multiset.filter_eq_self.mpr h.bad,
    Multiset.filter_eq_nil.mpr (fun t ht => not_not.mpr (h.good t ht)), zero_add]

/-- What is settled is what was started and is no longer in flight. -/
theorem settled_eq [DecidableEq τ] (l : Ledger τ) : l.good + l.bad = l.total - l.running := by
  rw [total, add_tsub_cancel_left]

end Ledger
