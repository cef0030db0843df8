import Mathlib.Init

/-! Logs, newest event first.

    What a system did is a list of events, and a safety property of its runs says something of every
    event and of the log as it was before it. `Every` is that quantifier over the places where the log
    can be cut; `every_cons` carries it from step to step by looking at the new event alone. -/

namespace Logs

variable {α : Type*} {P Q : α → List α → Prop}

/-- Wherever the log is cut, `P` holds of the event there and of the log before it. -/
structure Every (P : α → List α → Prop) (log : List α) : Prop where
  cut : ∀ later e earlier, log = later ++ e :: earlier → P e earlier

theorem every_nil : Every P [] := ⟨by simp⟩

theorem every_cons {e : α} {log : List α} : Every P (e :: log) ↔ P e log ∧ Every P log := by
  constructor
  · intro h
    exact ⟨h.cut [] e log rfl, ⟨fun later x earlier heq => h.cut (e :: later) x earlier (by rw [heq]; rfl)⟩⟩
  · rintro ⟨he, hlog⟩
    refine ⟨?_⟩
    rintro (_ | ⟨y, later⟩) x earlier heq
    · simp only [List.nil_append, List.cons.injEq] at heq
      obtain ⟨rfl, rfl⟩ := heq
      exact he
    · simp only [List.cons_append, List.cons.injEq] at heq
      exact hlog.cut later x earlier heq.2

theorem Every.cons {e : α} {log : List α} (he : P e log) (h : Every P log) : Every P (e :: log) :=
  every_cons.mpr ⟨he, h⟩

instance [h : ∀ e log, Decidable (P e log)] : DecidablePred (Every P) := fun log => go log
where
  go : ∀ log, Decidable (Every P log)
    | [] => isTrue every_nil
    | e :: log => have := h e log; have := go log; decidable_of_iff _ every_cons.symm

end Logs
