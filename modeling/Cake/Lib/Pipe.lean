import Mathlib.Data.Nat.Notation
import Mathlib.Logic.Relation

/-! A pipe with room for so many elements, between a writer with a text and a reader that takes pieces of
    it.

    However the two take turns, what the reader has, what is in the pipe and what is still to come make
    the text; every turn leaves less to do; and as long as there is something left one of them can go on.

        rest ──write──▶ inside ──read──▶ pieces -/

namespace Pipe

variable {α : Type*}

/-- What one read can deliver. -/
abbrev Piece (α : Type*) (size : ℕ) := { r : List α // r ≠ [] ∧ r.length ≤ size }

structure Flow (α : Type*) (size : ℕ) where
  rest : List α
  inside : List α
  pieces : List (Piece α size)

variable {cap size : ℕ} {f f' : Flow α size}

inductive Write (cap : ℕ) : Flow α size → Flow α size → Prop where
  | mk {w rest inside : List α} {pieces : List (Piece α size)} (hw : w ≠ [])
      (hroom : inside.length + w.length ≤ cap) :
      Write cap ⟨w ++ rest, inside, pieces⟩ ⟨rest, inside ++ w, pieces⟩

inductive Read : Flow α size → Flow α size → Prop where
  | mk {rest inside : List α} {pieces : List (Piece α size)} (r : Piece α size) :
      Read ⟨rest, r.1 ++ inside, pieces⟩ ⟨rest, inside, pieces ++ [r]⟩

/-- All the reader has. -/
def Flow.got (f : Flow α size) : List α := (f.pieces.map Subtype.val).flatten

def Flow.text (f : Flow α size) : List α := f.got ++ f.inside ++ f.rest

/-- The elements that are to be written and read, and those that are to be read. -/
def Flow.work (f : Flow α size) : ℕ := 2 * f.rest.length + f.inside.length

theorem Write.text_eq (h : Write cap f f') : f'.text = f.text := by
  cases h
  simp [Flow.text, Flow.got]

theorem Read.text_eq (h : Read f f') : f'.text = f.text := by
  cases h
  simp [Flow.text, Flow.got]

theorem Write.work_lt (h : Write cap f f') : f'.work < f.work := by
  cases h with
  | mk hw hroom =>
    have := List.length_pos_iff.mpr hw
    simp only [Flow.work, List.length_append]
    omega

theorem Read.work_lt (h : Read f f') : f'.work < f.work := by
  cases h with
  | mk r =>
    have := List.length_pos_iff.mpr r.2.1
    simp only [Flow.work, List.length_append]
    omega

theorem Read.inside_ne_nil (h : Read f f') : f.inside ≠ [] := by
  cases h with
  | mk r => exact List.append_ne_nil_of_left_ne_nil r.2.1 _

/-- With something in the pipe the reader can go on. -/
theorem Flow.read (hsize : 0 < size) (h : f.inside ≠ []) : ∃ f', Read f f' := by
  obtain ⟨rest, inside, pieces⟩ := f
  obtain ⟨a, inside, rfl⟩ := List.exists_cons_of_ne_nil h
  exact ⟨_, .mk ⟨[a], List.cons_ne_nil a [], hsize⟩⟩

/-- With an empty pipe the writer can go on. -/
theorem Flow.write (hcap : 0 < cap) (h : f.inside = []) (hrest : f.rest ≠ []) : ∃ f', Write cap f f' := by
  obtain ⟨rest, inside, pieces⟩ := f
  obtain ⟨a, rest, rfl⟩ := List.exists_cons_of_ne_nil hrest
  obtain rfl : inside = [] := h
  exact ⟨_, .mk (w := [a]) (List.cons_ne_nil a []) (by simpa using Nat.succ_le_of_lt hcap)⟩

/-- At the end the reader has the text. -/
theorem Flow.got_eq (h : f.inside = []) (hrest : f.rest = []) : f.got = f.text := by
  rw [Flow.text, h, hrest, List.append_nil, List.append_nil]

end Pipe
