import Mathlib.Data.List.Basic
import Mathlib.Order.Nat

/-! Texts in buffers of a fixed size, and which places are written on the way.

    `strcpy` and `strcat` write every character of the source and a terminator behind it; nothing asks
    how large the buffer is. `Within n` says that a buffer of `n` places would have been enough.

        strcpy abc      a b c 0             writes 0 1 2 3
        strcat de       a b c d e 0         writes 3 4 5 -/

namespace Buffer

variable {α : Type*}

/-- The text in the buffer, up to the terminator, and the indices written so far. -/
structure Buf (α : Type*) where
  text : List α
  written : List ℕ

def strcpy (src : List α) : Buf α := ⟨src, List.range (src.length + 1)⟩

/-- `char buf[n] = text`: the rest of the array is filled with zeros. -/
def initialized (n : ℕ) (text : List α) : Buf α := ⟨text, List.range n⟩

namespace Buf

def strcat (b : Buf α) (src : List α) : Buf α :=
  ⟨b.text ++ src, b.written ++ List.range' b.text.length (src.length + 1)⟩

/-- `b[i] = c` within the text. -/
def poke (b : Buf α) (i : ℕ) (c : α) : Buf α := ⟨b.text.set i c, b.written ++ [i]⟩

/-- The terminator is written at `i`, in the text or at its end. -/
def terminate (b : Buf α) (i : ℕ) : Buf α := ⟨b.text.take i, b.written ++ [i]⟩

/-- Everything was written below `n`. -/
def Within (n : ℕ) (b : Buf α) : Prop := ∀ i ∈ b.written, i < n

instance (n : ℕ) (b : Buf α) : Decidable (b.Within n) :=
  inferInstanceAs (Decidable (∀ i ∈ b.written, i < n))

variable {b : Buf α} {n i : ℕ}

theorem within_initialized (n : ℕ) (text : List α) : (initialized n text).Within n :=
  fun _ hi => List.mem_range.mp hi

theorem within_strcpy {src : List α} : (strcpy src).Within n ↔ src.length < n := by
  constructor
  · intro h
    exact h src.length (by simp [strcpy])
  · intro h i hi
    have hlt := List.mem_range.mp hi
    omega

theorem within_strcat {src : List α} :
    (b.strcat src).Within n ↔ b.Within n ∧ b.text.length + src.length < n := by
  constructor
  · intro h
    refine ⟨fun i hi => h i (List.mem_append_left _ hi), h _ (List.mem_append_right _ ?_)⟩
    rw [List.mem_range'_1]
    omega
  · rintro ⟨hb, hlen⟩ i hi
    rcases List.mem_append.mp hi with hi | hi
    · exact hb i hi
    · rw [List.mem_range'_1] at hi
      omega

theorem within_poke {c : α} : (b.poke i c).Within n ↔ b.Within n ∧ i < n := by
  simp [Within, poke, or_imp, forall_and]

theorem within_terminate : (b.terminate i).Within n ↔ b.Within n ∧ i < n := by
  simp [Within, terminate, or_imp, forall_and]

/-- Copying and appending reaches as far as the whole text. -/
theorem within_copy_append {s₁ s₂ : List α} :
    ((strcpy s₁).strcat s₂).Within n ↔ s₁.length + s₂.length < n := by
  have htext : (strcpy s₁).text = s₁ := rfl
  rw [within_strcat, within_strcpy, htext]
  omega

end Buf

end Buffer
