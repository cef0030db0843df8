import Mathlib.Data.List.Basic

/-! Splitting a text into its tokens, the maximal runs of characters that are not delimiters: what a
    loop of `strtok` calls with one delimiter set enumerates.

    A delimiter cuts the text in two texts that are read apart (`tokens_append`), a text without one is
    one token (`tokens_word`), and the tokens put together are the text without its delimiters
    (`tokens_flatten`). -/

namespace Tokens

variable {α : Type*} {isDelim : α → Bool}

/-- Reads the text left to right; `run` is the token being read, last character first. -/
def scan (isDelim : α → Bool) : List α → List α → List (List α)
  | run, [] => if run.isEmpty then [] else [run.reverse]
  | run, x :: xs =>
    if isDelim x then
      if run.isEmpty then scan isDelim [] xs else run.reverse :: scan isDelim [] xs
    else scan isDelim (x :: run) xs

/-- The tokens of a text, in order. -/
def tokens (isDelim : α → Bool) (text : List α) : List (List α) := scan isDelim [] text

theorem scan_append {d : α} (hd : isDelim d = true) : ∀ (a run b : List α),
    scan isDelim run (a ++ d :: b) = scan isDelim run a ++ scan isDelim [] b
  | [], run, b => by
    rw [List.nil_append, scan, scan, if_pos hd]
    split <;> rfl
  | x :: a, run, b => by
    rw [List.cons_append, scan, scan, scan_append hd a [] b, scan_append hd a (x :: run) b]
    split
    · split <;> rfl
    · rfl

/-- A delimiter cuts the text in two. -/
theorem tokens_append {d : α} (hd : isDelim d = true) (a b : List α) :
    tokens isDelim (a ++ d :: b) = tokens isDelim a ++ tokens isDelim b := scan_append hd a [] b

/-- A delimiter at the front is passed over. -/
theorem tokens_cons {d : α} (hd : isDelim d = true) (b : List α) :
    tokens isDelim (d :: b) = tokens isDelim b := tokens_append hd [] b

theorem scan_word : ∀ {w : List α} (run : List α), (∀ x ∈ w, isDelim x = false) → run ≠ [] →
    scan isDelim run w = [run.reverse ++ w]
  | [], run, _, hr => by
    rw [scan, if_neg (by simpa using hr), List.append_nil]
  | x :: w, run, h, _ => by
    obtain ⟨hx, hw⟩ := List.forall_mem_cons.mp h
    rw [scan, if_neg (by simp [hx]), scan_word (x :: run) hw (by simp)]
    simp

/-- A text without delimiters is one token. -/
theorem tokens_word {w : List α} (h : ∀ x ∈ w, isDelim x = false) (hne : w ≠ []) :
    tokens isDelim w = [w] := by
  cases w with
  | nil => exact absurd rfl hne
  | cons x w =>
    obtain ⟨hx, hw⟩ := List.forall_mem_cons.mp h
    rw [tokens, scan, if_neg (by simp [hx]), scan_word [x] hw (by simp)]
    rfl

theorem scan_flatten : ∀ (text run : List α),
    (scan isDelim run text).flatten = run.reverse ++ text.filter (fun x => !isDelim x)
  | [], run => by
    rw [scan]
    split
    · rename_i h
      simp [List.isEmpty_iff.mp h]
    · simp
  | x :: text, run => by
    rw [scan]
    cases hx : isDelim x with
    | false => simp [scan_flatten text (x :: run), hx]
    | true =>
      simp only [if_true]
      split
      · rename_i h
        simp [scan_flatten text [], hx, List.isEmpty_iff.mp h]
      · simp [scan_flatten text [], hx]

/-- The tokens put together are the text without its delimiters. -/
theorem tokens_flatten (text : List α) :
    (tokens isDelim text).flatten = text.filter (fun x => !isDelim x) := scan_flatten text []

theorem scan_mem : ∀ {text run : List α}, (∀ x ∈ run, isDelim x = false) →
    ∀ t ∈ scan isDelim run text, t ≠ [] ∧ ∀ x ∈ t, isDelim x = false
  | [], run, hr, t, ht => by
    rw [scan] at ht
    split at ht
    · exact absurd ht List.not_mem_nil
    · rename_i hne
      rw [List.mem_singleton.mp ht]
      exact ⟨by simpa using hne, fun x hx => hr x (List.mem_reverse.mp hx)⟩
  | x :: text, run, hr, t, ht => by
    rw [scan] at ht
    cases hx : isDelim x with
    | false =>
      rw [hx] at ht
      exact scan_mem (List.forall_mem_cons.mpr ⟨hx, hr⟩) t ht
    | true =>
      simp only [hx, if_true] at ht
      split at ht
      · exact scan_mem (by simp) t ht
      · rename_i hne
        rcases List.mem_cons.mp ht with rfl | ht
        · exact ⟨by simpa using hne, fun x hx => hr x (List.mem_reverse.mp hx)⟩
        · exact scan_mem (by simp) t ht

/-- A token is not empty and holds no delimiter. -/
theorem tokens_mem {text t : List α} (h : t ∈ tokens isDelim text) :
    t ≠ [] ∧ ∀ x ∈ t, isDelim x = false := scan_mem (by simp) t h

/-- A text with something beside delimiters has a token. -/
theorem tokens_ne_nil {text : List α} {x : α} (hx : x ∈ text) (hd : isDelim x = false) :
    tokens isDelim text ≠ [] := by
  intro h
  have hf := @tokens_flatten _ isDelim text
  rw [h, List.flatten_nil] at hf
  have hmem : x ∈ text.filter (fun x => !isDelim x) := List.mem_filter.mpr ⟨hx, by simp [hd]⟩
  rw [← hf] at hmem
  exact absurd hmem List.not_mem_nil

theorem scan_splitOnP : ∀ (text run : List α),
    scan isDelim run text = (text.splitOnPPrepend isDelim run).filter (fun t => !t.isEmpty)
  | [], run => by
    rw [scan, List.splitOnPPrepend_nil]
    cases run <;> simp
  | x :: text, run => by
    rw [scan]
    cases hx : isDelim x with
    | false => simp [List.splitOnPPrepend_cons_neg hx, scan_splitOnP text (x :: run)]
    | true =>
      have ih := scan_splitOnP text []
      rw [List.splitOnPPrepend_nil_right] at ih
      rw [if_pos rfl, List.splitOnPPrepend_cons_pos hx, ih]
      cases run <;> simp

/-- The tokens are what stands between the delimiters, where something does. -/
theorem tokens_splitOnP (text : List α) :
    tokens isDelim text = (text.splitOnP isDelim).filter (fun t => !t.isEmpty) := scan_splitOnP text []

/-! ### Texts that are read one by one -/

theorem length_le_flatMap {f : List α → List (List α)} : ∀ {names : List (List α)},
    (∀ s ∈ names, f s ≠ []) → names.length ≤ (names.flatMap f).length
  | [], _ => Nat.le_refl 0
  | s :: names, h => by
    obtain ⟨hs, hrest⟩ := List.forall_mem_cons.mp h
    have hpos := List.length_pos_of_ne_nil hs
    have ih := length_le_flatMap hrest
    rw [List.flatMap_cons, List.length_append, List.length_cons]
    omega

/-- Texts none of which is empty come back exactly when each comes back by itself. -/
theorem flatMap_eq_self {f : List α → List (List α)} : ∀ {names : List (List α)},
    (∀ s ∈ names, f s ≠ []) → (names.flatMap f = names ↔ ∀ s ∈ names, f s = [s])
  | [], _ => by simp
  | s :: names, h => by
    obtain ⟨hs, hrest⟩ := List.forall_mem_cons.mp h
    rw [List.flatMap_cons, List.forall_mem_cons, ← flatMap_eq_self hrest]
    constructor
    · intro heq
      have hlen := congrArg List.length heq
      have hpos := List.length_pos_of_ne_nil hs
      have hle := length_le_flatMap hrest
      rw [List.length_append, List.length_cons] at hlen
      obtain ⟨x, hx⟩ := List.length_eq_one_iff.mp (show (f s).length = 1 by omega)
      rw [hx, List.singleton_append, List.cons.injEq] at heq
      exact ⟨by rw [hx, heq.1], heq.2⟩
    · rintro ⟨hhead, htail⟩
      rw [hhead, htail, List.singleton_append]

end Tokens
