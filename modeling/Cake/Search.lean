import Cake.Isolation

/-! The search for the makefile in `main`.

    When the makefile is not in the current directory, `main` goes up one directory at a time, at most
    eight times, and looks again after each step. The parent is found in the text of `getcwd`: the
    last component is cut off with its slash, and a text without any slash ends the search.

        /a/b ──▶ /a ──▶ "" : no slash, stop        the root is never entered from below
        /    ──▶ /  ──▶ …                           eight rounds, in place

    A text of 260 characters does not fit into `cwd`, and then the buffer holds anything. -/

namespace Cake

/-- A directory, by the names that lead to it from the root. -/
abbrev Dir := List {s : Str // IsName s}

instance (c : Str) : Decidable (IsName c) :=
  decidable_of_iff (c ≠ [] ∧ '/' ∉ c ∧ c ≠ ".".toList ∧ c ≠ "..".toList)
    ⟨fun h => ⟨h.1, h.2.1, h.2.2.1, h.2.2.2⟩, fun h => ⟨h.nonempty, h.slash, h.here, h.up⟩⟩

namespace Dir

/-- The absolute path. -/
def text (d : Dir) : Str := if d.isEmpty then ['/'] else d.flatMap fun n => '/' :: n.val

/-- One component of a path. -/
def enter (d : Dir) (c : Str) : Dir :=
  if c = "..".toList then d.dropLast
  else if h : IsName c then d ++ [⟨c, h⟩]
  else d

/-- `chdir(p)` to a directory that exists and can be entered. -/
def chdir (d : Dir) (p : Str) : Dir :=
  (components p).foldl enter (if p.head? = some '/' then [] else d)

/-- `getcwd(cwd, 260)`; none when the path does not fit with its NUL. -/
def getcwd (d : Dir) : Option Str := if d.text.length < 260 then some d.text else none

/-- The directory `k` levels up. -/
def ancestor (d : Dir) (k : ℕ) : Dir := d.take (d.length - k)

theorem text_concat (d : Dir) (n : {s : Str // IsName s}) :
    text (d ++ [n]) = (if d.isEmpty then [] else d.text) ++ '/' :: n.val := by
  cases d with
  | nil => simp [text]
  | cons m d => simp [text]

theorem text_head (d : Dir) : d.text.head? = some '/' := by
  cases d <;> rfl

theorem components_text (d : Dir) : components d.text = d.map (·.val) := by
  induction d using List.reverseRecOn with
  | nil => rfl
  | append_singleton d n ih =>
    rw [text_concat, components_slash, n.property.components, List.map_append]
    cases d with
    | nil => rfl
    | cons m d => rw [List.isEmpty_cons, if_neg (by decide), ih]; rfl

theorem foldl_enter (d base : Dir) : (d.map (·.val)).foldl enter base = base ++ d := by
  induction d generalizing base with
  | nil => simp
  | cons n d ih =>
    rw [List.map_cons, List.foldl_cons, enter, if_neg n.property.up, dif_pos n.property, ih]
    simp

/-- The text of a directory leads to it, from anywhere. -/
theorem chdir_text (d' d : Dir) : chdir d' d.text = d := by
  rw [chdir, if_pos (text_head d), components_text, foldl_enter, List.nil_append]

end Dir

/-- The body of the loop up to the test: the text left in `parent`. -/
def parentText (cwd : Str) : Str :=
  match strrchr '/' cwd with
  | some (before, after) => if after.isEmpty then cwd else before
  | none => cwd

/-- The loop with `nloops` rounds left, where `found` tells whether the makefile is in a directory; none
    when `getcwd` fails. -/
def climb (found : Dir → Bool) : ℕ → Dir → Option Dir
  | 0, d => some d
  | nloops + 1, d =>
    match d.getcwd with
    | none => none
    | some cwd =>
      let parent := parentText cwd
      if (strchr '/' parent).isNone then some d
      else if found (d.chdir parent) then some (d.chdir parent)
      else climb found nloops (d.chdir parent)

/-- Where `main` is when it opens the makefile. -/
def findMakefile (found : Dir → Bool) (start : Dir) : Option Dir :=
  if found start then some start else climb found 8 start

/-- The search ends, and in the nearest directory with the makefile if one of the nine has it. -/
def FindsNearest (found : Dir → Bool) (start : Dir) : Prop :=
  ∃ d, findMakefile found start = some d ∧
    ∀ k ≤ 8, k ≤ start.length → found (start.ancestor k) = true →
      (∀ j < k, found (start.ancestor j) = false) → d = start.ancestor k

/-! ### Going up -/

open Dir

theorem parentText_concat (d : Dir) (n : {s : Str // IsName s}) :
    parentText (text (d ++ [n])) = if d.isEmpty then [] else d.text := by
  rw [text_concat, parentText, strrchr_append n.property.slash]
  simp [n.property.nonempty]

/-- Where the loop ends in abstract terms: up until the makefile is there, but never to the root. -/
def ascend (found : Dir → Bool) : ℕ → Dir → Dir
  | 0, d => d
  | nloops + 1, d =>
    if d.length ≤ 1 then d
    else if found d.dropLast then d.dropLast
    else ascend found nloops d.dropLast

theorem climb_root (found : Dir → Bool) (nloops : ℕ) : climb found nloops [] = some [] := by
  induction nloops with
  | zero => rfl
  | succ nloops ih =>
    have hparent : parentText ['/'] = text [] := rfl
    have hslash : strchr '/' (text []) = some [] := rfl
    have hcwd : getcwd [] = some ['/'] := rfl
    rw [climb, hcwd]
    dsimp only
    rw [hparent, hslash, chdir_text, ih]
    simp

theorem text_le_concat (d : Dir) (n : {s : Str // IsName s}) (hd : d ≠ []) :
    d.text.length ≤ (text (d ++ [n])).length := by
  rw [text_concat, if_neg (by simpa using hd), List.length_append]
  omega

/-- The slash at the front of a path that is not cut off. -/
theorem strchr_text {d : Dir} (hd : d ≠ []) : (strchr '/' d.text).isNone = false := by
  cases d with
  | nil => exact absurd rfl hd
  | cons n d => rfl

/-- While the paths fit into the buffer, the loop ascends. -/
theorem climb_eq {found : Dir → Bool} {nloops : ℕ} {d : Dir} (h : d.text.length < 260) :
    climb found nloops d = some (ascend found nloops d) := by
  induction nloops generalizing d with
  | zero => rfl
  | succ nloops ih =>
    rcases List.eq_nil_or_concat' d with rfl | ⟨p, n, rfl⟩
    · rw [climb_root]
      rfl
    · have hcwd : getcwd (p ++ [n]) = some (text (p ++ [n])) := if_pos h
      rw [climb, hcwd]
      dsimp only
      rw [parentText_concat]
      by_cases hp : p = []
      · subst hp
        rfl
      · have hlen : ¬ (p ++ [n]).length ≤ 1 := by
          have := List.length_pos_iff.mpr hp
          rw [List.length_append, List.length_singleton]
          omega
        have hfits := (text_le_concat p n hp).trans_lt h
        have hempty : p.isEmpty = false := by simpa using hp
        simp only [hempty, Bool.false_eq_true, if_false, strchr_text hp, chdir_text]
        rw [ascend, if_neg hlen, List.dropLast_concat, ih hfits]
        split <;> rfl

/-- A path that does not fit leaves the search without a directory. -/
theorem climb_long {found : Dir → Bool} {nloops : ℕ} {d : Dir} (h : 260 ≤ d.text.length) :
    climb found (nloops + 1) d = none := by
  rw [climb, getcwd, if_neg (by omega)]

theorem ancestor_zero (d : Dir) : d.ancestor 0 = d := by
  rw [ancestor, Nat.sub_zero, List.take_length]

theorem ancestor_length (d : Dir) : d.ancestor d.length = [] := by
  rw [ancestor, Nat.sub_self, List.take_zero]

theorem ancestor_succ (d : Dir) (k : ℕ) : d.ancestor (k + 1) = ancestor d.dropLast k := by
  rw [ancestor, ancestor, List.dropLast_eq_take, List.take_take, List.length_take]
  congr 1
  omega

theorem ascend_ne_nil (found : Dir → Bool) (nloops : ℕ) {d : Dir} (h : d ≠ []) :
    ascend found nloops d ≠ [] := by
  induction nloops generalizing d with
  | zero => exact h
  | succ nloops ih =>
    rw [ascend]
    split
    · exact h
    · rename_i hlen
      have hne : d.dropLast ≠ [] := by
        rw [← List.length_pos_iff, List.length_dropLast]
        omega
      split
      · exact hne
      · exact ih hne

/-- The nearest directory above, short of the root. -/
theorem ascend_nearest {found : Dir → Bool} {nloops k : ℕ} {d : Dir} (hk : k + 1 ≤ nloops)
    (hlen : k + 1 < d.length) (hfound : found (d.ancestor (k + 1)) = true)
    (hbelow : ∀ j < k, found (d.ancestor (j + 1)) = false) :
    ascend found nloops d = d.ancestor (k + 1) := by
  induction nloops generalizing k d with
  | zero => omega
  | succ nloops ih =>
    rw [ascend, if_neg (by omega)]
    rw [ancestor_succ] at hfound ⊢
    cases k with
    | zero =>
      rw [ancestor_zero] at hfound ⊢
      rw [if_pos hfound]
    | succ k =>
      have hfirst := hbelow 0 (by omega)
      rw [ancestor_succ, ancestor_zero] at hfirst
      rw [if_neg (by rw [hfirst]; decide)]
      refine ih (by omega) ?_ hfound ?_
      · rw [List.length_dropLast]
        omega
      · intro j hj
        rw [← ancestor_succ]
        exact hbelow (j + 1) (by omega)

/-- The search is right when the makefile is in the current directory, or the path fits into the buffer
    and the only directory in reach with the makefile is not the root. -/
theorem findsNearest_iff (found : Dir → Bool) (start : Dir) :
    FindsNearest found start ↔ found start = true ∨
      start.text.length < 260 ∧ ¬ (start.length ≤ 8 ∧ found [] = true ∧
        ∀ k < start.length, found (start.ancestor k) = false) := by
  constructor
  · rintro ⟨d, hd, hnearest⟩
    -- the root is the only place the search can miss, and never where it ends
    refine or_iff_not_imp_left.mpr fun hstart => ?_
    rw [findMakefile, if_neg hstart] at hd
    have hfits : start.text.length < 260 := by
      by_contra hlong
      rw [climb_long (by omega)] at hd
      exact absurd hd (by simp)
    refine ⟨hfits, ?_⟩
    rintro ⟨hdeep, hroot, hnone⟩
    have hne : start ≠ [] := by
      rintro rfl
      exact hstart hroot
    have hend := hnearest start.length hdeep le_rfl (by rwa [ancestor_length]) hnone
    rw [climb_eq hfits, Option.some.injEq, hend, ancestor_length] at hd
    exact ascend_ne_nil found 8 hne hd
  · intro h
    by_cases hstart : found start = true
    · refine ⟨start, if_pos hstart, fun k _ _ _ hbelow => ?_⟩
      cases k with
      | zero => rw [ancestor_zero]
      | succ k =>
        have hzero := hbelow 0 (by omega)
        rw [ancestor_zero, hstart] at hzero
        exact Bool.noConfusion hzero
    · obtain ⟨hfits, hroot⟩ := h.resolve_left hstart
      refine ⟨ascend found 8 start, ?_, fun k hk hlen hfound hbelow => ?_⟩
      · rw [findMakefile, if_neg hstart, climb_eq hfits]
      · cases k with
        | zero => exact absurd (ancestor_zero start ▸ hfound) hstart
        | succ k =>
          rcases hlen.lt_or_eq with hlt | heq
          · exact ascend_nearest hk hlt hfound fun j hj => hbelow (j + 1) (by omega)
          · refine absurd ⟨heq ▸ hk, ?_, ?_⟩ hroot
            · rwa [heq, ancestor_length] at hfound
            · exact fun j hj => hbelow j (heq ▸ hj)

/-- Started in `/a` with the makefile in `/`, the search stays in `/a`. -/
theorem findsNearest_below_root :
    findMakefile List.isEmpty [⟨['a'], by decide⟩] = some [⟨['a'], by decide⟩] ∧
      ¬ FindsNearest List.isEmpty [⟨['a'], by decide⟩] := by
  have hstay : findMakefile List.isEmpty [⟨['a'], by decide⟩] = some [⟨['a'], by decide⟩] := by
    decide
  refine ⟨hstay, ?_⟩
  rintro ⟨d, hd, hnearest⟩
  have hbelow : ∀ j < 1, List.isEmpty (ancestor [⟨['a'], by decide⟩] j) = false := by
    intro j hj
    obtain rfl : j = 0 := by omega
    rfl
  have hroot : d = [] := hnearest 1 (by omega) le_rfl rfl hbelow
  rw [hstay, hroot] at hd
  exact absurd hd (by decide)

end Cake
