import Mathlib.Order.Lattice
import Cake.World

/-! The rebuild decision: `file::is_changed`, `file::is_older` and `build::needs_rebuild`.

    A source is up to date when its dependency file can be read and none of the files it lists is
    newer than the object. The scan stops at the first newer one; what it has seen by then raises
    the global `newest_time`, which `is_older` compares with an output.

        no dep file / no ':' ──▶ rebuild, newest_time unchanged
        token newer, missing, or makefile newer ──▶ rebuild, the rest of the tokens unseen
        no such token ──▶ skip, newest_time covers every token -/

namespace Cake

/-- `file::exists`. -/
def existsFile (fs : FS) (p : Str) : Bool := (fs p).isSome

/-- `file::is_changed`: the answer and the new `newest_time`. -/
def isChanged (fs : FS) (makefileTime newest : ℕ) (filename compare : Str) : Bool × ℕ :=
  match fs filename with
  | none => (true, newest)
  | some f =>
    match fs compare with
    | none => (true, newest)
    | some c =>
      if makefileTime > c.mtime then (true, newest)
      else (decide (f.mtime > c.mtime), if f.mtime > newest then f.mtime else newest)

/-- `file::is_older`. -/
def isOlder (fs : FS) (makefileTime newest : ℕ) (filename : Str) : Bool :=
  match fs filename with
  | none => true
  | some f => if makefileTime > f.mtime then true else decide (newest > f.mtime)

/-- `build::file_is_newer`. -/
def fileIsNewer (fs : FS) (makefileTime newest : ℕ) (fname comparedTo : Str) : Bool × ℕ :=
  if existsFile fs comparedTo then isChanged fs makefileTime newest fname comparedTo
  else (true, newest)

/-- `file::read_file`: null for a missing and for an empty file. -/
def readFile (fs : FS) (p : Str) : Option Str :=
  match fs p with
  | none => none
  | some f => if f.data.isEmpty then none else some f.data

/-- The delimiters of the dependency scan: space, backslash, newline, return, tab. -/
def depDelim (c : Char) : Bool := [' ', '\\', '\n', '\r', '\t'].contains c

/-- The tokens after the first colon of the text, which ends at its first NUL. -/
def depTokens (contents : Str) : Option (List Str) :=
  (strchr ':' (contents.takeWhile (· != '\x00'))).map (Tokens.tokens depDelim)

/-- The prerequisites listed in dependency file `dep`; none when there is no list. -/
def listed (fs : FS) (dep : Str) : Option (List Str) := (readFile fs dep).bind depTokens

/-- The token loop of `needs_rebuild`. -/
def scanDeps (fs : FS) (makefileTime : ℕ) (objname : Str) : ℕ → List Str → Bool × ℕ
  | newest, [] => (false, newest)
  | newest, token :: rest =>
    match fileIsNewer fs makefileTime newest token objname with
    | (true, newest) => (true, newest)
    | (false, newest) => scanDeps fs makefileTime objname newest rest

/-- `build::needs_rebuild` with dependency file `dep`: the answer and the new `newest_time`. -/
def needsRebuild (rebuild : Bool) (fs : FS) (makefileTime newest : ℕ) (dep objname : Str) :
    Bool × ℕ :=
  if rebuild then (true, newest)
  else match listed fs dep with
    | none => (true, newest)
    | some tokens => scanDeps fs makefileTime objname newest tokens

/-- The token passes `file_is_newer`: it exists, and so does the object, which is at least as new
    as the token and the makefile. -/
def Passes (fs : FS) (makefileTime : ℕ) (objname token : Str) : Prop :=
  ∃ o f, fs objname = some o ∧ fs token = some f ∧ makefileTime ≤ o.mtime ∧ f.mtime ≤ o.mtime

/-- The mtime of a file; 0 when it is missing. -/
def mtimeOf (fs : FS) (p : Str) : ℕ := ((fs p).map (·.mtime)).getD 0

theorem mtimeOf_congr {fs fs' : FS} {o : Str} (h : fs' o = fs o) : mtimeOf fs' o = mtimeOf fs o := by
  rw [mtimeOf, mtimeOf, h]

variable {fs : FS} {mk newest : ℕ} {objname dep : Str}

theorem fileIsNewer_false {token : Str} {n : ℕ} :
    fileIsNewer fs mk newest token objname = (false, n) ↔
      Passes fs mk objname token ∧ n = max newest (mtimeOf fs token) := by
  rw [fileIsNewer, isChanged, existsFile, Passes, mtimeOf]
  cases ho : fs objname with
  | none => simp
  | some o =>
    cases ht : fs token with
    | none => simp
    | some f =>
      by_cases hm : mk > o.mtime
      · simp only [Option.isSome_some, if_true, hm, Prod.mk.injEq, Bool.true_eq_false, false_and,
          Option.some.injEq, false_iff, not_and]
        rintro ⟨_, _, rfl, rfl, hle, _⟩
        omega
      · simp only [Option.isSome_some, if_true, hm, if_false, Prod.mk.injEq, decide_eq_false_iff_not,
          Option.some.injEq, Option.map_some, Option.getD_some]
        constructor
        · rintro ⟨hf, rfl⟩
          exact ⟨⟨o, f, rfl, rfl, by omega, by omega⟩, by split <;> omega⟩
        · rintro ⟨⟨_, _, rfl, rfl, _, hf⟩, rfl⟩
          exact ⟨by omega, by split <;> omega⟩

/-- The loop lets the object stand iff every token passes, and then it has seen every mtime. -/
theorem scanDeps_false : ∀ {tokens : List Str} {newest n : ℕ},
    scanDeps fs mk objname newest tokens = (false, n) ↔
      (∀ t ∈ tokens, Passes fs mk objname t) ∧
        n = tokens.foldl (fun n t => max n (mtimeOf fs t)) newest
  | [], newest, n => by simp [scanDeps, eq_comm]
  | t :: ts, newest, n => by
    rw [scanDeps]
    rcases hf : fileIsNewer fs mk newest t objname with ⟨_ | _, m⟩
    · obtain ⟨hp, rfl⟩ := fileIsNewer_false.mp hf
      simp only [scanDeps_false, List.forall_mem_cons, List.foldl_cons, hp, true_and]
    · have hno : ¬ Passes fs mk objname t := fun hp => by
        rw [fileIsNewer_false.mpr ⟨hp, rfl⟩] at hf
        simp at hf
      simp [hno]

theorem fileIsNewer_newest (fs : FS) (mk newest : ℕ) (token objname : Str) :
    newest ≤ (fileIsNewer fs mk newest token objname).2 := by
  rw [fileIsNewer, isChanged]
  split
  · split
    · exact le_rfl
    · split
      · exact le_rfl
      · split
        · exact le_rfl
        · dsimp only; split <;> omega
  · exact le_rfl

theorem scanDeps_newest (fs : FS) (mk : ℕ) (objname : Str) : ∀ (tokens : List Str) (newest : ℕ),
    newest ≤ (scanDeps fs mk objname newest tokens).2
  | [], _ => le_rfl
  | t :: ts, newest => by
    have h := fileIsNewer_newest fs mk newest t objname
    rw [scanDeps]
    rcases hf : fileIsNewer fs mk newest t objname with ⟨_ | _, m⟩
    · rw [hf] at h
      exact h.trans (scanDeps_newest fs mk objname ts m)
    · rw [hf] at h
      exact h

/-- `newest_time` does not go back. -/
theorem needsRebuild_newest (rebuild : Bool) (fs : FS) (mk newest : ℕ) (dep objname : Str) :
    newest ≤ (needsRebuild rebuild fs mk newest dep objname).2 := by
  rw [needsRebuild]
  split
  · exact le_rfl
  · split
    · exact le_rfl
    · exact scanDeps_newest ..

theorem foldl_max_le {α : Type} (f : α → ℕ) (m : ℕ) : ∀ (l : List α) (n : ℕ),
    l.foldl (fun n t => max n (f t)) n ≤ m ↔ n ≤ m ∧ ∀ t ∈ l, f t ≤ m
  | [], n => by simp
  | a :: l, n => by
    rw [List.foldl_cons, foldl_max_le f m l, List.forall_mem_cons, Nat.max_le, and_assoc]

theorem le_foldl_max {α : Type} (f : α → ℕ) (l : List α) (n : ℕ) :
    n ≤ l.foldl (fun n t => max n (f t)) n ∧ ∀ t ∈ l, f t ≤ l.foldl (fun n t => max n (f t)) n :=
  (foldl_max_le f _ l n).mp le_rfl

/-- `needs_rebuild` lets an object stand exactly when its dependency file lists tokens that all
    pass; `newest_time` then covers all of them. -/
theorem needsRebuild_false {rebuild : Bool} {n : ℕ} :
    needsRebuild rebuild fs mk newest dep objname = (false, n) ↔
      rebuild = false ∧ ∃ tokens, listed fs dep = some tokens ∧
        (∀ t ∈ tokens, Passes fs mk objname t) ∧
        n = tokens.foldl (fun n t => max n (mtimeOf fs t)) newest := by
  rw [needsRebuild]
  cases rebuild with
  | true => simp
  | false =>
    cases hl : listed fs dep with
    | none => simp
    | some tokens => simp [scanDeps_false]

/-- Whether an object stands does not depend on what has been seen before. -/
theorem kept_iff {rebuild : Bool} :
    (needsRebuild rebuild fs mk newest dep objname).1 = false ↔
      rebuild = false ∧ ∃ tokens, listed fs dep = some tokens ∧ ∀ t ∈ tokens, Passes fs mk objname t := by
  constructor
  · intro h
    obtain ⟨hr, tokens, hl, hp, _⟩ := needsRebuild_false.mp (Prod.ext h rfl)
    exact ⟨hr, tokens, hl, hp⟩
  · rintro ⟨hr, tokens, hl, hp⟩
    rw [needsRebuild_false.mpr ⟨hr, tokens, hl, hp, rfl⟩]

/-- What a skipped object and its dependency file look like, to a process that has seen `newest`. -/
def Stands (fs : FS) (mk newest : ℕ) (dep objname : Str) : Prop :=
  ∃ tokens, listed fs dep = some tokens ∧
    ∀ t ∈ tokens, Passes fs mk objname t ∧ mtimeOf fs t ≤ newest

theorem stands_of_needsRebuild {rebuild : Bool} {n : ℕ}
    (h : needsRebuild rebuild fs mk newest dep objname = (false, n)) :
    rebuild = false ∧ Stands fs mk n dep objname := by
  obtain ⟨hr, tokens, hl, hp, rfl⟩ := needsRebuild_false.mp h
  exact ⟨hr, tokens, hl, fun t ht => ⟨hp t ht, (le_foldl_max (mtimeOf fs) tokens newest).2 t ht⟩⟩

theorem isOlder_false {p : Str} :
    isOlder fs mk newest p = false ↔ ∃ f, fs p = some f ∧ mk ≤ f.mtime ∧ newest ≤ f.mtime := by
  rw [isOlder]
  cases fs p with
  | none => simp
  | some f =>
    by_cases hm : mk > f.mtime
    · simp [hm]
    · simp [hm]; omega

end Cake
