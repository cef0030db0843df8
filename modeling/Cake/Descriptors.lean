import Cake.Stamps

/-! The open descriptors of a cake process: `file::read_file` and `ExecuteCommand` with output.

    `read_file` leaves the file of a non-empty text open, and the parent of a grabbed command keeps
    its end of the pipe. Nothing gives these descriptors back. At the limit `fopen` fails, and
    `needs_rebuild` takes a dependency file that it cannot read for one that is not there.

        read_file        fopen ──▶ size > 0 ──▶ the text            one more open
                               └─▶ size = 0 ──▶ fclose ──▶ null
        ExecuteCommand   pipe ──▶ fork ──▶ close write end ──▶ read ──▶ wait     one more open
                           └─▶ exit  └─▶ reads from itself, for ever -/

namespace Cake

/-- `fopen` of a readable file, by the descriptors open after it. -/
def openFile (limit opened : ℕ) : Option ℕ := if limit ≤ opened then none else some (opened + 1)

/-- `pipe`, by the descriptors open after it. -/
def openPipe (limit opened : ℕ) : Option ℕ := if limit < opened + 2 then none else some (opened + 2)

/-- `fclose`, or `close` of one end of a pipe. -/
def closeOne (opened : ℕ) : ℕ := opened - 1

/-- `file::read_file` and the descriptors open after it. -/
def readFileAt (limit : ℕ) (fs : FS) (p : Str) (opened : ℕ) : Option Str × ℕ :=
  match fs p with
  | none => (none, opened)
  | some f =>
    match openFile limit opened with
    | none => (none, opened)
    | some opened => if f.data.isEmpty then (none, closeOne opened) else (some f.data, opened)

/-- `build::needs_rebuild` with dependency file `dep`, and the descriptors open after it. -/
def needsRebuildAt (limit : ℕ) (rebuild : Bool) (fs : FS) (makefileTime newest : ℕ)
    (dep objname : Str) (opened : ℕ) : (Bool × ℕ) × ℕ :=
  if rebuild then ((true, newest), opened)
  else if !existsFile fs dep then ((true, newest), opened)
  else match readFileAt limit fs dep opened with
    | (none, opened) => ((true, newest), opened)
    | (some contents, opened) =>
      match depTokens contents with
      | none => ((true, newest), opened)
      | some tokens => (scanDeps fs makefileTime objname newest tokens, opened)

/-- How `ExecuteCommand` with output ends: `exit(-1)`, never (its own write end keeps its `read`
    waiting), or with so many descriptors open. -/
inductive Grab where | exited | blocked | returned (opened : ℕ)
  deriving DecidableEq

/-- `ExecuteCommand` with output; `forked` is whether the fork succeeds. -/
def executeGrab (limit : ℕ) (forked : Bool) (opened : ℕ) : Grab :=
  match openPipe limit opened with
  | none => .exited
  | some opened => if forked then .returned (closeOne opened) else .blocked

/-- An earlier call of the run. -/
inductive Earlier where
  | check (rebuild : Bool) (fs : FS) (makefileTime newest : ℕ) (dep objname : Str)
  | grab (forked : Bool)

/-- The descriptors open after the call; none when it does not return. -/
def Earlier.run (limit opened : ℕ) : Earlier → Option ℕ
  | .check rebuild fs mk newest dep objname =>
    some (needsRebuildAt limit rebuild fs mk newest dep objname opened).2
  | .grab forked =>
    match executeGrab limit forked opened with
    | .returned opened => some opened
    | _ => none

/-- The descriptors open after a history of calls. -/
def earlier (limit : ℕ) : ℕ → List Earlier → Option ℕ
  | opened, [] => some opened
  | opened, c :: calls => (c.run limit opened).bind fun opened => earlier limit opened calls

/-- The call reads a text, of a dependency file or of a command. -/
def Earlier.reads : Earlier → Bool
  | .check rebuild fs _ _ dep _ => !rebuild && (readFile fs dep).isSome
  | .grab _ => true

/-- No rebuild is asked for, and the dependency file lists files none of which is missing or newer
    than the object. -/
def LooksCurrent (rebuild : Bool) (fs : FS) (makefileTime : ℕ) (dep objname : Str) : Prop :=
  rebuild = false ∧ ∃ tokens, listed fs dep = some tokens ∧
    ∀ t ∈ tokens, Passes fs makefileTime objname t

variable {limit opened : ℕ} {fs : FS} {rebuild : Bool} {mk newest : ℕ} {dep objname : Str}

/-! ### One call -/

theorem readFileAt_room (h : opened < limit) (p : Str) :
    readFileAt limit fs p opened =
      (readFile fs p, if (readFile fs p).isSome then opened + 1 else opened) := by
  rw [readFileAt, readFile, openFile, if_neg (by omega)]
  cases fs p with
  | none => rfl
  | some f =>
    simp only [closeOne, Nat.add_sub_cancel]
    split <;> rfl

theorem readFileAt_full (h : limit ≤ opened) (p : Str) :
    readFileAt limit fs p opened = (none, opened) := by
  rw [readFileAt, openFile, if_pos h]
  cases fs p <;> rfl

/-- `read_file` gives back what it took unless there is something to read. -/
theorem readFileAt_balanced (p : Str) :
    (readFileAt limit fs p opened).2 = opened ↔ limit ≤ opened ∨ readFile fs p = none := by
  rcases Nat.lt_or_ge opened limit with h | h
  · rw [readFileAt_room h]
    cases readFile fs p with
    | none => simp
    | some text => simp; omega
  · simp [readFileAt_full h, h]

theorem needsRebuildAt_room (h : opened < limit) :
    needsRebuildAt limit rebuild fs mk newest dep objname opened =
      (needsRebuild rebuild fs mk newest dep objname,
        if !rebuild && (readFile fs dep).isSome then opened + 1 else opened) := by
  have hexists : readFile fs dep ≠ none → existsFile fs dep = true := by
    rw [readFile, existsFile]
    cases fs dep <;> simp
  rw [needsRebuildAt, needsRebuild, listed, readFileAt_room h]
  cases rebuild with
  | true => rfl
  | false =>
    cases hr : readFile fs dep with
    | none => simp
    | some text =>
      rw [hexists (by simp [hr])]
      cases ht : depTokens text <;> simp [ht]

/-- Without a descriptor left every object is rebuilt. -/
theorem needsRebuildAt_full (h : limit ≤ opened) :
    needsRebuildAt limit rebuild fs mk newest dep objname opened = ((true, newest), opened) := by
  rw [needsRebuildAt, readFileAt_full h]
  split
  · rfl
  · split <;> rfl

theorem executeGrab_returned {forked : Bool} {n : ℕ} :
    executeGrab limit forked opened = .returned n ↔
      forked = true ∧ opened + 2 ≤ limit ∧ n = opened + 1 := by
  rw [executeGrab, openPipe]
  by_cases h : limit < opened + 2
  · simp only [if_pos h, reduceCtorEq, false_iff]
    omega
  · cases forked with
    | false => simp [h]
    | true =>
      simp only [if_neg h, if_true, closeOne, Grab.returned.injEq, true_and]
      omega

/-- A call that returns has taken one more descriptor, if it read something and there was one. -/
theorem Earlier.run_opened {c : Earlier} {n : ℕ} (h : c.run limit opened = some n) :
    n = if c.reads && decide (opened < limit) then opened + 1 else opened := by
  cases c with
  | check rebuild fs mk newest dep objname =>
    rw [Earlier.run, Option.some.injEq] at h
    subst h
    rcases Nat.lt_or_ge opened limit with hroom | hfull
    · simp [needsRebuildAt_room hroom, Earlier.reads, hroom]
    · simp [needsRebuildAt_full hfull, Nat.not_lt.mpr hfull]
  | grab forked =>
    rw [Earlier.run] at h
    split at h
    · rename_i m hm
      obtain ⟨_, hroom, rfl⟩ := executeGrab_returned.mp hm
      have hlt : opened < limit := by omega
      simp only [Option.some.injEq] at h
      simp [Earlier.reads, hlt, h]
    · simp at h

/-! ### A history of calls -/

/-- Each call that reads something takes a descriptor, until none is left. -/
theorem earlier_opened {calls : List Earlier} {opened n : ℕ}
    (h : earlier limit opened calls = some n) :
    n = max opened (min limit (opened + calls.countP Earlier.reads)) := by
  induction calls generalizing opened with
  | nil =>
    rw [earlier, Option.some.injEq] at h
    simp [h]
  | cons c calls ih =>
    rw [earlier, Option.bind_eq_some_iff] at h
    obtain ⟨m, hm, hrest⟩ := h
    have hstep := Earlier.run_opened hm
    have hn := ih hrest
    rw [List.countP_cons]
    cases hc : c.reads with
    | false => simp_all
    | true =>
      by_cases hroom : opened < limit
      · simp only [hc, hroom, decide_true, Bool.and_self, if_true] at hstep
        simp only [if_true]
        omega
      · simp only [hc, hroom, decide_false, Bool.and_false, Bool.false_eq_true, if_false] at hstep
        simp only [if_true]
        omega

/-- A history leaves the descriptors as they were exactly when nothing in it reads, or none was left. -/
theorem earlier_balanced {calls : List Earlier} {n : ℕ} (h : earlier limit opened calls = some n) :
    n = opened ↔ limit ≤ opened ∨ ∀ c ∈ calls, c.reads = false := by
  have hn := earlier_opened h
  have hnone : calls.countP Earlier.reads = 0 ↔ ∀ c ∈ calls, c.reads = false := by
    simp [List.countP_eq_zero]
  rw [← hnone]
  omega

theorem needsRebuildAt_answer :
    (needsRebuildAt limit rebuild fs mk newest dep objname opened).1.1 = false ↔
      opened < limit ∧ LooksCurrent rebuild fs mk dep objname := by
  rcases Nat.lt_or_ge opened limit with h | h
  · rw [needsRebuildAt_room h, kept_iff, LooksCurrent]
    exact (and_iff_right h).symm
  · simp [needsRebuildAt_full h, h]

/-- `read_file` keeps a descriptor of every text it reads, and a grabbed command one of its pipe. A
    later `needs_rebuild` answers as the first one would have exactly when this has not used up the
    descriptors, or none was left to begin with, or the object has to be rebuilt anyway. -/
theorem earlier_answer {calls : List Earlier} {n : ℕ} (h : earlier limit opened calls = some n) :
    (∀ (fs : FS) (p : Str) (m : ℕ),
      (readFileAt limit fs p m).2 = m ↔ limit ≤ m ∨ readFile fs p = none) ∧
    (∀ (forked : Bool) (m m' : ℕ), executeGrab limit forked m = .returned m' → m' = m + 1) ∧
    (n = opened ↔ limit ≤ opened ∨ ∀ c ∈ calls, c.reads = false) ∧
    ∀ (rebuild : Bool) (fs : FS) (mk newest newest' : ℕ) (dir fname objname : Str),
      (needsRebuildAt limit rebuild fs mk newest (mkdepname dir fname) objname n).1.1 =
          (needsRebuildAt limit rebuild fs mk newest' (mkdepname dir fname) objname opened).1.1 ↔
        opened + calls.countP Earlier.reads < limit ∨ limit ≤ opened ∨
          ¬ LooksCurrent rebuild fs mk (mkdepname dir fname) objname := by
  refine ⟨fun fs p m => readFileAt_balanced p, ?_, earlier_balanced h, ?_⟩
  · intro forked m m' hgrab
    exact (executeGrab_returned.mp hgrab).2.2
  · intro rebuild fs mk newest newest' dir fname objname
    have hn := earlier_opened h
    have hfalse : ∀ a b : Bool, a = b ↔ (a = false ↔ b = false) := by decide
    rw [hfalse, needsRebuildAt_answer, needsRebuildAt_answer]
    by_cases hlook : LooksCurrent rebuild fs mk (mkdepname dir fname) objname
    · simp only [hlook, and_true, not_true_eq_false, or_false]
      omega
    · simp [hlook]

/-- A built source: `main.c`, its dependency file and an object newer than both. -/
def oneSource : FS :=
  ((FS.set (fun _ => none) "main.c".toList (some ⟨1, "int main;".toList⟩)).set
    "obj/debug/main.d".toList (some ⟨2, "obj/debug/main.o: main.c\n".toList⟩)).set
    "obj/debug/main.o".toList (some ⟨2, []⟩)

/-- The check of that source. -/
def oneCheck : Earlier :=
  .check false oneSource 0 0 "obj/debug/main.d".toList "obj/debug/main.o".toList

theorem earlier_checks (limit k opened : ℕ) :
    ∃ n, earlier limit opened (List.replicate k oneCheck) = some n := by
  induction k generalizing opened with
  | zero => exact ⟨opened, rfl⟩
  | succ k ih =>
    obtain ⟨n, hn⟩ := ih (needsRebuildAt limit false oneSource 0 0
      "obj/debug/main.d".toList "obj/debug/main.o".toList opened).2
    exact ⟨n, by rw [List.replicate_succ, earlier, oneCheck, Earlier.run, Option.bind_some]; exact hn⟩

/-- Four descriptors, three of them standard input and outputs, and one source checked before. -/
theorem earlier_answer_four :
    ((needsRebuildAt 4 false oneSource 0 0 (mkdepname (objdir "debug".toList) "main.c".toList)
        "obj/debug/main.o".toList 4).1.1 =
      (needsRebuildAt 4 false oneSource 0 0 (mkdepname (objdir "debug".toList) "main.c".toList)
        "obj/debug/main.o".toList 3).1.1 ↔
      3 + [oneCheck].countP Earlier.reads < 4 ∨ 4 ≤ 3 ∨ ¬ LooksCurrent false oneSource 0
        (mkdepname (objdir "debug".toList) "main.c".toList) "obj/debug/main.o".toList) := by
  have hcalls : earlier 4 3 [oneCheck] = some 4 := by decide
  exact (earlier_answer hcalls).2.2.2 false oneSource 0 0 0 _ _ _

/-- After 1021 checks of a source that is up to date it is compiled again. -/
theorem rebuilt_after_many_checks :
    earlier 1024 3 (List.replicate 1021 oneCheck) = some 1024 ∧
      (needsRebuildAt 1024 false oneSource 0 0 (mkdepname (objdir "debug".toList) "main.c".toList)
        "obj/debug/main.o".toList 1024).1.1 = true ∧
      (needsRebuildAt 1024 false oneSource 0 0 (mkdepname (objdir "debug".toList) "main.c".toList)
        "obj/debug/main.o".toList 3).1.1 = false := by
  refine ⟨?_, ?_, ?_⟩
  · obtain ⟨n, hn⟩ := earlier_checks 1024 1021 3
    have hreads : oneCheck.reads = true := by decide
    have heq := earlier_opened hn
    rw [List.countP_replicate, if_pos hreads] at heq
    rw [hn, heq]
    rfl
  · rw [needsRebuildAt_full (le_refl 1024)]
  · decide

end Cake
