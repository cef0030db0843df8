import Cake.Lib.KeepFirst
import Cake.ArgList

/-! The buffer of `insert_spacedelim`.

    The text is copied with `strncpy` into 1024 characters and read there with `strtok`. A text of 1024
    characters or more fills the buffer and leaves no room for the NUL, so that the reading does not
    stop at its end.

        " -Wall -O2"     ──▶  ␣ - W a l l ␣ - O 2 NUL … NUL      -Wall -O2
        1024 or more     ──▶  ␣ - W … - O                         reads on behind the buffer -/

namespace Cake

/-- The cells of a buffer of `n` characters after `strncpy`. -/
def strncpy (n : ℕ) (str : Str) : List Char := str.take n ++ List.replicate (n - str.length) '\x00'

/-- The tokens `strtok` finds in the cells of a buffer; none when it reads behind the last one. -/
def strtokAll (isDelim : Char → Bool) : Str → List Char → Option (List Str)
  | _, [] => none
  | run, c :: cells =>
    if c = '\x00' then some (if run.isEmpty then [] else [run.reverse])
    else if isDelim c then
      if run.isEmpty then strtokAll isDelim [] cells
      else (strtokAll isDelim [] cells).map fun toks => run.reverse :: toks
    else strtokAll isDelim (c :: run) cells

/-- `arglist::insert_spacedelim`; none when it reads outside `tmp`. -/
def insertBuffered (args : List Str) (str : CStr) : Option (List Str) :=
  (strtokAll argDelim [] (strncpy 1024 str)).map (addArgs args)

/-- What is done to an `arglist` before `get()`: `operator<<` and `insert_spacedelim`. -/
inductive ArgOp where
  | push (str : CStr)
  | spacedelim (str : CStr)

def ArgOp.run (args : List Str) : ArgOp → Option (List Str)
  | .push str => some (addArg args str)
  | .spacedelim str => insertBuffered args str

/-- The list after a sequence of calls. -/
def runOps : List Str → List ArgOp → Option (List Str)
  | args, [] => some args
  | args, op :: ops => (op.run args).bind fun args => runOps args ops

/-- What the call is to add: the string, or the runs of characters between its blanks. -/
def ArgOp.tokens : ArgOp → List Str
  | .push str => [str]
  | .spacedelim str => (str.1.splitOnP argDelim).filter (fun t => !t.isEmpty)

/-! ### Reading a buffer -/

/-- A text with its NUL is read as its tokens. -/
theorem strtokAll_nul {isDelim : Char → Bool} (cells : List Char) {text : Str} (run : Str)
    (h : '\x00' ∉ text) :
    strtokAll isDelim run (text ++ '\x00' :: cells) = some (Tokens.scan isDelim run text) := by
  induction text generalizing run with
  | nil => rw [List.nil_append, strtokAll, if_pos rfl, Tokens.scan]
  | cons c text ih =>
    obtain ⟨hc, htext⟩ := List.ne_and_not_mem_of_not_mem_cons h
    rw [List.cons_append, strtokAll, if_neg (Ne.symm hc), ih [] htext, ih (c :: run) htext,
      Tokens.scan]
    split
    · split <;> rfl
    · rfl

/-- Without a NUL the reading does not stop. -/
theorem strtokAll_full {isDelim : Char → Bool} {cells : List Char} (run : Str)
    (h : '\x00' ∉ cells) : strtokAll isDelim run cells = none := by
  induction cells generalizing run with
  | nil => rfl
  | cons c cells ih =>
    obtain ⟨hc, hcells⟩ := List.ne_and_not_mem_of_not_mem_cons h
    rw [strtokAll, if_neg (Ne.symm hc), ih [] hcells, ih (c :: run) hcells]
    split
    · split <;> rfl
    · rfl

theorem insertBuffered_short {str : CStr} (h : str.1.length < 1024) (args : List Str) :
    insertBuffered args str = some (insertSpacedelim args str) := by
  obtain ⟨k, hk⟩ := Nat.exists_eq_succ_of_ne_zero (Nat.sub_ne_zero_of_lt h)
  have htake : str.1.take 1024 = str.1 := List.take_of_length_le (Nat.le_of_lt h)
  rw [insertBuffered, strncpy, hk, List.replicate_succ, htake, strtokAll_nul _ _ str.2,
    insertSpacedelim, htake]
  rfl

theorem insertBuffered_long {str : CStr} (h : 1024 ≤ str.1.length) (args : List Str) :
    insertBuffered args str = none := by
  have hnul : '\x00' ∉ str.1.take 1024 := fun hm => str.2 (List.mem_of_mem_take hm)
  rw [insertBuffered, strncpy, Nat.sub_eq_zero_of_le h, List.replicate_zero, List.append_nil,
    strtokAll_full [] hnul]
  rfl

/-! ### A sequence of calls -/

/-- `add_arg` keeps the first of each. -/
theorem addArgs_keepFirst (strs args : List Str) :
    addArgs args strs = args ++ KeepFirst.keepFirst args strs := by
  induction strs generalizing args with
  | nil => simp [addArgs, KeepFirst.keepFirst]
  | cons s strs ih =>
    rw [addArgs, List.foldl_cons, ← addArgs, addArg]
    by_cases hs : s ∈ args
    · rw [if_pos hs, ih args, KeepFirst.keepFirst_old hs]
    · have hseen : ∀ x, x ∈ args ++ [s] ↔ x ∈ s :: args := by
        intro x
        simp [or_comm]
      rw [if_neg hs, ih (args ++ [s]), KeepFirst.keepFirst_new hs,
        KeepFirst.keepFirst_congr hseen, List.append_assoc, List.singleton_append]

/-- What `link` puts before its objects and behind them. -/
theorem linkArgs_line (pchname ldflags outname : Str) (libs : List Str) (depends : Option (List Str)) :
    ∃ a z, ∀ linklist, linkArgs pchname ldflags outname linklist libs depends =
      KeepFirst.keepFirst [] (a ++ linklist ++ z) := by
  refine ⟨compiler :: pchInclude pchname ++ Tokens.tokens argDelim (ldflags.take 1024) ++
      ["-o".toList, outname],
    libs ++ (depends.map fun names => ("-L".toList ++ libdir) :: names.map (fun n => "-l".toList ++ n)).getD [],
    fun linklist => ?_⟩
  rw [← List.nil_append (KeepFirst.keepFirst [] _), ← addArgs_keepFirst]
  cases depends <;> simp [linkArgs, insertSpacedelim, addArgs]

theorem arArgs_line (outname : Str) (linklist : List Str) :
    arArgs outname linklist = KeepFirst.keepFirst [] (["ar".toList, "rcs".toList, outname] ++ linklist ++ []) := by
  rw [arArgs, addArgs_keepFirst, List.append_nil]
  rfl

theorem addArgs_nil (strs : List Str) : addArgs [] strs = strs.eraseDups := by
  rw [addArgs_keepFirst, List.nil_append, KeepFirst.keepFirst_nil]

theorem addArgs_empty (args : List Str) : addArgs args [] = args := rfl

theorem addArgs_append (args a b : List Str) : addArgs (addArgs args a) b = addArgs args (a ++ b) :=
  (List.foldl_append ..).symm

theorem insertSpacedelim_short {str : CStr} (h : str.1.length < 1024) (args : List Str) :
    insertSpacedelim args str = addArgs args (ArgOp.spacedelim str).tokens := by
  rw [insertSpacedelim, List.take_of_length_le (Nat.le_of_lt h), Tokens.tokens_splitOnP, ArgOp.tokens]

theorem runOps_short {ops : List ArgOp} (args : List Str)
    (h : ∀ s, ArgOp.spacedelim s ∈ ops → s.1.length < 1024) :
    runOps args ops = some (addArgs args (ops.flatMap ArgOp.tokens)) := by
  induction ops generalizing args with
  | nil => simp [runOps, addArgs]
  | cons op ops ih =>
    have hops : ∀ s, ArgOp.spacedelim s ∈ ops → s.1.length < 1024 := by
      intro s hs
      exact h s (List.mem_cons_of_mem _ hs)
    rw [runOps, List.flatMap_cons, ← addArgs_append]
    cases op with
    | push str =>
      rw [ArgOp.run, Option.bind_some, ih _ hops]
      rfl
    | spacedelim str =>
      have hstr := h str List.mem_cons_self
      rw [ArgOp.run, insertBuffered_short hstr, Option.bind_some, ih _ hops,
        insertSpacedelim_short hstr]

theorem runOps_long {s : CStr} (hlong : 1024 ≤ s.1.length) {ops : List ArgOp} (args : List Str)
    (h : ArgOp.spacedelim s ∈ ops) : runOps args ops = none := by
  induction ops generalizing args with
  | nil => exact absurd h List.not_mem_nil
  | cons op ops ih =>
    rw [runOps]
    rcases List.mem_cons.mp h with rfl | h
    · rw [ArgOp.run, insertBuffered_long hlong]
      rfl
    · cases hop : op.run args with
      | none => rfl
      | some args => rw [Option.bind_some, ih args h]

/-- The list holds the tokens of all calls, the first of each, no two equal, and no read goes outside
    the buffer, exactly when each text given to `insert_spacedelim` is shorter than 1024 characters. -/
theorem runOps_tokens (ops : List ArgOp) :
    (∃ args, runOps [] ops = some args ∧ args = (ops.flatMap ArgOp.tokens).eraseDups ∧ args.Nodup) ↔
      ∀ s, ArgOp.spacedelim s ∈ ops → s.1.length < 1024 := by
  constructor
  · rintro ⟨args, hargs, _⟩ s hs
    by_contra hlong
    rw [runOps_long (Nat.not_lt.mp hlong) [] hs] at hargs
    cases hargs
  · intro h
    rw [runOps_short [] h, addArgs_nil]
    exact ⟨_, rfl, rfl, KeepFirst.eraseDups_nodup _⟩

/-- A text of 1024 characters. -/
def longText : CStr := ⟨List.replicate 1024 'a', fun h => by simpa using List.eq_of_mem_replicate h⟩

/-- It is read over the end. -/
theorem long_text_overrun : runOps [] [.spacedelim longText] = none ∧
    ¬ ∃ args, runOps [] [.spacedelim longText] = some args ∧
      args = ([ArgOp.spacedelim longText].flatMap ArgOp.tokens).eraseDups ∧ args.Nodup := by
  have hlong : 1024 ≤ longText.1.length := Nat.le_of_eq List.length_replicate.symm
  have hnone := runOps_long hlong [] (List.mem_singleton_self (ArgOp.spacedelim longText))
  refine ⟨hnone, ?_⟩
  rintro ⟨args, h, _⟩
  rw [hnone] at h
  cases h

end Cake
