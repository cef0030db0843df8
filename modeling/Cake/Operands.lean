import Cake.ArgBuffer

/-! Options that take the next word, in the command lines cake builds.

    `add_arg` looks at words. A second `-I` is dropped and its operand stays behind; an operand that has
    been seen is dropped and its option stays.

        flags   -I inc -D X -I inc      ──▶  … -I inc -D X …
        flags   -I inc -I src           ──▶  … -I inc src …
        flags   -x c++, own -x c++-header ──▶  … -x c++ … c++-header … -/

namespace Cake

/-- The options of gcc whose operand is the next word. -/
def twoWord : List Str :=
  ["-I".toList, "-L".toList, "-D".toList, "-U".toList, "-include".toList, "-isystem".toList,
    "-Xlinker".toList, "-framework".toList, "-x".toList]

def isTwoWord (tok : Str) : Bool := twoWord.contains tok

/-- A call of gcc, by what `do_compile`, `make_pch` and `link` put around the flags. -/
inductive GccCall where
  | compile (pchname target fname objname : Str)
  | pch (target : Str) (cplusplus : Bool) (header outputname : Str)
  | link (pchname outname : Str) (linklist libs : List Str) (depends : Option (List Str))

namespace GccCall

/-- The arguments added before the flags. -/
def before : GccCall → List Str
  | .compile pchname target _ _ =>
    (compiler :: compileOptions) ++ pchInclude pchname ++ [debugDefine target]
  | .pch _ _ _ _ => compiler :: pchOptions
  | .link pchname _ _ _ _ => compiler :: pchInclude pchname

/-- The arguments added after the flags. -/
def after : GccCall → List Str
  | .compile _ _ fname objname => [fname, "-o".toList, objname]
  | .pch target cplusplus header outputname =>
    debugDefine target :: ((if cplusplus then ["-x".toList, "c++-header".toList] else []) ++
      ["-o".toList, outputname, header])
  | .link _ outname linklist libs depends =>
    ("-o".toList :: outname :: linklist) ++ libs ++
      match depends with
      | none => []
      | some names => ("-L".toList ++ libdir) :: names.map (fun n => "-l".toList ++ n)

/-- The list passed to `execvp`; none when the flags overrun the buffer. -/
def argv (c : GccCall) (flags : CStr) : Option (List Str) :=
  (insertBuffered (addArgs [] c.before) flags).map fun args => addArgs args c.after

/-- The command line of the call. -/
def line (flags : Str) : GccCall → List Str
  | .compile pchname target fname objname => compileArgs pchname target flags fname objname
  | .pch target cplusplus header outputname => pchArgs target flags cplusplus header outputname
  | .link pchname outname linklist libs depends =>
    linkArgs pchname flags outname linklist libs depends

/-- Flags that fit into the buffer give the command line. -/
theorem argv_line {flags : CStr} (h : flags.1.length < 1024) (c : GccCall) :
    c.argv flags = some (c.line flags) := by
  rw [argv, insertBuffered_short h, Option.map_some]
  cases c with
  | compile pchname target fname objname =>
    rw [line, compileArgs, before, after, ← addArgs_append, ← addArgs_append]
    rfl
  | pch target cplusplus header outputname =>
    have hdefine : ∀ args rest, addArgs args (debugDefine target :: rest) =
        addArgs (addArg args (debugDefine target)) rest := fun _ _ => rfl
    rw [line, pchArgs, before, after, hdefine, ← addArgs_append]
    cases cplusplus with
    | false => rw [if_neg Bool.false_ne_true, if_neg Bool.false_ne_true, addArgs_empty]
    | true => rw [if_pos rfl, if_pos rfl]
  | link pchname outname linklist libs depends =>
    cases depends with
    | none =>
      rw [line, linkArgs, before, after, ← addArgs_append, ← addArgs_append, addArgs_empty]
    | some names => rw [line, linkArgs, before, after, ← addArgs_append, ← addArgs_append]

/-- All the words added, the first of each. -/
theorem argv_eq {flags : CStr} (h : flags.1.length < 1024) (c : GccCall) :
    c.argv flags =
      some (c.before ++ (ArgOp.spacedelim flags).tokens ++ c.after).eraseDups := by
  rw [argv, insertBuffered_short h, Option.map_some, insertSpacedelim_short h, addArgs_append,
    addArgs_append, addArgs_nil, List.append_assoc]

theorem path_ne_nil {isDir : Str → Bool} {full : Str} (h : full ≠ []) : path isDir full ≠ [] := by
  rw [path]
  split
  · exact h
  · split
    · split
      · exact h
      · simp
    · exact h

/-- `-I` comes with its directory in one word. -/
theorem pchInclude_plain {pchname x : Str} (h : x ∈ pchInclude pchname) : isTwoWord x = false := by
  rw [pchInclude] at h
  split at h
  · exact absurd h List.not_mem_nil
  · rename_i hne
    have hpath : path (fun _ => false) pchname ≠ [] := path_ne_nil (by simpa using hne)
    obtain ⟨c, rest, hc⟩ := List.exists_cons_of_ne_nil hpath
    rw [List.mem_singleton.mp h, hc]
    simp [isTwoWord, twoWord]

/-- No option stands open where the flags begin. -/
theorem before_plain (c : GccCall) : ∀ x ∈ c.before, isTwoWord x = false := by
  have hfixed : ∀ x ∈ compiler :: compileOptions ++ pchOptions, isTwoWord x = false := by decide
  have hdefine : ∀ target, isTwoWord (debugDefine target) = false := fun target => by
    rw [debugDefine]
    split <;> decide
  intro x hx
  cases c with
  | compile pchname target fname objname =>
    rw [before, List.mem_append, List.mem_append, List.mem_singleton] at hx
    rcases hx with (hx | hx) | rfl
    · exact hfixed x (List.mem_append_left _ hx)
    · exact pchInclude_plain hx
    · exact hdefine target
  | pch target cplusplus header outputname =>
    refine hfixed x ?_
    rw [before] at hx
    simp only [List.cons_append, List.mem_cons, List.mem_append] at hx ⊢
    tauto
  | link pchname outname linklist libs depends =>
    rcases List.mem_cons.mp hx with rfl | hx
    · decide
    · exact pchInclude_plain hx

end GccCall

/-- In the arguments of a gcc call every pair of an option and its operand stands together, in the order
    of the flags, exactly when the flags are shorter than 1024 characters and each pair repeats an
    earlier one or consists of two words that are new, among the flags and the call's first arguments. -/
theorem operands_attached (c : GccCall) (flags : CStr) :
    (∃ args, c.argv flags = some args ∧
      KeepFirst.InOrder (KeepFirst.pairs isTwoWord (ArgOp.spacedelim flags).tokens).eraseDups args) ↔
      flags.1.length < 1024 ∧
        KeepFirst.Attached isTwoWord c.before [] (ArgOp.spacedelim flags).tokens := by
  rw [← KeepFirst.pairs_inOrder c.before_plain _ c.after]
  constructor
  · rintro ⟨args, hargs, hpairs⟩
    by_cases h : flags.1.length < 1024
    · rw [GccCall.argv_eq h, Option.some.injEq] at hargs
      exact ⟨h, hargs ▸ hpairs⟩
    · rw [GccCall.argv, insertBuffered_long (Nat.not_lt.mp h)] at hargs
      cases hargs
  · rintro ⟨h, hpairs⟩
    exact ⟨_, GccCall.argv_eq h c, hpairs⟩

/-- Two include directories. -/
def twoDirs : CStr := ⟨"-I inc -I src".toList, by decide⟩

/-- The second directory becomes an input file. -/
theorem second_option_dropped :
    (GccCall.compile [] "debug".toList "main.c".toList "obj/debug/main.o".toList).argv twoDirs =
        some ["gcc".toList, "-c".toList, "-MMD".toList, "-I.".toList, "-fpch-deps".toList,
          "-D_DEBUG".toList, "-I".toList, "inc".toList, "src".toList, "main.c".toList, "-o".toList,
          "obj/debug/main.o".toList] ∧
      KeepFirst.pairs isTwoWord (ArgOp.spacedelim twoDirs).tokens =
        [("-I".toList, "inc".toList), ("-I".toList, "src".toList)] ∧
      ¬ ∃ args, (GccCall.compile [] "debug".toList "main.c".toList "obj/debug/main.o".toList).argv
          twoDirs = some args ∧
        KeepFirst.InOrder (KeepFirst.pairs isTwoWord (ArgOp.spacedelim twoDirs).tokens).eraseDups
          args := by
  have hline : (GccCall.compile [] "debug".toList "main.c".toList "obj/debug/main.o".toList).argv
      twoDirs = some ((GccCall.compile [] "debug".toList "main.c".toList
        "obj/debug/main.o".toList).line twoDirs) := GccCall.argv_line (by decide) _
  have htoks : (ArgOp.spacedelim twoDirs).tokens =
      ["-I".toList, "inc".toList, "-I".toList, "src".toList] := by
    rw [ArgOp.tokens, ← Tokens.tokens_splitOnP]
    decide
  refine ⟨hline.trans (by decide), by rw [htoks]; decide, ?_⟩
  rintro ⟨args, hargs, hpairs⟩
  rw [GccCall.argv_eq (by decide), Option.some.injEq] at hargs
  rw [← hargs, KeepFirst.pairs_inOrder (GccCall.before_plain _), htoks] at hpairs
  exact absurd hpairs (by decide)

end Cake
