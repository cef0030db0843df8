import Mathlib.Data.List.Nodup
import Cake.Names

/-! `arglist` and the argument lists cake builds with it.

    `add_arg` drops an argument that is already there, wherever it stands. `insert_spacedelim`
    copies at most 1024 characters of its text and adds the tokens. -/

namespace Cake

def addArg (args : List Str) (str : Str) : List Str := if str ∈ args then args else args ++ [str]

def addArgs (args : List Str) (strs : List Str) : List Str := strs.foldl addArg args

/-- The delimiters of `insert_spacedelim`: space, tab, return, newline. -/
def argDelim (c : Char) : Bool := [' ', '\t', '\r', '\n'].contains c

def insertSpacedelim (args : List Str) (str : Str) : List Str :=
  addArgs args (Tokens.tokens argDelim (str.take 1024))

def compiler : Str := "gcc".toList

def compileOptions : List Str :=
  ["-c".toList, "-MMD".toList, "-I.".toList, "-fpch-deps".toList]

def pchOptions : List Str := ["-MMD".toList, "-I.".toList, "-fpch-deps".toList]

/-- The `-I` option for the directory of the precompiled header, which is not itself a directory. -/
def pchInclude (pchname : Str) : List Str :=
  if pchname.isEmpty then [] else ["-I".toList ++ path (fun _ => false) pchname]

def debugDefine (target : Str) : Str :=
  if strstr "debug".toList target then "-D_DEBUG".toList else "-DNDEBUG".toList

/-- The command line of `do_compile`. -/
def compileArgs (pchname target cflags fname objname : Str) : List Str :=
  let args := addArgs [] (compiler :: compileOptions)
  let args := addArgs args (pchInclude pchname)
  let args := addArg args (debugDefine target)
  let args := insertSpacedelim args cflags
  addArgs args [fname, "-o".toList, objname]

/-- The command line of `make_pch`. -/
def pchArgs (target cflags : Str) (cplusplus : Bool) (pch outputname : Str) : List Str :=
  let args := addArgs [] (compiler :: pchOptions)
  let args := insertSpacedelim args cflags
  let args := addArg args (debugDefine target)
  let args := if cplusplus then addArgs args ["-x".toList, "c++-header".toList] else args
  addArgs args ["-o".toList, outputname, pch]

/-- The command line of `link`; `depends` holds the names (with suffix) of the libraries among
    `m_depends`, none when `m_depends` is empty. -/
def linkArgs (pchname ldflags outname : Str) (linklist libs : List Str)
    (depends : Option (List Str)) : List Str :=
  let args := addArgs [] (compiler :: pchInclude pchname)
  let args := insertSpacedelim args ldflags
  let args := addArgs args ("-o".toList :: outname :: linklist)
  let args := addArgs args libs
  match depends with
  | none => args
  | some names => addArgs args (("-L".toList ++ libdir) :: names.map (fun n => "-l".toList ++ n))

/-- The command line of `staticlib`. -/
def arArgs (outname : Str) (linklist : List Str) : List Str :=
  addArgs [] ("ar".toList :: "rcs".toList :: outname :: linklist)

/-! ### What a command line holds -/

theorem addArg_mem {args : List Str} {str a : Str} : a ∈ addArg args str ↔ a ∈ args ∨ a = str := by
  rw [addArg]
  split
  · rename_i h
    exact ⟨Or.inl, fun ha => ha.elim id fun heq => heq ▸ h⟩
  · simp

theorem addArgs_mem {a : Str} : ∀ {strs args : List Str},
    a ∈ addArgs args strs ↔ a ∈ args ∨ a ∈ strs
  | [], _ => by simp [addArgs]
  | str :: strs, args => by
    have ih : a ∈ addArgs (addArg args str) strs ↔ a ∈ addArg args str ∨ a ∈ strs := addArgs_mem
    rw [addArg_mem] at ih
    rw [List.mem_cons, ← or_assoc]
    exact ih

theorem addArg_nodup {args : List Str} (h : args.Nodup) (str : Str) : (addArg args str).Nodup := by
  rw [addArg]
  split
  · exact h
  · rename_i hno
    refine List.nodup_append.mpr ⟨h, List.nodup_singleton _, ?_⟩
    rintro a ha b hb rfl
    exact hno (List.mem_singleton.mp hb ▸ ha)

/-- No argument stands twice. -/
theorem addArgs_nodup : ∀ (strs : List Str) {args : List Str}, args.Nodup → (addArgs args strs).Nodup
  | [], _, h => h
  | str :: strs, _, h => addArgs_nodup strs (addArg_nodup h str)

theorem linkArgs_nodup (pchname ldflags outname : Str) (linklist libs : List Str)
    (depends : Option (List Str)) :
    (linkArgs pchname ldflags outname linklist libs depends).Nodup := by
  have hargs := addArgs_nodup libs (addArgs_nodup ("-o".toList :: outname :: linklist)
    (addArgs_nodup (Tokens.tokens argDelim (ldflags.take 1024))
      (addArgs_nodup (compiler :: pchInclude pchname) List.nodup_nil)))
  cases depends with
  | none => exact hargs
  | some names => exact addArgs_nodup _ hargs

theorem linkArgs_mem {pchname ldflags outname : Str} {linklist libs : List Str}
    {depends : Option (List Str)} {o : Str} (h : o ∈ linklist) :
    o ∈ linkArgs pchname ldflags outname linklist libs depends := by
  have hargs : ∀ args : List Str, o ∈ addArgs (addArgs args ("-o".toList :: outname :: linklist)) libs :=
    fun args => by simp [addArgs_mem, h]
  cases depends with
  | none => exact hargs _
  | some names => exact addArgs_mem.mpr (Or.inl (hargs _))

theorem arArgs_nodup (outname : Str) (linklist : List Str) : (arArgs outname linklist).Nodup :=
  addArgs_nodup _ List.nodup_nil

theorem arArgs_mem {outname : Str} {linklist : List Str} {o : Str} (h : o ∈ linklist) :
    o ∈ arArgs outname linklist := by
  simp [arArgs, addArgs_mem, h]

end Cake
