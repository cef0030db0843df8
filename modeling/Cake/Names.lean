import Mathlib.Data.List.TakeWhile
import Cake.Lib.Tokens

/-! File names.

    A C string is its list of characters without the terminating NUL. Objects, dependency files and
    precompiled headers are named by pasting `g_objdir` and the source path and rewriting the tail
    after the last dot of the whole string (`mkobjname`, `mkdepname`, `mkpchname`); `gccDepName` is
    where `gcc -MMD -o out` writes the dependency file. The 260-byte buffers of the source are not
    bounded here. -/

namespace Cake

abbrev Str := List Char

/-- A C string holds no NUL before its end. -/
abbrev CStr := {s : Str // '\x00' ∉ s}

theorem takeWhile_nul {s : Str} : s.takeWhile (· != '\x00') = s ↔ '\x00' ∉ s := by
  rw [List.takeWhile_eq_self_iff]
  constructor
  · intro h hmem
    exact bne_iff_ne.mp (h _ hmem) rfl
  · intro h c hc
    exact bne_iff_ne.mpr fun heq => h (heq ▸ hc)

/-- The text before and after the last `c`. -/
def strrchr (c : Char) : Str → Option (Str × Str)
  | [] => none
  | x :: xs =>
    match strrchr c xs with
    | some (a, b) => some (x :: a, b)
    | none => if x = c then some ([], xs) else none

/-- The text after the first `c`. -/
def strchr (c : Char) : Str → Option Str
  | [] => none
  | x :: xs => if x = c then some xs else strchr c xs

/-- Does `needle` occur in the text? -/
def strstr (needle : Str) : Str → Bool
  | [] => needle.isEmpty
  | x :: xs => needle.isPrefixOf (x :: xs) || strstr needle xs

def endswith1of (str : Str) (ends : List Str) : Bool := ends.any (fun e => e.isSuffixOf str)

def isHeader (fname : Str) : Bool :=
  endswith1of fname [".h".toList, ".hpp".toList, ".hxx".toList, ".inc".toList]

def isCppfile (fname : Str) : Bool :=
  endswith1of fname ["cpp".toList, "cxx".toList, "cc".toList, "C".toList]

def baseobjdir : Str := "obj/".toList

def bindir : Str := "bin/".toList

def libdir : Str := "lib/".toList

/-- The output of `link`. -/
def outName (target : Str) : Str := bindir ++ target

/-- The output of `staticlib`. -/
def libName (target : Str) : Str := libdir ++ "lib".toList ++ target ++ ".a".toList

/-- `g_objdir` as `Project::compile` sets it. -/
def objdir (target : Str) : Str := baseobjdir ++ target ++ ['/']

/-- Puts `ext` in place of what follows the last dot, unless that dot ends the string. -/
def rewriteTail (ext : Char) (tmp : Str) : Str :=
  match strrchr '.' tmp with
  | some (a, b) => if b.isEmpty then tmp else a ++ ['.', ext]
  | none => tmp

def mkobjname (dir fname : Str) : Str := rewriteTail 'o' (dir ++ fname)

def mkdepname (dir fname : Str) : Str :=
  let tmp := dir ++ fname
  if endswith1of tmp ["h".toList, "hpp".toList, "hh".toList, "hxx".toList, "inc".toList] then
    tmp ++ ".d".toList
  else rewriteTail 'd' tmp

def mkpchname (dir fname : Str) : Str := dir ++ fname ++ ".gch".toList

/-- `file::path`; `isDir` is `file::is_dir`. -/
def path (isDir : Str → Bool) (full : Str) : Str :=
  if isDir full then full
  else match strrchr '/' full with
    | some (a, b) => if b.isEmpty then full else a ++ ['/']
    | none => full

/-- Where gcc writes the dependency file of output `out`: the suffix of the last path component
    replaced by `.d`, or `.d` appended to a component without one. -/
def gccDepName (out : Str) : Str :=
  let (dir, base) := match strrchr '/' out with
    | some (a, b) => (a ++ ['/'], b)
    | none => ([], out)
  match strrchr '.' base with
  | some (a, _) => dir ++ a ++ ".d".toList
  | none => out ++ ".d".toList

example : mkobjname (objdir "debug".toList) "src/a.cpp".toList = "obj/debug/src/a.o".toList := by
  decide

example : gccDepName "obj/debug/pre.h.gch".toList = "obj/debug/pre.h.d".toList := by decide

end Cake
