import Mathlib.Data.List.Infix
import Cake.Names

/-! Where the products of a build lie.

    Objects, precompiled headers and dependency files are under `obj/`, programs under `bin/`, archives
    under `lib/`, and what stands after the last dot tells the three kinds under `obj/` apart:

        object                   .o, nothing, or no dot
        precompiled header       .gch
        dependency file of gcc   .d

    So a path is written by one kind of command only. -/

namespace Cake

/-! ### The last dot -/

theorem strrchr_none {c : Char} : ∀ {s : Str}, c ∉ s → strrchr c s = none
  | [], _ => rfl
  | x :: xs, h => by
    rw [List.mem_cons, not_or] at h
    rw [strrchr, strrchr_none h.2]
    exact if_neg (Ne.symm h.1)

theorem not_mem_of_strrchr {c : Char} : ∀ {s : Str}, strrchr c s = none → c ∉ s
  | [], _ => List.not_mem_nil
  | x :: xs, h => by
    rw [strrchr] at h
    cases hx : strrchr c xs with
    | some ab => simp only [hx] at h; cases h
    | none =>
      simp only [hx, ite_eq_right_iff, reduceCtorEq, imp_false] at h
      rw [List.mem_cons, not_or]
      exact ⟨Ne.symm h, not_mem_of_strrchr hx⟩

theorem strrchr_append {c : Char} {b : Str} (h : c ∉ b) : ∀ a : Str,
    strrchr c (a ++ c :: b) = some (a, b)
  | [] => by
    rw [List.nil_append, strrchr, strrchr_none h]
    exact if_pos rfl
  | x :: a => by rw [List.cons_append, strrchr, strrchr_append h a]

/-- The text is cut at the last `c`. -/
theorem strrchr_spec {c : Char} : ∀ {s a b : Str}, strrchr c s = some (a, b) →
    s = a ++ c :: b ∧ c ∉ b
  | x :: xs, a, b, h => by
    rw [strrchr] at h
    cases hx : strrchr c xs with
    | some ab =>
      obtain ⟨a', b'⟩ := ab
      simp only [hx, Option.some.injEq, Prod.mk.injEq] at h
      obtain ⟨rfl, rfl⟩ := h
      obtain ⟨hxs, hmem⟩ := strrchr_spec hx
      exact ⟨by rw [hxs, List.cons_append], hmem⟩
    | none =>
      simp only [hx] at h
      split at h
      · rename_i hc
        simp only [Option.some.injEq, Prod.mk.injEq] at h
        obtain ⟨rfl, rfl⟩ := h
        exact ⟨by rw [hc, List.nil_append], not_mem_of_strrchr hx⟩
      · cases h

/-- What stands after the last dot. -/
def tailOf (s : Str) : Option Str := (strrchr '.' s).map Prod.snd

theorem tailOf_append {b : Str} (h : '.' ∉ b) (a : Str) : tailOf (a ++ '.' :: b) = some b := by
  rw [tailOf, strrchr_append h]; rfl

theorem tailOf_mkobjname (dir fname : Str) :
    tailOf (mkobjname dir fname) = some ['o'] ∨ tailOf (mkobjname dir fname) = some [] ∨
      tailOf (mkobjname dir fname) = none := by
  rw [mkobjname, rewriteTail]
  cases h : strrchr '.' (dir ++ fname) with
  | none => exact Or.inr (Or.inr (by rw [tailOf, h]; rfl))
  | some ab =>
    obtain ⟨a, b⟩ := ab
    dsimp only
    split
    · rename_i hb
      exact Or.inr (Or.inl (by rw [tailOf, h, List.isEmpty_iff.mp hb]; rfl))
    · exact Or.inl (tailOf_append (by decide) a)

theorem tailOf_mkpchname (dir fname : Str) : tailOf (mkpchname dir fname) = some "gch".toList :=
  tailOf_append (b := "gch".toList) (by decide) (dir ++ fname)

theorem tailOf_gccDepName (out : Str) : tailOf (gccDepName out) = some ['d'] := by
  rw [gccDepName]
  rcases strrchr '/' out with _ | ⟨a, b⟩ <;> dsimp only
  · rcases strrchr '.' out with _ | ⟨c, d⟩
    · exact tailOf_append (b := ['d']) (by decide) out
    · exact tailOf_append (b := ['d']) (by decide) _
  · rcases strrchr '.' b with _ | ⟨c, d⟩
    · exact tailOf_append (b := ['d']) (by decide) out
    · exact tailOf_append (b := ['d']) (by decide) _

theorem mkobjname_ne_gccDepName (dir fname out : Str) : mkobjname dir fname ≠ gccDepName out := by
  intro h
  have ht := tailOf_gccDepName out
  rw [← h] at ht
  rcases tailOf_mkobjname dir fname with h | h | h <;> rw [h] at ht <;> exact absurd ht (by decide)

theorem mkobjname_ne_mkpchname (dir fname dir' fname' : Str) :
    mkobjname dir fname ≠ mkpchname dir' fname' := by
  intro h
  have ht := tailOf_mkpchname dir' fname'
  rw [← h] at ht
  rcases tailOf_mkobjname dir fname with h | h | h <;> rw [h] at ht <;> exact absurd ht (by decide)

theorem mkpchname_ne_gccDepName (dir fname out : Str) : mkpchname dir fname ≠ gccDepName out := by
  intro h
  have ht := tailOf_gccDepName out
  rw [← h, tailOf_mkpchname] at ht
  exact absurd ht (by decide)

/-! ### The directories -/

/-- A path under one of the directories cake writes to. -/
def isProduct (p : Str) : Bool :=
  baseobjdir.isPrefixOf p || bindir.isPrefixOf p || libdir.isPrefixOf p

/-- A prefix without `c` ends before any `c`. -/
theorem prefix_before {c : Char} : ∀ {pre a b : Str}, c ∉ pre → pre <+: a ++ c :: b → pre <+: a
  | [], _, _, _, _ => List.nil_prefix
  | x :: pre, [], _, hc, h => by
    rw [List.nil_append, List.cons_prefix_cons] at h
    exact absurd (List.mem_cons.mpr (Or.inl h.1.symm)) hc
  | x :: pre, y :: a, _, hc, h => by
    rw [List.cons_append, List.cons_prefix_cons] at h
    rw [List.cons_prefix_cons]
    exact ⟨h.1, prefix_before (fun hm => hc (List.mem_cons_of_mem x hm)) h.2⟩

theorem rewriteTail_prefix {ext : Char} {pre tmp : Str} (hpre : '.' ∉ pre) (h : pre <+: tmp) :
    pre <+: rewriteTail ext tmp := by
  rw [rewriteTail]
  cases hs : strrchr '.' tmp with
  | none => exact h
  | some ab =>
    obtain ⟨a, b⟩ := ab
    dsimp only
    split
    · exact h
    · rw [(strrchr_spec hs).1] at h
      exact (prefix_before hpre h).trans (List.prefix_append a _)

/-- gcc writes the dependency file beside the output. -/
theorem gccDepName_prefix {d out : Str} (hd : '/' ∉ d) (h : d ++ ['/'] <+: out) :
    d ++ ['/'] <+: gccDepName out := by
  rw [gccDepName]
  cases hs : strrchr '/' out with
  | none =>
    have hno : strrchr '/' out ≠ none := by
      obtain ⟨rest, rfl⟩ := h
      intro hn
      rw [List.append_assoc, List.singleton_append] at hn
      exact absurd (not_mem_of_strrchr hn) (by simp)
    exact absurd hs hno
  | some ab =>
    obtain ⟨a, b⟩ := ab
    have hout := (strrchr_spec hs).1
    have ha : d ++ ['/'] <+: a ++ ['/'] := by
      have hlen : d <+: a := prefix_before hd (hout ▸ (List.prefix_append d ['/']).trans h)
      refine List.prefix_of_prefix_length_le h ⟨b, by rw [hout]; simp⟩ ?_
      simpa using hlen.length_le
    dsimp only
    rcases strrchr '.' b with _ | ⟨e, f⟩
    · exact h.trans (List.prefix_append out _)
    · exact ha.trans ⟨e ++ ".d".toList, by simp⟩

theorem under_objdir (target fname : Str) : baseobjdir <+: objdir target ++ fname :=
  ⟨target ++ ['/'] ++ fname, by simp [objdir]⟩

theorem mkobjname_under (target fname : Str) : baseobjdir <+: mkobjname (objdir target) fname :=
  rewriteTail_prefix (by decide) (under_objdir target fname)

/-- Under a target without a dot the objects have a directory of their own. -/
theorem mkobjname_in {target : Str} (h : '.' ∉ target) (fname : Str) :
    objdir target <+: mkobjname (objdir target) fname := by
  refine rewriteTail_prefix (fun hm => ?_) (List.prefix_append _ _)
  simp only [objdir, baseobjdir, List.mem_append, List.mem_singleton] at hm
  rcases hm with (hm | hm) | hm
  · exact absurd hm (by decide)
  · exact h hm
  · exact absurd hm (by decide)

theorem mkpchname_under (target fname : Str) : baseobjdir <+: mkpchname (objdir target) fname :=
  (under_objdir target fname).trans (List.prefix_append _ _)

theorem mkdepname_under (target fname : Str) : baseobjdir <+: mkdepname (objdir target) fname := by
  rw [mkdepname]
  split
  · exact (under_objdir target fname).trans (List.prefix_append _ _)
  · exact rewriteTail_prefix (by decide) (under_objdir target fname)

theorem gccDepName_under {out : Str} (h : baseobjdir <+: out) : baseobjdir <+: gccDepName out :=
  gccDepName_prefix (d := "obj".toList) (by decide) h

theorem outName_under (name : Str) : bindir <+: outName name := List.prefix_append _ _

theorem libName_under (name : Str) : libdir <+: libName name :=
  ⟨"lib".toList ++ name ++ ".a".toList, by simp [libName]⟩

/-- The three directories are apart. -/
theorem obj_ne_bin {o q : Str} (ho : baseobjdir <+: o) (hq : bindir <+: q) : o ≠ q := by
  rintro rfl
  exact absurd (List.prefix_of_prefix_length_le ho hq (by decide)) (by decide)

theorem obj_ne_lib {o q : Str} (ho : baseobjdir <+: o) (hq : libdir <+: q) : o ≠ q := by
  rintro rfl
  exact absurd (List.prefix_of_prefix_length_le ho hq (by decide)) (by decide)

theorem product_obj {o : Str} (h : baseobjdir <+: o) : isProduct o = true := by
  rw [isProduct, List.isPrefixOf_iff_prefix.mpr h]; rfl

theorem product_bin {o : Str} (h : bindir <+: o) : isProduct o = true := by
  rw [isProduct, List.isPrefixOf_iff_prefix.mpr h]; simp

theorem product_lib {o : Str} (h : libdir <+: o) : isProduct o = true := by
  rw [isProduct, List.isPrefixOf_iff_prefix.mpr h]; simp

end Cake
