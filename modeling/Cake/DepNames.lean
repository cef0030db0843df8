import Cake.Paths

/-! Where cake looks for dependency files, and where gcc writes them.

    `mkobjname` and `mkdepname` rewrite what follows the last dot of the whole path, gcc what follows the
    last dot of the last component. That is the same place, as the dot is the one of `.o`. Two things
    come between: `mkdepname` has a list of header endings of its own, longer than the one of
    `is_header` and without the dots, and a path with nothing after its last dot is not rewritten.

        path            mkobjname     gcc           mkdepname
        dir/a.c         dir/a.o       dir/a.d       dir/a.d
        dir/a.hh        dir/a.o       dir/a.d       dir/a.hh.d
        dir/main        dir/main      dir/main.d    dir/main
        dir/graph       dir/graph     dir/graph.d   dir/graph.d -/

namespace Cake

/-- The path ends as `mkdepname` expects of a header. -/
def headerTail (tmp : Str) : Bool :=
  endswith1of tmp ["h".toList, "hpp".toList, "hh".toList, "hxx".toList, "inc".toList]

/-- There is something after the last dot. -/
def suffixed (tmp : Str) : Bool :=
  match strrchr '.' tmp with
  | some (_, b) => !b.isEmpty
  | none => false

/-- cake looks for the dependency file where gcc writes it: beside the object, or beside the precompiled
    header. -/
structure LooksBeside (target f : Str) : Prop where
  source : isHeader f = false →
    mkdepname (objdir target) f = gccDepName (mkobjname (objdir target) f) ∧
      mkdepname (objdir target) f ≠ mkobjname (objdir target) f
  header : isHeader f = true →
    mkdepname (objdir target) f = gccDepName (mkpchname (objdir target) f) ∧
      ∃ stem, mkpchname (objdir target) f = stem ++ ".gch".toList ∧
        mkdepname (objdir target) f = stem ++ ".d".toList

/-! ### The last dot and the last slash -/

/-- gcc replaces a suffix. -/
theorem gccDepName_append {b : Str} (hdot : '.' ∉ b) (hslash : '/' ∉ b) (s : Str) :
    gccDepName (s ++ '.' :: b) = s ++ ".d".toList := by
  have htail : '/' ∉ '.' :: b := by simp [hslash]
  rw [gccDepName]
  cases hs : strrchr '/' s with
  | none =>
    have hno : '/' ∉ s ++ '.' :: b := by
      rw [List.mem_append, not_or]
      exact ⟨not_mem_of_strrchr hs, htail⟩
    simp only [strrchr_none hno, strrchr_append hdot, List.nil_append]
  | some ac =>
    obtain ⟨a, c⟩ := ac
    have hno : '/' ∉ c ++ '.' :: b := by
      rw [List.mem_append, not_or]
      exact ⟨(strrchr_spec hs).2, htail⟩
    have hout : s ++ '.' :: b = a ++ '/' :: (c ++ '.' :: b) := by
      rw [(strrchr_spec hs).1, List.append_assoc, List.cons_append]
    simp only [hout, strrchr_append hno, strrchr_append hdot]
    rw [(strrchr_spec hs).1]
    simp

/-- gcc appends a suffix where there is no dot. -/
theorem gccDepName_plain {s : Str} (h : '.' ∉ s) : gccDepName s = s ++ ".d".toList := by
  rw [gccDepName]
  cases hs : strrchr '/' s with
  | none => simp only [strrchr_none h]
  | some ac =>
    obtain ⟨a, c⟩ := ac
    have hc : '.' ∉ c := fun hm => h (by rw [(strrchr_spec hs).1]; simp [hm])
    simp only [strrchr_none hc]

theorem rewriteTail_none {ext : Char} {tmp : Str} (h : strrchr '.' tmp = none) :
    rewriteTail ext tmp = tmp := by
  rw [rewriteTail, h]

theorem rewriteTail_nil {ext : Char} {tmp a : Str} (h : strrchr '.' tmp = some (a, [])) :
    rewriteTail ext tmp = tmp := by
  rw [rewriteTail, h]; rfl

theorem rewriteTail_some {ext : Char} {tmp a b : Str} (h : strrchr '.' tmp = some (a, b))
    (hb : b ≠ []) : rewriteTail ext tmp = a ++ ['.', ext] := by
  rw [rewriteTail, h]
  exact if_neg (by simpa using hb)

/-! ### Endings -/

theorem endswith_iff {str : Str} {ends : List Str} :
    endswith1of str ends = true ↔ ∃ e ∈ ends, e <:+ str := by
  simp [endswith1of, List.any_eq_true, List.isSuffixOf_iff_suffix]

theorem headerTail_of_isHeader (dir : Str) {f : Str} (h : isHeader f = true) :
    headerTail (dir ++ f) = true := by
  rw [isHeader, endswith_iff] at h
  obtain ⟨e, he, hsuf⟩ := h
  have hsuf' : e <:+ dir ++ f := hsuf.trans (List.suffix_append dir f)
  rw [headerTail, endswith_iff]
  have hdrop : ∀ t : Str, '.' :: t <:+ dir ++ f → t <:+ dir ++ f := fun t ht =>
    (List.suffix_cons '.' t).trans ht
  simp only [List.mem_cons, List.not_mem_nil, or_false] at he
  rcases he with rfl | rfl | rfl | rfl
  · exact ⟨"h".toList, by simp, hdrop "h".toList hsuf'⟩
  · exact ⟨"hpp".toList, by simp, hdrop "hpp".toList hsuf'⟩
  · exact ⟨"hxx".toList, by simp, hdrop "hxx".toList hsuf'⟩
  · exact ⟨"inc".toList, by simp, hdrop "inc".toList hsuf'⟩

/-- A header ending is not a dot. -/
theorem headerTail_not_dot {tmp a : Str} (h : headerTail tmp = true) : tmp ≠ a ++ ['.'] := by
  rintro rfl
  rw [headerTail, endswith_iff] at h
  obtain ⟨e, he, hsuf⟩ := h
  have hlast : ∀ x, e.getLast? = some x → x = '.' := fun x hx => by
    obtain ⟨pre, hpre⟩ := hsuf
    have hl := congrArg List.getLast? hpre
    rw [List.getLast?_append, hx] at hl
    simpa using hl
  simp only [List.mem_cons, List.not_mem_nil, or_false] at he
  rcases he with rfl | rfl | rfl | rfl | rfl <;> exact absurd (hlast _ rfl) (by decide)

theorem mkdepname_header {dir f : Str} (h : headerTail (dir ++ f) = true) :
    mkdepname dir f = dir ++ f ++ ".d".toList := if_pos h

theorem mkdepname_source {dir f : Str} (h : headerTail (dir ++ f) = false) :
    mkdepname dir f = rewriteTail 'd' (dir ++ f) := if_neg (by rw [← headerTail, h]; simp)

/-! ### The two names -/

/-- A header's dependency file is found. -/
theorem pch_beside (dir : Str) {f : Str} (h : isHeader f = true) :
    mkdepname dir f = gccDepName (mkpchname dir f) ∧
      ∃ stem, mkpchname dir f = stem ++ ".gch".toList ∧ mkdepname dir f = stem ++ ".d".toList := by
  have hdep := mkdepname_header (headerTail_of_isHeader dir h)
  refine ⟨?_, dir ++ f, rfl, hdep⟩
  rw [hdep, mkpchname]
  exact (gccDepName_append (b := "gch".toList) (by decide) (by decide) _).symm

/-- The dependency file of the object is found in these cases and in no other. -/
theorem object_beside (dir f : Str) :
    (mkdepname dir f = gccDepName (mkobjname dir f) ∧ mkdepname dir f ≠ mkobjname dir f) ↔
      if headerTail (dir ++ f) then '.' ∉ dir ++ f else suffixed (dir ++ f) = true := by
  cases ht : headerTail (dir ++ f) with
  | true =>
    rw [mkdepname_header ht, mkobjname, if_pos rfl]
    cases hs : strrchr '.' (dir ++ f) with
    | none =>
      have hno := not_mem_of_strrchr hs
      rw [rewriteTail_none hs, gccDepName_plain hno]
      simp only [hno, not_false_eq_true, iff_true, true_and]
      exact fun h => by simpa using congrArg List.length h
    | some ab =>
      obtain ⟨a, b⟩ := ab
      have htmp := (strrchr_spec hs).1
      have hb : b ≠ [] := fun hb => headerTail_not_dot ht (htmp.trans (by rw [hb]))
      have hmem : '.' ∈ dir ++ f := by rw [htmp]; simp
      rw [rewriteTail_some hs hb, gccDepName_append (b := ['o']) (by decide) (by decide)]
      simp only [hmem, not_true_eq_false, iff_false, not_and]
      intro h
      rw [htmp] at h
      have hlen := congrArg List.length h
      simp only [List.length_append, List.length_cons] at hlen
      exact absurd (List.length_pos_iff.mpr hb) (by omega)
  | false =>
    rw [mkdepname_source ht, mkobjname, if_neg (by simp), suffixed]
    cases hs : strrchr '.' (dir ++ f) with
    | none => simp [rewriteTail_none hs]
    | some ab =>
      obtain ⟨a, b⟩ := ab
      cases b with
      | nil => simp [rewriteTail_nil hs]
      | cons c b =>
        rw [rewriteTail_some hs (by simp), rewriteTail_some hs (by simp),
          gccDepName_append (b := ['o']) (by decide) (by decide)]
        simp

/-- cake looks where gcc writes for every header, and for a source exactly when the path ends as
    `mkdepname` expects of a header and has no dot, or does not end so and has something after its last
    dot. -/
theorem looks_beside_iff (target f : Str) : LooksBeside target f ↔
    (isHeader f = false →
      if headerTail (objdir target ++ f) then '.' ∉ objdir target ++ f
      else suffixed (objdir target ++ f) = true) := by
  constructor
  · intro h hf
    exact (object_beside _ _).mp (h.source hf)
  · intro h
    exact ⟨fun hf => (object_beside _ _).mpr (h hf), pch_beside _⟩

/-- `vec.hh` is compiled as a source and its dependency file is looked for as that of a header. -/
theorem other_header_list : ¬ LooksBeside "debug".toList "vec.hh".toList := by
  intro h
  have hsource := h.source (by decide)
  exact absurd hsource.1 (by decide)

end Cake
