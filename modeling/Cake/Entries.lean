import Mathlib.Data.Bool.AllAny
import Cake.Lib.Glob
import Cake.Alone

/-! Entries of `m_files` and the files they stand for.

    `is_header` and `is_cppfile` look at the entry as it is written, `glob` is asked later and by
    `build::compile` alone. An entry whose plain end says enough is told apart as its matches are; `*` at
    the end says nothing, and a header that it matches is compiled as a source.

        entry        taken for     matches
        src/*.cpp    C++ source    C++ sources
        *.c          C source      C sources
        pre.h        header        itself
        src/*        C source      whatever is there -/

namespace Cake

variable {env : Env} {w w' : World} {p : Project} {c : Str} {l : List Str}

/-- What the two tests say of the entry they say of every name with its plain end. -/
structure PlainEnd (entry : Str) : Prop where
  header : ∀ pre, isHeader (pre ++ Glob.plainEnd entry) = isHeader entry
  cppfile : ∀ pre, isCppfile (pre ++ Glob.plainEnd entry) = isCppfile entry

/-- The entry is the name of one file. -/
structure Literal (entry : Str) : Prop where
  plain : ∀ x ∈ entry, Glob.isMeta x = false
  tilde : entry.head? ≠ some '~'

/-! ### What an entry matches -/

theorem Literal.matches {entry f : Str} (h : Literal entry) (hf : Glob.Expands entry f) : f = entry := by
  obtain ⟨n, rfl, hn⟩ := @Glob.Expands.ends [] entry f hf h.plain fun ht => absurd ht h.tilde
  rw [hn rfl, List.nil_append]

/-- An ending that does not reach beyond the end of a text is found in that end. -/
theorem endswith_suffix {str suf : Str} {ends : List Str} (hsuf : suf <:+ str)
    (h : ∀ e ∈ ends, suf <:+ e → e.length ≤ suf.length) : endswith1of str ends = endswith1of suf ends := by
  rw [endswith1of, endswith1of, Bool.eq_iff_iff, List.any_eq_true, List.any_eq_true]
  refine exists_congr fun e => and_congr_right fun he => ?_
  rw [List.isSuffixOf_iff_suffix, List.isSuffixOf_iff_suffix]
  constructor
  · intro hs
    rcases List.suffix_or_suffix_of_suffix hs hsuf with hin | hout
    · exact hin
    · exact List.suffix_of_suffix_length_le hs hsuf (h e he hout)
  · exact fun hs => hs.trans hsuf

/-- The plain end says enough if neither test looks for something longer that ends in it. -/
theorem plainEnd_of_endings {entry : Str}
    (h : ∀ e ∈ [".h".toList, ".hpp".toList, ".hxx".toList, ".inc".toList] ++
      ["cpp".toList, "cxx".toList, "cc".toList, "C".toList],
      Glob.plainEnd entry <:+ e → e.length ≤ (Glob.plainEnd entry).length) : PlainEnd entry where
  header pre := by
    have hends := fun e he => h e (List.mem_append_left _ he)
    exact (endswith_suffix (List.suffix_append pre _) hends).trans
      (endswith_suffix (Glob.plainEnd_suffix entry) hends).symm
  cppfile pre := by
    have hends := fun e he => h e (List.mem_append_right _ he)
    exact (endswith_suffix (List.suffix_append pre _) hends).trans
      (endswith_suffix (Glob.plainEnd_suffix entry) hends).symm

/-- A name, and an entry whose plain end says enough, are told apart as their matches are. -/
theorem entry_classify {entry f : Str} (h : Literal entry ∨ PlainEnd entry)
    (hf : f = entry ∨ Glob.Expands entry f) :
    isHeader f = isHeader entry ∧ isCppfile f = isCppfile entry := by
  rcases hf with rfl | hf
  · exact ⟨rfl, rfl⟩
  rcases h with h | h
  · exact h.matches hf ▸ ⟨rfl, rfl⟩
  · obtain ⟨pre, rfl⟩ := hf.plainEnd_suffix
    exact ⟨h.header pre, h.cppfile pre⟩

/-- No header looks like C++. -/
theorem not_cpp_of_header {f : Str} (h : isHeader f = true) : isCppfile f = false := by
  refine Bool.eq_false_iff.mpr fun hcpp => ?_
  rw [isHeader, endswith1of, List.any_eq_true] at h
  rw [isCppfile, endswith1of, List.any_eq_true] at hcpp
  obtain ⟨a, ha, hsa⟩ := h
  obtain ⟨b, hb, hsb⟩ := hcpp
  rw [List.isSuffixOf_iff_suffix] at hsa hsb
  -- two endings of one text: the shorter is an ending of the longer
  rcases List.suffix_or_suffix_of_suffix hsa hsb with hab | hab
  · fin_cases ha <;> fin_cases hb <;> exact absurd hab (by decide)
  · fin_cases ha <;> fin_cases hb <;> exact absurd hab (by decide)

/-! ### The sources -/

/-- Every entry contributes a source. -/
theorem expand_ne_nil (w : World) (entry : Str) : ∃ f, f ∈ expand w entry := by
  rw [expand]
  split
  · exact ⟨entry, List.mem_singleton_self entry⟩
  · rename_i hne
    exact List.exists_mem_of_ne_nil _ (by simpa using hne)

theorem visited_entry {fits : Str → Str → Prop} (henv : env.Lists fits) (cflags : Str) :
    ∀ (ps : List Str) (s : St), s.w.Lists fits → ∀ entry ∈ ps,
      ∃ f ∈ visited env cflags ps s, f = entry ∨ fits entry f
  | entry :: ps, s, hw, q, hq => by
    rw [visited]
    rcases List.mem_cons.mp hq with rfl | hq
    · obtain ⟨f, hf⟩ := expand_ne_nil s.w q
      exact ⟨f, List.mem_append_left _ hf, expand_source hw hf⟩
    · have hpath : Path env .all s.w (compilePattern env cflags s entry).w := by
        rw [compilePattern_eq]
        exact path_compileAll (fun _ => True) (fun _ _ => trivial) (fun _ _ _ _ _ => trivial) _ s
          (fun _ _ => trivial) rfl rfl
      obtain ⟨f, hf, hfits⟩ := visited_entry henv cflags ps _ (hpath.lists henv hw) q hq
      exact ⟨f, List.mem_append_right _ hf, hfits⟩

/-- The sources of a project whose other entries than headers have plain ends: none is a header, and one
    is C++ exactly when one of the entries is. -/
theorem Project.sources_classify (henv : env.Lists Glob.Expands) (hw : w.Lists Glob.Expands)
    (hplain : ∀ entry ∈ p.files, isHeader entry = false → Literal entry ∨ PlainEnd entry) (cflags : Str) :
    (∀ f ∈ p.sources env cflags w, isHeader f = false) ∧
      (p.makingCpp = true ↔ ∃ f ∈ p.sources env cflags w, isCppfile f = true) := by
  have hclass : ∀ {entry f : Str}, entry ∈ p.patterns → f = entry ∨ Glob.Expands entry f →
      isHeader f = false ∧ isCppfile f = isCppfile entry := fun {entry f} he hf => by
    obtain ⟨hmem, hno⟩ := List.mem_filter.mp he
    have hhead : isHeader entry = false := by simpa using hno
    obtain ⟨hh, hc⟩ := entry_classify (hplain entry hmem hhead) hf
    exact ⟨hh.trans hhead, hc⟩
  constructor
  · intro f hf
    obtain ⟨entry, he, hfits⟩ := Project.sources_source henv hw f hf
    exact (hclass he hfits).1
  · rw [makingCpp, List.any_eq_true]
    constructor
    · rintro ⟨entry, hmem, hcpp⟩
      have he : entry ∈ p.patterns := by
        refine List.mem_filter.mpr ⟨hmem, ?_⟩
        cases hh : isHeader entry with
        | false => rfl
        | true =>
          rw [not_cpp_of_header hh] at hcpp
          cases hcpp
      have hpath : Path env .all w (p.header env cflags w).w := (path_header fun _ _ => trivial).build trivial
      obtain ⟨f, hf, hfits⟩ := visited_entry henv cflags p.patterns _ (hpath.lists henv hw) entry he
      exact ⟨f, hf, (hclass he hfits).2.trans hcpp⟩
    · rintro ⟨f, hf, hcpp⟩
      obtain ⟨entry, he, hfits⟩ := Project.sources_source henv hw f hf
      exact ⟨entry, (List.mem_filter.mp he).1, (hclass he hfits).2.symm.trans hcpp⟩

/-- With plain ends, classifying the entries is classifying the files: no header is compiled as a source,
    a precompiled header that is written out is the file its entry matches, and `-lstdc++` is linked
    exactly when a source is C++ or it was asked for. -/
theorem entries_classify (henv : env.Lists Glob.Expands) (hw : w.Lists Glob.Expands)
    (hplain : ∀ entry ∈ p.files, isHeader entry = false → Literal entry ∨ PlainEnd entry)
    (hpkg : pkgConfig env p.pkgdepends = some (c, l)) (gs : List Project) :
    (∀ f ∈ p.sources env (p.flagText c) w, isHeader f = false) ∧
    (∀ h, p.files.find? isHeader = some h →
      p.header env (p.flagText c) w = makePch env h (p.flagText c) p.makingCpp (newBuild env w) ∧
      (Literal h → w.glob h ≠ [] → h ∈ w.glob h)) ∧
    (p.type = .program → p.outTarget ≠ [] → ∃ libs,
      p.compile env gs w = link env p.outTarget (p.flagText c) libs (p.libDepends gs)
        (p.after env (p.flagText c) (p.sources env (p.flagText c) w).length w) ∧
      ("-lstdc++".toList ∈ libs ↔ (∃ f ∈ p.sources env (p.flagText c) w, isCppfile f = true) ∨
        "-lstdc++".toList ∈ p.libs ++ l)) := by
  obtain ⟨hheaders, hcpp⟩ := p.sources_classify henv hw hplain (p.flagText c)
  refine ⟨hheaders, fun h hh => ⟨?_, fun hlit hne => ?_⟩, fun htype hout => ?_⟩
  · rw [Project.header, Project.pchStep, hh]
  · obtain ⟨f, hf⟩ := List.exists_mem_of_ne_nil _ hne
    exact hlit.matches (hw h f hf) ▸ hf
  · refine ⟨p.libs ++ l ++ (if p.makingCpp then ["-lstdc++".toList] else []), ?_, ?_⟩
    · rw [p.compile_eq env gs w hpkg, Project.outputStep, if_neg (by simpa using hout), htype]
    · rw [← hcpp, List.mem_append, or_comm]
      refine or_congr_left ?_
      cases p.makingCpp <;> simp

/-- Directories with one C++ source and one header. -/
def oneOfEach : World :=
  { World.empty with glob := fun pat =>
      if pat = "src/*.cpp".toList then ["src/a.cpp".toList]
      else if pat = "src/*".toList then ["src/a.h".toList] else [] }

theorem oneOfEach_lists : oneOfEach.Lists Glob.Expands := by
  intro pat f hf
  rw [oneOfEach] at hf
  dsimp only at hf
  split at hf
  · rename_i hpat
    rw [hpat, List.mem_singleton.mp hf]
    exact .plain (.char _ (.char _ (.char _ (.char _ (.star (by decide) (.starEnd
      (.char _ (.char _ (.char _ (.char _ .nil))))))))))
  · split at hf
    · rename_i hpat
      rw [hpat, List.mem_singleton.mp hf]
      exact .plain (.char _ (.char _ (.char _ (.char _ (.star (by decide) (.star (by decide)
        (.star (by decide) (.starEnd .nil))))))))
    · exact absurd hf List.not_mem_nil

/-- `src/*.cpp` and `*.c` match no header. -/
theorem plain_entry_classified :
    let p := { Project.fresh .program "prog".toList with files := ["src/*.cpp".toList, "*.c".toList] }
    ∀ f ∈ p.sources (Env.quiet 1) (p.flagText []) oneOfEach, isHeader f = false := by
  intro p
  have hplain : ∀ entry ∈ p.files, isHeader entry = false → Literal entry ∨ PlainEnd entry := by
    intro entry he _
    refine .inr (plainEnd_of_endings ?_)
    rcases List.mem_pair.mp he with rfl | rfl
    · decide
    · decide
  exact (entries_classify (p := p) (c := []) (l := []) (fun _ _ h => absurd h List.not_mem_nil)
    oneOfEach_lists hplain rfl [p]).1

/-- `src/*` matches a header, and the header is compiled as a source. -/
theorem header_compiled :
    let p := { Project.fresh .program "prog".toList with files := ["src/*".toList] }
    oneOfEach.Lists Glob.Expands ∧
      ∃ f ∈ p.sources (Env.quiet 1) (p.flagText []) oneOfEach, isHeader f = true :=
  ⟨oneOfEach_lists, "src/a.h".toList, by decide +kernel, by decide⟩

end Cake
