import Cake.DepText

/-! What `needs_rebuild` answers: for a dependency file in good order, and for any bytes at all.

    Between the names of a well-formed file stand blanks, tabs, backslashes and line ends, any number
    of them. The object is looked at only through the names: a list without names says nothing about
    it, and a list without the source nothing about the source.

        obj/main.o: main.c \
          a.h                    object against makefile, main.c, a.h
        obj/main.o:              nothing is looked at, the object stands -/

namespace Cake

/-- The text of the names, each after its gap. -/
def namesText : List (Str × Str) → Str
  | [] => []
  | (gap, name) :: rest => gap ++ name ++ namesText rest

/-- A dependency file in good order. There may be gaps before the first name and after the last. -/
structure DepFile where
  target : Str
  lead : Str
  first : Str
  rest : List (Str × Str)
  trail : Str
  target_colon : ':' ∉ target
  target_nul : '\x00' ∉ target
  gaps : ∀ gap ∈ lead :: trail :: rest.map Prod.fst, ∀ c ∈ gap, depDelim c = true
  apart : ∀ gap ∈ rest.map Prod.fst, gap ≠ []
  names_plain : ∀ name ∈ first :: rest.map Prod.snd,
    name ≠ [] ∧ ∀ c ∈ name, depDelim c = false ∧ c ≠ '\x00'

namespace DepFile

def names (d : DepFile) : List Str := d.first :: d.rest.map Prod.snd

def text (d : DepFile) : Str :=
  d.target ++ ':' :: (d.lead ++ d.first ++ namesText d.rest ++ d.trail)

end DepFile

/-- The object is there and as new as the makefile and the source. -/
def Holds (fs : FS) (makefileTime : ℕ) (fname objname : Str) : Prop :=
  ∃ o, fs objname = some o ∧ makefileTime ≤ o.mtime ∧ ∀ f, fs fname = some f → f.mtime ≤ o.mtime

/-! ### Files in good order -/

theorem tokens_gap {gap : Str} (h : ∀ c ∈ gap, depDelim c = true) (text : Str) :
    Tokens.tokens depDelim (gap ++ text) = Tokens.tokens depDelim text := by
  induction gap with
  | nil => rfl
  | cons c gap ih =>
    obtain ⟨hc, hgap⟩ := List.forall_mem_cons.mp h
    rw [List.cons_append, Tokens.tokens_cons hc, ih hgap]

/-- Names after gaps are read one by one. -/
theorem tokens_names {trail : Str} (ht : ∀ c ∈ trail, depDelim c = true)
    {rest : List (Str × Str)} {name : Str} (hne : name ≠ []) (hname : ∀ c ∈ name, depDelim c = false)
    (h : ∀ e ∈ rest, (e.1 ≠ [] ∧ ∀ c ∈ e.1, depDelim c = true) ∧
      e.2 ≠ [] ∧ ∀ c ∈ e.2, depDelim c = false) :
    Tokens.tokens depDelim (name ++ (namesText rest ++ trail)) = name :: rest.map Prod.snd := by
  induction rest generalizing name with
  | nil =>
    rw [namesText, List.nil_append, List.map_nil]
    cases trail with
    | nil => rw [List.append_nil, Tokens.tokens_word hname hne]
    | cons c trail =>
      obtain ⟨hc, htrail⟩ := List.forall_mem_cons.mp ht
      have hrest := tokens_gap htrail []
      rw [List.append_nil] at hrest
      rw [Tokens.tokens_append hc, Tokens.tokens_word hname hne, hrest]
      rfl
  | cons e rest ih =>
    obtain ⟨gap, next⟩ := e
    obtain ⟨⟨⟨hgne, hgap⟩, hnne, hnext⟩, hrest⟩ := List.forall_mem_cons.mp h
    obtain ⟨c, gap, rfl⟩ := List.exists_cons_of_ne_nil hgne
    obtain ⟨hc, hgap⟩ := List.forall_mem_cons.mp hgap
    rw [namesText, List.map_cons, ← ih hnne hnext hrest]
    simp only [List.append_assoc, List.cons_append]
    rw [Tokens.tokens_append hc, Tokens.tokens_word hname hne, tokens_gap hgap]
    rfl

namespace DepFile

variable (d : DepFile)

theorem rest_plain : ∀ e ∈ d.rest, (e.1 ≠ [] ∧ ∀ c ∈ e.1, depDelim c = true) ∧
    e.2 ≠ [] ∧ ∀ c ∈ e.2, depDelim c = false := by
  intro e he
  have hgap : e.1 ∈ d.rest.map Prod.fst := List.mem_map_of_mem he
  have hname : e.2 ∈ d.rest.map Prod.snd := List.mem_map_of_mem he
  obtain ⟨hne, hplain⟩ := d.names_plain e.2 (List.mem_cons_of_mem _ hname)
  exact ⟨⟨d.apart _ hgap, d.gaps _ (by simp [hgap])⟩, hne, fun c hc => (hplain c hc).1⟩

theorem gap_nul {gap : Str} (h : ∀ c ∈ gap, depDelim c = true) : '\x00' ∉ gap := fun hm =>
  absurd (h _ hm) (by decide)

theorem namesText_nul {rest : List (Str × Str)} (h : ∀ e ∈ rest, '\x00' ∉ e.1 ∧ '\x00' ∉ e.2) :
    '\x00' ∉ namesText rest := by
  induction rest with
  | nil => exact List.not_mem_nil
  | cons e rest ih =>
    obtain ⟨⟨hgap, hname⟩, hrest⟩ := List.forall_mem_cons.mp h
    simp only [namesText, List.mem_append, not_or]
    exact ⟨⟨hgap, hname⟩, ih hrest⟩

theorem text_nul : '\x00' ∉ d.text := by
  have hfirst := (d.names_plain d.first (by simp)).2
  have hrest : '\x00' ∉ namesText d.rest := namesText_nul fun e he => by
    have hname := (d.names_plain e.2 (by simp; exact Or.inr ⟨e.1, he⟩)).2
    exact ⟨gap_nul (d.rest_plain e he).1.2, fun hm => (hname _ hm).2 rfl⟩
  have hcolon : ('\x00' : Char) ≠ ':' := by decide
  have hlead : '\x00' ∉ d.lead := gap_nul (d.gaps d.lead (by simp))
  have htrail : '\x00' ∉ d.trail := gap_nul (d.gaps d.trail (by simp))
  simp only [text, List.mem_append, List.mem_cons, not_or]
  exact ⟨d.target_nul, hcolon, ⟨⟨hlead, fun hm => (hfirst _ hm).2 rfl⟩, hrest⟩, htrail⟩

/-- The names come back in order. -/
theorem depTokens_text : depTokens d.text = some d.names := by
  obtain ⟨hne, hfirst⟩ := d.names_plain d.first (by simp)
  rw [depTokens, takeWhile_nul.mpr d.text_nul, text, strchr_first _ d.target_colon, Option.map_some]
  simp only [List.append_assoc]
  rw [tokens_gap (d.gaps d.lead (by simp)), tokens_names (d.gaps d.trail (by simp)) hne
    (fun c hc => (hfirst c hc).1) d.rest_plain, names]

theorem listed_text {fs : FS} {dep : Str} {m : ℕ} (h : fs dep = some ⟨m, d.text⟩) :
    listed fs dep = some d.names := by
  have hread : readFile fs dep = some d.text := by
    rw [readFile, h]
    exact if_neg (by simp [text])
  rw [listed, hread, Option.bind_some, d.depTokens_text]

end DepFile

/-! ### The answer -/

variable {fs : FS} {mk newest m : ℕ} {dir fname objname : Str}

/-- What keeps a listed file from passing. -/
theorem not_passes {t : Str} : ¬ Passes fs mk objname t ↔
    existsFile fs objname = false ∨ mk > mtimeOf fs objname ∨
      existsFile fs t = false ∨ mtimeOf fs t > mtimeOf fs objname := by
  rw [Passes, existsFile, existsFile, mtimeOf, mtimeOf]
  cases fs objname with
  | none => simp
  | some o =>
    cases fs t with
    | none => simp
    | some f =>
      have hdates : (∃ o' f', some o = some o' ∧ some f = some f' ∧ mk ≤ o'.mtime ∧
          f'.mtime ≤ o'.mtime) ↔ mk ≤ o.mtime ∧ f.mtime ≤ o.mtime := by simp
      rw [hdates]
      simp only [Option.isSome_some, Option.map_some, Option.getD_some, Bool.true_eq_false, false_or]
      omega

/-- The answer for a list of at least one file. -/
theorem needsRebuild_listed {dep : Str} {tokens : List Str} (hl : listed fs dep = some tokens)
    (hne : tokens ≠ []) :
    (needsRebuild false fs mk newest dep objname).1 = true ↔
      existsFile fs objname = false ∨ mk > mtimeOf fs objname ∨
        ∃ t ∈ tokens, existsFile fs t = false ∨ mtimeOf fs t > mtimeOf fs objname := by
  have hkept : (needsRebuild false fs mk newest dep objname).1 = false ↔
      ∀ t ∈ tokens, Passes fs mk objname t := by
    rw [kept_iff, hl]
    simp
  rw [← Bool.not_eq_false, hkept, not_forall]
  simp only [Classical.not_imp, not_passes]
  constructor
  · rintro ⟨t, ht, h | h | h⟩
    · exact Or.inl h
    · exact Or.inr (Or.inl h)
    · exact Or.inr (Or.inr ⟨t, ht, h⟩)
  · obtain ⟨t₀, ht₀⟩ := List.exists_mem_of_ne_nil _ hne
    rintro (h | h | ⟨t, ht, h⟩)
    · exact ⟨t₀, ht₀, Or.inl h⟩
    · exact ⟨t₀, ht₀, Or.inr (Or.inl h)⟩
    · exact ⟨t, ht, Or.inr (Or.inr h)⟩

/-- For a dependency file in good order the answer is exact, and an object that stands has made
    `newest_time` the greatest of what it was and the times of all the files listed. -/
theorem needsRebuild_exact (d : DepFile) (h : fs (mkdepname dir fname) = some ⟨m, d.text⟩)
    (mk newest : ℕ) (objname : Str) :
    ((needsRebuild false fs mk newest (mkdepname dir fname) objname).1 = true ↔
      existsFile fs objname = false ∨ mk > mtimeOf fs objname ∨
        ∃ t ∈ d.names, existsFile fs t = false ∨ mtimeOf fs t > mtimeOf fs objname) ∧
    ∀ n, needsRebuild false fs mk newest (mkdepname dir fname) objname = (false, n) →
      n = (d.names.map (mtimeOf fs)).foldl max newest := by
  have hl := d.listed_text h
  refine ⟨needsRebuild_listed hl (List.cons_ne_nil _ _), fun n hn => ?_⟩
  obtain ⟨_, tokens, htokens, _, heq⟩ := needsRebuild_false.mp hn
  rw [hl, Option.some.injEq] at htokens
  rw [heq, ← htokens, List.foldl_map]

/-- Two names on two lines. -/
def twoNames : DepFile where
  target := "obj/main.o".toList
  lead := " ".toList
  first := "main.c".toList
  rest := [(" \\\n ".toList, "a.h".toList)]
  trail := "\n".toList
  target_colon := by decide
  target_nul := by decide
  gaps := by
    intro gap hgap
    fin_cases hgap <;> exact List.all_iff_forall_prop.mp (by decide)
  apart := by
    intro gap hgap
    fin_cases hgap
    decide
  names_plain := by
    intro name hname
    fin_cases hname <;> exact ⟨by decide, List.all_iff_forall_prop.mp (by decide)⟩

theorem needsRebuild_two_names :
    (needsRebuild false (fun _ => some ⟨3, twoNames.text⟩) 1 2 (mkdepname "obj/".toList "main.c".toList)
        "obj/main.o".toList).1 = true ↔
      existsFile (fun _ => some ⟨3, twoNames.text⟩) "obj/main.o".toList = false ∨
        1 > mtimeOf (fun _ => some ⟨3, twoNames.text⟩) "obj/main.o".toList ∨
          ∃ t ∈ twoNames.names, existsFile (fun _ => some ⟨3, twoNames.text⟩) t = false ∨
            mtimeOf (fun _ => some ⟨3, twoNames.text⟩) t >
              mtimeOf (fun _ => some ⟨3, twoNames.text⟩) "obj/main.o".toList :=
  (needsRebuild_exact twoNames rfl 1 2 _).1

/-- A NUL before the colon ends the text. -/
theorem nul_in_target :
    ':' ∉ "main\x00.o".toList ∧ ∃ fs : FS,
      fs (mkdepname "obj/".toList "main.c".toList) = some ⟨3, "main\x00.o: main.c\n".toList⟩ ∧
      (needsRebuild false fs 1 2 (mkdepname "obj/".toList "main.c".toList) "obj/main.o".toList).1 = true ∧
      ¬ (existsFile fs "obj/main.o".toList = false ∨ 1 > mtimeOf fs "obj/main.o".toList ∨
          ∃ t ∈ ["main.c".toList], existsFile fs t = false ∨
            mtimeOf fs t > mtimeOf fs "obj/main.o".toList) := by
  refine ⟨by decide, fun _ => some ⟨3, "main\x00.o: main.c\n".toList⟩, rfl, by decide, ?_⟩
  simp [existsFile, mtimeOf]

/-! ### Files in any order -/

/-- What a list of files that pass says about an object that is there. -/
theorem holds_of_listed {tokens : List Str} (hp : ∀ t ∈ tokens, Passes fs mk objname t)
    (hobj : tokens ≠ [] ∨ ∃ o, fs objname = some o ∧ mk ≤ o.mtime)
    (hsrc : fname ∈ tokens ∨ ∀ o f, fs objname = some o → fs fname = some f → f.mtime ≤ o.mtime) :
    Holds fs mk fname objname := by
  have hdated : ∃ o, fs objname = some o ∧ mk ≤ o.mtime := by
    rcases hobj with hne | hobj
    · obtain ⟨t, ht⟩ := List.exists_mem_of_ne_nil _ hne
      obtain ⟨o, _, ho, _, hmk, _⟩ := hp t ht
      exact ⟨o, ho, hmk⟩
    · exact hobj
  obtain ⟨o, ho, hmk⟩ := hdated
  refine ⟨o, ho, hmk, fun f hf => ?_⟩
  rcases hsrc with hmem | hsrc
  · obtain ⟨o', f', ho', hf', _, hle⟩ := hp fname hmem
    rw [ho, Option.some.injEq] at ho'
    rw [hf, Option.some.injEq] at hf'
    rw [ho', hf']
    exact hle
  · exact hsrc o f ho hf

/-- Files of which the source is the newest and the object comes next. -/
def sourceNewest (dep contents fname objname : Str) : FS := fun q =>
  some ⟨if q = fname then 2 else if q = objname then 1 else 0, if q = dep then contents else []⟩

/-- A list that leaves the source out. -/
theorem source_unlisted {contents : Str} {dep : Str} {tokens : List Str} (hne : contents ≠ [])
    (ht : depTokens contents = some tokens) (hsrc : fname ∉ tokens) :
    ∃ (fs : FS) (objname : Str) (m : ℕ), fs dep = some ⟨m, contents⟩ ∧
      (needsRebuild false fs 0 0 dep objname).1 = false ∧ ¬ Holds fs 0 fname objname := by
  have hother : fname ++ "o".toList ≠ fname := by simp
  refine ⟨sourceNewest dep contents fname (fname ++ "o".toList), fname ++ "o".toList, _,
    by simp [sourceNewest]; rfl, kept_iff.mpr ⟨rfl, tokens, ?_, fun t htok => ?_⟩, ?_⟩
  · simp [listed, readFile, sourceNewest, hne, ht]
  · have hne : t ≠ fname := fun heq => hsrc (heq ▸ htok)
    refine ⟨_, _, rfl, rfl, Nat.zero_le _, ?_⟩
    simp only [if_neg hother, if_neg hne, if_true]
    split <;> omega
  · rintro ⟨o, ho, _, hle⟩
    have h := hle _ rfl
    simp only [sourceNewest, if_neg hother, if_true, Option.some.injEq] at ho
    rw [← ho] at h
    simp at h

/-- In one state: an object that stands is there, and as new as the makefile and the source, exactly when the
    list its dependency file gives is not empty (or the object is there and as new as the makefile) and names
    the source (or the source is not newer). -/
theorem stands_holds_iff (rebuild : Bool) (fs : FS) (mk newest : ℕ) (dep fname objname : Str) :
    ((needsRebuild rebuild fs mk newest dep objname).1 = false → Holds fs mk fname objname) ↔
      (rebuild = false → ∀ tokens, listed fs dep = some tokens → (∀ t ∈ tokens, Passes fs mk objname t) →
        (tokens ≠ [] ∨ ∃ o, fs objname = some o ∧ mk ≤ o.mtime) ∧
        (fname ∈ tokens ∨ ∀ o f, fs objname = some o → fs fname = some f → f.mtime ≤ o.mtime)) := by
  rw [kept_iff]
  constructor
  · rintro h hr tokens hl hp
    obtain ⟨o, ho, hmk, hle⟩ := h ⟨hr, tokens, hl, hp⟩
    refine ⟨Or.inr ⟨o, ho, hmk⟩, Or.inr fun o' f ho' hf => ?_⟩
    rw [ho, Option.some.injEq] at ho'
    exact ho' ▸ hle f hf
  · rintro h ⟨hr, tokens, hl, hp⟩
    obtain ⟨hobj, hsrc⟩ := h hr tokens hl hp
    exact holds_of_listed hp hobj hsrc

/-- The dependency files that keep no missing or stale object, for all files and objects, are those that give
    no list and those that list the source. In any state a list with an entry is enough for the object to be
    there and as new as the makefile, and a list that names the source is enough for all. -/
theorem kept_holds_iff (dir fname : Str) :
    (∀ contents : Str,
      (∀ (rebuild : Bool) (fs : FS) (mk newest m : ℕ) (objname : Str),
        fs (mkdepname dir fname) = some ⟨m, contents⟩ →
        (needsRebuild rebuild fs mk newest (mkdepname dir fname) objname).1 = false →
          Holds fs mk fname objname) ↔
        (contents ≠ [] → ∀ tokens, depTokens contents = some tokens → fname ∈ tokens)) ∧
    ∀ (rebuild : Bool) (fs : FS) (mk newest : ℕ) (objname : Str) (tokens : List Str),
      listed fs (mkdepname dir fname) = some tokens →
      (needsRebuild rebuild fs mk newest (mkdepname dir fname) objname).1 = false →
        (tokens ≠ [] → ∃ o, fs objname = some o ∧ mk ≤ o.mtime) ∧ (fname ∈ tokens → Holds fs mk fname objname) := by
  have hnamed : ∀ (rebuild : Bool) (fs : FS) (mk newest : ℕ) (objname : Str) (tokens : List Str),
      listed fs (mkdepname dir fname) = some tokens → fname ∈ tokens →
      (needsRebuild rebuild fs mk newest (mkdepname dir fname) objname).1 = false →
        Holds fs mk fname objname := by
    intro rebuild fs mk newest objname tokens hl hmem
    refine (stands_holds_iff ..).mpr fun _ tokens' hl' _ => ?_
    obtain rfl : tokens = tokens' := Option.some.inj (hl.symm.trans hl')
    exact ⟨Or.inl (List.ne_nil_of_mem hmem), Or.inl hmem⟩
  refine ⟨fun contents => ⟨fun h hne tokens ht => ?_, fun h rebuild fs mk newest m objname hfile hkept => ?_⟩,
    fun rebuild fs mk newest objname tokens hl hkept => ⟨fun hne => ?_, fun hmem => ?_⟩⟩
  · by_contra hsrc
    obtain ⟨fs, objname, m, hfile, hkept, hno⟩ := source_unlisted hne ht hsrc
    exact hno (h false fs 0 0 m objname hfile hkept)
  · obtain ⟨_, tokens, hl, hp⟩ := kept_iff.mp hkept
    have hlisted := hl
    rw [listed, readFile, hfile] at hl
    by_cases hne : contents = []
    · simp [hne] at hl
    · simp only [List.isEmpty_iff, hne, if_false, Option.bind_some] at hl
      exact hnamed rebuild fs mk newest objname tokens hlisted (h hne tokens hl) hkept
  · obtain ⟨_, tokens', hl', hp⟩ := kept_iff.mp hkept
    obtain rfl : tokens = tokens' := Option.some.inj (hl.symm.trans hl')
    obtain ⟨t, ht⟩ := List.exists_mem_of_ne_nil _ hne
    obtain ⟨o, _, ho, _, hmk, _⟩ := hp t ht
    exact ⟨o, ho, hmk⟩
  · exact hnamed rebuild fs mk newest objname tokens hl hmem hkept

/-- A dependency file cut off after its colon keeps an object that is not there. -/
theorem empty_list_keeps :
    ∃ fs : FS, fs (mkdepname "obj/".toList "main.c".toList) = some ⟨1, "obj/main.o:".toList⟩ ∧
      fs "obj/main.o".toList = none ∧
      (needsRebuild false fs 1 0 (mkdepname "obj/".toList "main.c".toList) "obj/main.o".toList).1 = false ∧
      ¬ Holds fs 1 "main.c".toList "obj/main.o".toList := by
  refine ⟨FS.set (fun _ => none) "obj/main.d".toList (some ⟨1, "obj/main.o:".toList⟩), by decide,
    by decide, by decide, ?_⟩
  rintro ⟨o, ho, _⟩
  have hnone : FS.set (fun _ => none) "obj/main.d".toList (some ⟨1, "obj/main.o:".toList⟩)
      "obj/main.o".toList = none := by decide
  rw [hnone] at ho
  cases ho

end Cake
