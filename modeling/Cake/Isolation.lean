import Cake.Lib.Components
import Cake.OwnObjects

/-! Which files a target writes.

    The object of a source is `obj/<target>/` followed by the path of the source, `..` and all. A path that
    never climbs above the directory it starts in keeps to the directory of its target; one that climbs
    takes the target away again and ends up where it ends up under every other target.

        f             under debug            under release
        src/a.c       obj/debug/src/a.o      obj/release/src/a.o
        src/../a.c    obj/debug/a.o          obj/release/a.o
        ../a.c        obj/a.o                obj/a.o -/

namespace Cake

/-- The components of a path. -/
def components (p : Str) : List Str := Tokens.tokens (· == '/') p

/-- The file a path means, by its components from the directory cake runs in. -/
def denoted (p : Str) : List Str :=
  Components.resolve ".".toList "..".toList (components p)

/-- A component that is neither `.` nor `..`. -/
structure IsName (c : Str) : Prop where
  nonempty : c ≠ []
  slash : '/' ∉ c
  here : c ≠ ".".toList
  up : c ≠ "..".toList

/-- The last component of the path is a name. -/
def NamesFile (f : Str) : Prop :=
  ∃ dir name, f = dir ++ name ∧ (dir = [] ∨ ∃ d, dir = d ++ ['/']) ∧ IsName name

/-- The path never leaves the directory it starts in. -/
def NeverClimbs (f : Str) : Prop :=
  Components.Stays ".".toList "..".toList 0 (components f)

/-- The path means a file below the object directory of the target. -/
def Inside (target p : Str) : Prop :=
  ∃ rest, rest ≠ [] ∧ denoted p = "obj".toList :: target :: rest

/-- What `mk` makes of the source path under two targets is kept apart. -/
structure Isolated (mk : Str → Str → Str) (f t₁ t₂ : Str) : Prop where
  first : Inside t₁ (mk (objdir t₁) f)
  second : Inside t₂ (mk (objdir t₂) f)
  apart : denoted (mk (objdir t₁) f) ≠ denoted (mk (objdir t₂) f)

variable {f target t₁ t₂ dir name name₁ name₂ : Str}

/-! ### Components -/

theorem components_slash (a b : Str) : components (a ++ '/' :: b) = components a ++ components b :=
  Tokens.tokens_append (by decide) a b

theorem IsName.components (h : IsName name) : Cake.components name = [name] :=
  Tokens.tokens_word (fun c hc => by
    simp only [beq_eq_false_iff_ne, ne_eq]
    rintro rfl
    exact h.slash hc) h.nonempty

theorem components_name (hdir : dir = [] ∨ ∃ d, dir = d ++ ['/']) (h : IsName name) :
    components (dir ++ name) = components dir ++ [name] := by
  rcases hdir with rfl | ⟨d, rfl⟩
  · rw [List.nil_append, h.components]
    rfl
  · have hslash : components (d ++ ['/']) = components d := by
      rw [components_slash]
      exact List.append_nil _
    rw [List.append_assoc, List.singleton_append, components_slash, h.components, hslash]

/-- A file below the object directory of a target. -/
theorem denoted_under (ht : IsName target) (hdir : dir = [] ∨ ∃ d, dir = d ++ ['/'])
    (h : IsName name) : denoted (objdir target ++ dir ++ name) =
      ((components dir).foldl (Components.walk ".".toList "..".toList)
        [target, "obj".toList]).reverse ++ [name] := by
  have hcomps : components (objdir target ++ dir ++ name) =
      "obj".toList :: target :: (components dir ++ [name]) := by
    rw [List.append_assoc, objdir_append, components_slash, components_name hdir h, baseobjdir,
      show "obj/".toList ++ target = "obj".toList ++ '/' :: target from rfl, components_slash,
      ht.components]
    rfl
  have hobj : Components.walk ".".toList "..".toList [] "obj".toList = ["obj".toList] := by decide
  rw [denoted, Components.resolve, hcomps, List.foldl_cons, List.foldl_cons, hobj,
    Components.walk_name _ ht.here ht.up, List.foldl_append, List.foldl_cons, List.foldl_nil,
    Components.walk_name _ h.here h.up, List.reverse_cons]

theorem neverClimbs_iff (hdir : dir = [] ∨ ∃ d, dir = d ++ ['/']) (h : IsName name) :
    NeverClimbs (dir ++ name) ↔ Components.Stays ".".toList "..".toList 0 (components dir) := by
  rw [NeverClimbs, components_name hdir h, Components.stays_name h.here h.up]

/-- Files that keep the directory of their source are kept apart exactly when it never climbs. -/
theorem isolated_of_names {mk : Str → Str → Str} (h₁ : IsName t₁) (h₂ : IsName t₂) (hne : t₁ ≠ t₂)
    (hdir : dir = [] ∨ ∃ d, dir = d ++ ['/']) (hn₁ : IsName name₁) (hn₂ : IsName name₂)
    (hmk₁ : mk (objdir t₁) f = objdir t₁ ++ dir ++ name₁)
    (hmk₂ : mk (objdir t₂) f = objdir t₂ ++ dir ++ name₂) :
    Isolated mk f t₁ t₂ ↔ Components.Stays ".".toList "..".toList 0 (components dir) := by
  have hd₁ := denoted_under h₁ hdir hn₁
  have hd₂ := denoted_under h₂ hdir hn₂
  have hup : "..".toList ≠ ".".toList := by decide
  rw [← hmk₁] at hd₁
  rw [← hmk₂] at hd₂
  constructor
  · intro h
    refine not_not.mp fun hclimbs => hne ?_
    have hsame := Components.foldl_climbs hup h₁.up h₂.up ["obj".toList] (components dir) []
      (by simp) hclimbs
    rw [List.nil_append, List.nil_append] at hsame
    obtain ⟨rest₁, hrest₁, heq₁⟩ := h.first
    obtain ⟨rest₂, hrest₂, heq₂⟩ := h.second
    rw [hd₁, hsame] at heq₁
    rw [hd₂] at heq₂
    have hdrop₁ := congrArg List.dropLast heq₁
    have hdrop₂ := congrArg List.dropLast heq₂
    rw [List.dropLast_concat] at hdrop₁ hdrop₂
    have hall := hdrop₁.symm.trans hdrop₂
    rw [List.dropLast_cons_of_ne_nil (by simp), List.dropLast_cons_of_ne_nil hrest₁,
      List.dropLast_cons_of_ne_nil (by simp), List.dropLast_cons_of_ne_nil hrest₂] at hall
    exact (List.cons.inj (List.cons.inj hall).2).1
  · intro h
    have hstay : ∀ t : Str, (components dir).foldl (Components.walk ".".toList "..".toList)
        [t, "obj".toList] = (components dir).foldl (Components.walk ".".toList "..".toList) [] ++
          [t, "obj".toList] := fun t =>
      Components.foldl_stays hup [t, "obj".toList] (components dir) [] (by simp) h
    rw [hstay, List.reverse_append] at hd₁ hd₂
    refine ⟨⟨_, by simp, hd₁⟩, ⟨_, by simp, hd₂⟩, fun heq => hne ?_⟩
    rw [hd₁, hd₂] at heq
    exact (List.cons.inj (List.cons.inj heq).2).1

/-! ### Names stay names -/

theorem IsName.append (h : IsName name) {ext : Str} (hext : '/' ∉ ext) (hlen : 2 ≤ ext.length) :
    IsName (name ++ ext) := by
  have hlong : 2 < (name ++ ext).length := by
    have hpos := List.length_pos_of_ne_nil h.nonempty
    rw [List.length_append]
    omega
  refine ⟨?_, ?_, ?_, ?_⟩
  · intro heq
    simp [heq] at hlong
  · simp [h.slash, hext]
  · intro heq
    simp [heq] at hlong
  · intro heq
    simp [heq] at hlong

/-- A name with a new suffix is a name. -/
theorem IsName.rewriteTail (h : IsName name) {ext : Char} (hdot : ext ≠ '.') (hslash : ext ≠ '/') :
    IsName (rewriteTail ext name) := by
  rcases rewriteTail_cases ext name with ⟨heq, -⟩ | ⟨a, b, hname, -, -, heq⟩
  · rw [heq]
    exact h
  · rw [heq]
    have ha : '/' ∉ a := fun hmem => h.slash (hname ▸ List.mem_append_left _ hmem)
    refine ⟨by simp, by simp [ha, Ne.symm hslash], ?_, ?_⟩
    · intro hone
      have hlen := congrArg List.length hone
      simp at hlen
    · intro htwo
      have hlast := congrArg List.getLast? htwo
      simp [hdot] at hlast

/-- A dot in the name is the one that is found. -/
theorem rewriteTail_name (ext : Char) (h : ∀ ab ∈ strrchr '.' (dir ++ '/' :: name), '/' ∉ ab.2) :
    rewriteTail ext (dir ++ '/' :: name) = dir ++ '/' :: rewriteTail ext name := by
  cases hn : strrchr '.' name with
  | some ab =>
    obtain ⟨a, b⟩ := ab
    have hfull : strrchr '.' (dir ++ '/' :: name) = some (dir ++ '/' :: a, b) := by
      rw [(strrchr_spec hn).1, ← List.cons_append, ← List.append_assoc]
      exact strrchr_append (strrchr_spec hn).2 _
    cases b with
    | nil => rw [rewriteTail_nil hfull, rewriteTail_nil hn]
    | cons x b =>
      rw [rewriteTail_some hfull (by simp), rewriteTail_some hn (by simp), List.append_assoc]
      rfl
  | none =>
    rw [rewriteTail_none hn]
    cases hfull : strrchr '.' (dir ++ '/' :: name) with
    | none => exact rewriteTail_none hfull
    | some ab =>
      obtain ⟨stem, -, heq⟩ := tail_in_name (strrchr_spec hfull).1 (h ab hfull)
      exact absurd (heq ▸ List.mem_append_right stem (List.mem_cons_self ..)) (not_mem_of_strrchr hn)

/-- The same below an object directory. -/
theorem rewriteTail_under (ext : Char) (hdir : dir = [] ∨ ∃ d, dir = d ++ ['/'])
    (h : DotInName target (dir ++ name)) :
    rewriteTail ext (objdir target ++ (dir ++ name)) = objdir target ++ dir ++ rewriteTail ext name := by
  rw [DotInName] at h
  rcases hdir with rfl | ⟨d, rfl⟩
  · rw [List.nil_append, objdir_append] at h ⊢
    rw [rewriteTail_name ext h, List.append_nil, objdir_append]
  · have hpath : objdir target ++ (d ++ ['/'] ++ name) = (objdir target ++ d) ++ '/' :: name := by simp
    rw [hpath] at h ⊢
    rw [rewriteTail_name ext h]
    simp

/-! ### Objects, dependency files, precompiled headers -/

theorem mkobjname_file (hdir : dir = [] ∨ ∃ d, dir = d ++ ['/']) (h : IsName name)
    (hdot : DotInName target (dir ++ name)) : ∃ n, IsName n ∧
      mkobjname (objdir target) (dir ++ name) = objdir target ++ dir ++ n :=
  ⟨_, h.rewriteTail (by decide) (by decide), rewriteTail_under 'o' hdir hdot⟩

theorem mkdepname_file (hdir : dir = [] ∨ ∃ d, dir = d ++ ['/']) (h : IsName name)
    (hdot : DotInName target (dir ++ name)) : ∃ n, IsName n ∧
      mkdepname (objdir target) (dir ++ name) = objdir target ++ dir ++ n := by
  cases ht : headerTail (objdir target ++ (dir ++ name)) with
  | true =>
    refine ⟨name ++ ".d".toList, h.append (by decide) (by decide), ?_⟩
    rw [mkdepname_header ht]
    simp only [List.append_assoc]
  | false =>
    refine ⟨rewriteTail 'd' name, h.rewriteTail (by decide) (by decide), ?_⟩
    rw [mkdepname_source ht]
    exact rewriteTail_under 'd' hdir hdot

theorem mkpchname_file (dir : Str) (h : IsName name) : ∃ n, IsName n ∧
    mkpchname (objdir target) (dir ++ name) = objdir target ++ dir ++ n :=
  ⟨name ++ ".gch".toList, h.append (by decide) (by decide), by simp [mkpchname]⟩

/-- Two targets keep what they make of a source apart, each in its own directory, exactly when the path
    of the source never climbs above the directory it starts in. -/
theorem isolated_iff (hf : NamesFile f) (h₁ : IsName t₁) (h₂ : IsName t₂) (hne : t₁ ≠ t₂) :
    (DotInName t₁ f → DotInName t₂ f → (Isolated mkobjname f t₁ t₂ ↔ NeverClimbs f) ∧
      (Isolated mkdepname f t₁ t₂ ↔ NeverClimbs f)) ∧
    (Isolated mkpchname f t₁ t₂ ↔ NeverClimbs f) := by
  obtain ⟨dir, name, rfl, hdir, hname⟩ := hf
  rw [neverClimbs_iff hdir hname]
  refine ⟨fun hdot₁ hdot₂ => ⟨?_, ?_⟩, ?_⟩
  · obtain ⟨n₁, hn₁, hmk₁⟩ := mkobjname_file hdir hname hdot₁
    obtain ⟨n₂, hn₂, hmk₂⟩ := mkobjname_file hdir hname hdot₂
    exact isolated_of_names h₁ h₂ hne hdir hn₁ hn₂ hmk₁ hmk₂
  · obtain ⟨n₁, hn₁, hmk₁⟩ := mkdepname_file hdir hname hdot₁
    obtain ⟨n₂, hn₂, hmk₂⟩ := mkdepname_file hdir hname hdot₂
    exact isolated_of_names h₁ h₂ hne hdir hn₁ hn₂ hmk₁ hmk₂
  · obtain ⟨n₁, hn₁, hmk₁⟩ := mkpchname_file dir hname
    obtain ⟨n₂, hn₂, hmk₂⟩ := mkpchname_file dir hname
    exact isolated_of_names h₁ h₂ hne hdir hn₁ hn₂ hmk₁ hmk₂

/-- A source that goes up and stays below its start. -/
theorem isolated_debug_release :
    Isolated mkobjname "src/../a.c".toList "debug".toList "release".toList := by
  have hfile : NamesFile "src/../a.c".toList :=
    ⟨"src/../".toList, "a.c".toList, rfl, Or.inr ⟨"src/..".toList, rfl⟩,
      ⟨by decide, by decide, by decide, by decide⟩⟩
  exact (((isolated_iff hfile ⟨by decide, by decide, by decide, by decide⟩
    ⟨by decide, by decide, by decide, by decide⟩ (by decide)).1 (by decide) (by decide)).1).mpr
      (show Components.Stays _ _ _ _ by decide)

/-- A source one directory up: its object is `obj/a.o` under every target. -/
theorem climbing_source_shared :
    ¬ Isolated mkobjname "../a.c".toList "debug".toList "release".toList := by
  intro h
  exact absurd h.apart (by decide)

end Cake
