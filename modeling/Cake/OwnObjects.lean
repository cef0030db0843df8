import Mathlib.Data.List.Dedup
import Cake.Decision
import Cake.DepNames

/-! Which sources share an object.

    `mkobjname` puts `.o` in place of a suffix, so two sources that differ in their suffix alone have one
    object. `arglist` holds it once: the output is linked without one of the two, and nothing is said.

        a.c, b.c        a.o, b.o     two objects
        a.c, a.cpp      a.o          one object
        a.c, lib/a.c    a.o, lib/a.o two objects -/

namespace Cake

variable {env : Env} {target f g : Str}

/-- The dot that `mkobjname` looks for, if there is one, is in the name of the file. -/
def DotInName (target f : Str) : Prop :=
  ∀ ab ∈ strrchr '.' (objdir target ++ f), '/' ∉ ab.2

instance : Decidable (DotInName target f) :=
  inferInstanceAs (Decidable (∀ ab ∈ strrchr '.' (objdir target ++ f), '/' ∉ ab.2))

/-- What follows the last dot of a file name. -/
structure IsSuffix (x : Str) : Prop where
  nonempty : x ≠ []
  dot : '.' ∉ x
  slash : '/' ∉ x

/-- The two names differ in their suffix alone. -/
def SameStem (f g : Str) : Prop :=
  ∃ stem x y, f = stem ++ '.' :: x ∧ g = stem ++ '.' :: y ∧ IsSuffix x ∧ IsSuffix y

/-! ### Rewriting the tail -/

/-- A text keeps its tail when there is nothing after its last dot. -/
theorem rewriteTail_cases (ext : Char) (tmp : Str) :
    (rewriteTail ext tmp = tmp ∧ ('.' ∉ tmp ∨ ∃ a, tmp = a ++ ['.'])) ∨
      ∃ a b, tmp = a ++ '.' :: b ∧ b ≠ [] ∧ '.' ∉ b ∧ rewriteTail ext tmp = a ++ ['.', ext] := by
  cases h : strrchr '.' tmp with
  | none => exact Or.inl ⟨rewriteTail_none h, Or.inl (not_mem_of_strrchr h)⟩
  | some ab =>
    obtain ⟨a, b⟩ := ab
    cases b with
    | nil => exact Or.inl ⟨rewriteTail_nil h, Or.inr ⟨a, (strrchr_spec h).1⟩⟩
    | cons x b =>
      exact Or.inr ⟨a, _, (strrchr_spec h).1, by simp, (strrchr_spec h).2, rewriteTail_some h (by simp)⟩

/-- A text that was left alone does not look like one that was rewritten. -/
theorem not_rewritten {ext : Char} (hext : ext ≠ '.') {x a : Str}
    (h : '.' ∉ x ∨ ∃ a, x = a ++ ['.']) : x ≠ a ++ ['.', ext] := by
  rintro rfl
  rcases h with hno | ⟨a', heq⟩
  · exact hno (by simp)
  · have hlast := congrArg List.getLast? heq
    simp at hlast
    exact hext hlast

/-- Two texts are rewritten to one exactly when they are equal, or equal up to their last dot with
    something after it. -/
theorem rewriteTail_eq_iff {ext : Char} (hext : ext ≠ '.') {x y : Str} :
    rewriteTail ext x = rewriteTail ext y ↔ x = y ∨ ∃ a b b', x = a ++ '.' :: b ∧
      y = a ++ '.' :: b' ∧ (b ≠ [] ∧ '.' ∉ b) ∧ b' ≠ [] ∧ '.' ∉ b' := by
  constructor
  · intro h
    rcases rewriteTail_cases ext x with ⟨hx, hxdot⟩ | ⟨a, b, hx, hb, hbdot, hxr⟩
    · rcases rewriteTail_cases ext y with ⟨hy, -⟩ | ⟨a, b, -, -, -, hyr⟩
      · exact Or.inl (hx.symm.trans (h.trans hy))
      · exact absurd (hx.symm.trans (h.trans hyr)) (not_rewritten hext hxdot)
    · rcases rewriteTail_cases ext y with ⟨hy, hydot⟩ | ⟨a', b', hy, hb', hbdot', hyr⟩
      · exact absurd (hy.symm.trans (h.symm.trans hxr)) (not_rewritten hext hydot)
      · have ha : a = a' := List.append_cancel_right (hxr.symm.trans (h.trans hyr))
        exact Or.inr ⟨a, b, b', hx, ha ▸ hy, ⟨hb, hbdot⟩, hb', hbdot'⟩
  · rintro (rfl | ⟨a, b, b', rfl, rfl, ⟨hb, hbdot⟩, hb', hbdot'⟩)
    · rfl
    · rw [rewriteTail_some (strrchr_append hbdot a) hb, rewriteTail_some (strrchr_append hbdot' a) hb']

/-- A tail without a slash belongs to the name. -/
theorem tail_in_name {dir name a b : Str} (h : dir ++ '/' :: name = a ++ '.' :: b) (hb : '/' ∉ b) :
    ∃ stem, a = dir ++ '/' :: stem ∧ name = stem ++ '.' :: b := by
  rw [List.append_cons] at h
  rcases List.append_eq_append_iff.mp h with ⟨stem, ha, hname⟩ | ⟨rest, hdir, htail⟩
  · exact ⟨stem, by simp [ha], hname⟩
  · cases rest with
    | nil =>
      rw [List.append_nil] at hdir
      exact ⟨[], hdir.symm, htail.symm⟩
    | cons x rest =>
      have hmem : '/' ∈ '.' :: b := by
        have hlast := congrArg List.getLast? hdir
        rw [List.getLast?_append_of_ne_nil _ (by simp), List.getLast?_append_of_ne_nil _ (by simp)]
          at hlast
        rw [htail]
        exact List.mem_append_left _ (List.mem_of_getLast? hlast.symm)
      simp [hb] at hmem

theorem objdir_append (target f : Str) :
    objdir target ++ f = (baseobjdir ++ target) ++ '/' :: f := by
  simp [objdir]

/-- Two sources have one object exactly when they are equal or differ in their suffix alone. -/
theorem mkobjname_eq_iff (hf : DotInName target f) (hg : DotInName target g) :
    mkobjname (objdir target) f = mkobjname (objdir target) g ↔ f = g ∨ SameStem f g := by
  rw [mkobjname, mkobjname, rewriteTail_eq_iff (by decide), List.append_right_inj]
  refine or_congr_right ⟨?_, ?_⟩
  · rintro ⟨a, b, b', hx, hy, ⟨hb, hbdot⟩, hb', hbdot'⟩
    have hslash : '/' ∉ b := hf (a, b) (hx ▸ strrchr_append hbdot a)
    have hslash' : '/' ∉ b' := hg (a, b') (hy ▸ strrchr_append hbdot' a)
    rw [objdir_append] at hx hy
    obtain ⟨stem, ha, hfs⟩ := tail_in_name hx hslash
    obtain ⟨stem', ha', hgs⟩ := tail_in_name hy hslash'
    obtain rfl : stem = stem' := (List.cons.inj (List.append_cancel_left (ha.symm.trans ha'))).2
    exact ⟨stem, b, b', hfs, hgs, ⟨hb, hbdot, hslash⟩, hb', hbdot', hslash'⟩
  · rintro ⟨stem, x, y, rfl, rfl, hx, hy⟩
    exact ⟨objdir target ++ stem, x, y, by simp, by simp, ⟨hx.nonempty, hx.dot⟩, hy.nonempty, hy.dot⟩

/-! ### The command of the output -/

/-- Names that stand once each in a list are as many as there are of them when they are distinct. -/
theorem count_names {argv objs : List Str} (hargv : argv.Nodup) (hsub : ∀ o ∈ objs, o ∈ argv) :
    (argv.filter (fun a => a ∈ objs)).length = objs.length ↔ objs.Nodup := by
  have hperm : (argv.filter (fun a => a ∈ objs)).Perm objs.dedup := by
    rw [List.perm_ext_iff_of_nodup (hargv.filter _) (List.nodup_dedup _)]
    intro a
    simp only [List.mem_filter, decide_eq_true_eq, List.mem_dedup]
    exact ⟨fun h => h.2, fun h => ⟨hsub a h, h⟩⟩
  rw [hperm.length_eq]
  constructor
  · intro h
    exact List.dedup_eq_self.mp ((List.dedup_sublist objs).eq_of_length h)
  · intro h
    rw [List.dedup_eq_self.mpr h]

/-- The command of an output holds the objects of all the sources. -/
theorem Project.output_argv {p : Project} {c : Str} {l : List Str}
    (hpkg : pkgConfig env p.pkgdepends = some (c, l)) (gs : List Project) (w : World)
    {e : Cmd × Option Fate} (he : e ∈ execs (p.compile env gs w).2.w.log) (ho : e.1.ofOutput) :
    e.1.argv.Nodup ∧
      ∀ o ∈ (p.sources env (p.flagText c) w).map (mkobjname (objdir w.target)), o ∈ e.1.argv := by
  have hkinds := p.ready_kinds hpkg w
  by_cases hnamed : p.outTarget ≠ [] ∧ p.type ≠ .sharedLibrary
  · obtain ⟨cmd, -, hnodup, hargv, ⟨hn, -, fate, heq⟩ | ⟨-, heq⟩⟩ :=
      p.compile_log hpkg hnamed.1 hnamed.2 gs w
    · rw [heq] at he
      rcases List.mem_cons.mp he with rfl | he
      · exact ⟨hnodup, fun o hmem => hargv o ((p.linked_objects _ w hn).mem_iff.mpr hmem)⟩
      · exact absurd ho (not_ofOutput (hkinds e he))
    · rw [heq] at he
      exact absurd ho (not_ofOutput (hkinds e he))
  · rw [p.compile_unnamed hpkg hnamed, Project.after, List.take_length, ← (ready_log env p _ w).execs] at he
    exact absurd ho (not_ofOutput (hkinds e he))

/-- Sources have an object each exactly when no two of them differ in their suffix alone, and the
    command of an output holds as many of their objects as there are sources exactly then. -/
theorem own_objects_iff {srcs : List Str} (hnodup : srcs.Nodup) (hname : ∀ f ∈ srcs, DotInName target f) :
    ((srcs.map (mkobjname (objdir target))).Nodup ↔
      ∀ f ∈ srcs, ∀ g ∈ srcs, SameStem f g → f = g) ∧
    ∀ (env : Env) (gs : List Project) (p : Project) (w : World) (c : Str) (l : List Str),
      pkgConfig env p.pkgdepends = some (c, l) → p.sources env (p.flagText c) w = srcs →
      w.target = target → ∀ e ∈ execs (p.compile env gs w).2.w.log, e.1.ofOutput →
      ((e.1.argv.filter (fun a => a ∈ srcs.map (mkobjname (objdir target)))).length = srcs.length ↔
        ∀ f ∈ srcs, ∀ g ∈ srcs, SameStem f g → f = g) := by
  have hiff : (srcs.map (mkobjname (objdir target))).Nodup ↔
      ∀ f ∈ srcs, ∀ g ∈ srcs, SameStem f g → f = g := by
    rw [List.nodup_map_iff_inj_on hnodup]
    refine forall₄_congr fun f hf g hg => ?_
    rw [mkobjname_eq_iff (hname f hf) (hname g hg)]
    exact ⟨fun h hs => h (Or.inr hs), fun h hor => hor.elim id h⟩
  refine ⟨hiff, ?_⟩
  rintro env gs p w c l hpkg rfl rfl e he ho
  obtain ⟨hargv, hsub⟩ := p.output_argv hpkg gs w he ho
  have hcount := count_names hargv hsub
  rw [List.length_map] at hcount
  rw [hcount, hiff]

/-- Two sources of one directory, with an object each. -/
theorem own_objects_two :
    let srcs := ["src/a.c".toList, "src/b.c".toList]
    ∀ f ∈ srcs, ∀ g ∈ srcs, SameStem f g → f = g :=
  (own_objects_iff (by decide) (by decide)).1.mp
    (show (["src/a.c".toList, "src/b.c".toList].map (mkobjname (objdir "debug".toList))).Nodup by decide)

/-- `a.c` and `a.cpp` have one object. -/
theorem one_object_for_two :
    ¬ (["a.c".toList, "a.cpp".toList].map (mkobjname (objdir "debug".toList))).Nodup := by
  decide

end Cake
