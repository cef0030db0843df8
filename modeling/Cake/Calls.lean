import Mathlib.Data.List.Nodup
import Cake.Project

/-! What a makefile's calls can leave in `g_projects`.

    `program` and `library` look for the name among the projects there are and raise an error when it
    is taken; no other call changes a name or a type. The output is the name with a suffix, and
    `set_output_suffix` looks at nothing.

        program a, set_output_suffix b ──▶ bin/ab
        program ab                     ──▶ bin/ab -/

namespace Cake

/-- No name is used twice, and nothing makes a shared library. -/
structure Registered (gs : List Project) : Prop where
  names : (gs.map Project.name).Nodup
  types : ∀ t ∈ gs.map Project.type, t ≠ .sharedLibrary

/-- A change of one element, seen through a map. -/
theorem map_modify_comm {α β : Type} {g : α → β} {f : α → α} {f' : β → β} {l : List α} {i : ℕ}
    (h : ∀ a, l[i]? = some a → g (f a) = f' (g a)) : (l.modify i f).map g = (l.map g).modify i f' := by
  refine List.ext_getElem? fun j => ?_
  rw [List.getElem?_map]
  by_cases hij : i = j
  · subst hij
    rw [List.getElem?_modify_eq, List.getElem?_modify_eq, List.getElem?_map]
    cases ha : l[i]? with
    | none => rfl
    | some a => exact congrArg some (h a ha)
  · rw [List.getElem?_modify_ne _ _ hij, List.getElem?_modify_ne _ _ hij, List.getElem?_map]

theorem map_modify {β : Type} {g : Project → β} {f : Project → Project} (h : ∀ q, g (f q) = g q)
    (gs : List Project) (p : ℕ) : (gs.modify p f).map g = gs.map g :=
  calc (gs.modify p f).map g = (gs.map g).modify p id := map_modify_comm fun q _ => h q
    _ = gs.map g := List.modify_id p _

/-- A change that keeps names and types. -/
theorem Registered.modify {gs : List Project} (h : Registered gs) {f : Project → Project}
    (hf : ∀ q, (f q).name = q.name ∧ (f q).type = q.type) (p : ℕ) : Registered (gs.modify p f) where
  names := by
    rw [map_modify (fun q => (hf q).1)]
    exact h.names
  types := by
    rw [map_modify (fun q => (hf q).2)]
    exact h.types

/-- A name that is taken is refused. -/
theorem Registered.createProject {gs : List Project} (h : Registered gs) {type : ProjectType}
    (ht : type ≠ .sharedLibrary) (name : Str) : Registered (Cake.createProject type name gs) := by
  rw [Cake.createProject]
  split
  · exact h
  · rename_i hfree
    refine ⟨?_, ?_⟩
    · rw [List.map_append, List.nodup_append]
      refine ⟨h.names, List.nodup_singleton _, ?_⟩
      rintro n hn m hm rfl
      obtain ⟨p, hp, rfl⟩ := List.mem_map.mp hn
      have hname : p.name = name := List.mem_singleton.mp hm
      exact hfree (List.any_eq_true.mpr ⟨p, hp, beq_iff_eq.mpr hname⟩)
    · rw [List.map_append]
      intro t hmem
      rcases List.mem_append.mp hmem with hmem | hmem
      · exact h.types t hmem
      · rw [List.mem_singleton.mp hmem]
        exact ht

/-- No call breaks it, also none that raises an error. -/
theorem Registered.call {gs : List Project} (h : Registered gs) (c : Call) :
    Registered (Cake.call gs c) := by
  cases c with
  | program name => exact h.createProject (by decide) name
  | library name => exact h.createProject (by decide) name
  | depend p d =>
    rw [Cake.call]
    split
    · refine h.modify (fun q => ?_) p
      split <;> exact ⟨rfl, rfl⟩
    · exact h
  | addFiles p files =>
    refine h.modify ?_ p
    exact fun _ => ⟨rfl, rfl⟩
  | addFlags p flags =>
    refine h.modify ?_ p
    exact fun _ => ⟨rfl, rfl⟩
  | addLibs p libs =>
    refine h.modify (fun q => ?_) p
    split <;> exact ⟨rfl, rfl⟩
  | addPkgdepend p pkgs =>
    refine h.modify ?_ p
    exact fun _ => ⟨rfl, rfl⟩
  | setOutputSuffix p suffix =>
    refine h.modify ?_ p
    exact fun _ => ⟨rfl, rfl⟩

theorem Registered.calls : ∀ (calls : List Call) {gs : List Project}, Registered gs →
    Registered (calls.foldl Cake.call gs)
  | [], _, h => h
  | c :: calls, _, h => Registered.calls calls (h.call c)

/-- What every makefile leaves. -/
theorem registered_makefile (calls : List Call) : Registered (makefile calls) :=
  Registered.calls calls ⟨List.nodup_nil, fun _ h => absurd h List.not_mem_nil⟩

/-! ### Outputs -/

/-- The path tells the type and the name with its suffix. -/
theorem outPath_inj {p q : Project} (hp : p.type ≠ .sharedLibrary) (hq : q.type ≠ .sharedLibrary) :
    p.outPath = q.outPath ↔ p.type = q.type ∧ p.outTarget = q.outTarget := by
  have hdirs : ∀ a b : Str, outName a ≠ libName b := fun a b h => by
    simp [outName, libName, bindir, libdir] at h
  have hout : ∀ a b : Str, outName a = outName b ↔ a = b := fun a b => List.append_right_inj _
  have hlib : ∀ a b : Str, libName a = libName b ↔ a = b := fun a b => by
    rw [libName, libName, List.append_left_inj, List.append_right_inj]
  rw [Project.outPath, Project.outPath]
  cases hpt : p.type with
  | sharedLibrary => exact absurd hpt hp
  | program =>
    cases hqt : q.type with
    | sharedLibrary => exact absurd hqt hq
    | program => simp [hout]
    | staticLibrary => simp [hdirs]
  | staticLibrary =>
    cases hqt : q.type with
    | sharedLibrary => exact absurd hqt hq
    | program => simp [(hdirs _ _).symm]
    | staticLibrary => simp [hlib]

/-- After every makefile the names are pairwise distinct, and two projects share their output exactly
    when they have one type and the same name with suffix. -/
theorem makefile_outputs (calls : List Call) :
    ((makefile calls).map Project.name).Nodup ∧
      ∀ p ∈ makefile calls, ∀ q ∈ makefile calls, p.outPath = q.outPath ↔
        p.type = q.type ∧ p.name ++ p.outputSuffix = q.name ++ q.outputSuffix := by
  have h := registered_makefile calls
  refine ⟨h.names, fun p hp q hq => outPath_inj ?_ ?_⟩
  · exact h.types _ (List.mem_map_of_mem hp)
  · exact h.types _ (List.mem_map_of_mem hq)

/-- A suffix makes one name of another. -/
theorem suffix_makes_other_name :
    ¬ ((makefile [.program "a".toList, .setOutputSuffix 0 "b".toList, .program "ab".toList]).map
      Project.outPath).Nodup := by
  decide

end Cake
