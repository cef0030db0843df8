import Mathlib.Data.List.Induction
import Cake.Methods

/-! `program`, `library` and `depend`, and what `build::link` follows.

    `program` and `library` look at what they are given and raise an error; `depend` looks at the number
    of its arguments. It stores what the second one has under `__project`, and `link` follows that much
    later.

        a:depend(b)   ──▶ m_depends  &b
        a:depend({})  ──▶ m_depends  null  ──▶ link of a -/

namespace Cake

open Lua (Val)

section Code

variable {ν : Type} (form : ν → Str)

/-- What `s_create_program` and `s_create_library` share. -/
def createCall (type : ProjectType) (args : List (Val ν Ptr)) (gs : List Declared) : CallResult :=
  match args with
  | [v] =>
    if Lua.isString v = false then .raised gs
    else match stdString form v with
      | none => .undefined
      | some name =>
        if gs.any (fun d => d.name == name) then .raised gs
        else .returned (gs ++ [.fresh type name])
  | _ => .raised gs

def createProgram (args : List (Val ν Ptr)) (gs : List Declared) : CallResult :=
  createCall form .program args gs

def createLibrary (args : List (Val ν Ptr)) (gs : List Declared) : CallResult :=
  createCall form .staticLibrary args gs

/-- `s_depend`; `index` and `index'` are what the two arguments give for `__project` when they are
    looked at. -/
def dependCall (index index' : Val ν Ptr → Option (Val ν Ptr)) (args : List (Val ν Ptr))
    (gs : List Declared) : CallResult :=
  if args.length ≠ 2 then .raised gs
  else match getProject index 1 args with
    | none => .raised gs
    | some p =>
      match getProject index' 2 args with
      | none => .raised gs
      | some dep =>
        match p.position gs with
        | none => .undefined
        | some i => .returned (gs.modify i fun d => { d with depends := d.depends ++ [dep] })

inductive MakeCall (ν : Type) where
  | program (args : List (Val ν Ptr))
  | library (args : List (Val ν Ptr))
  | depend (index index' : Val ν Ptr → Option (Val ν Ptr)) (args : List (Val ν Ptr))

def MakeCall.run (gs : List Declared) : MakeCall ν → CallResult
  | .program args => createProgram form args gs
  | .library args => createLibrary form args gs
  | .depend index index' args => dependCall index index' args gs

/-- What a call leaves in `g_projects`, an error or not. -/
def CallResult.projects : CallResult → Option (List Declared)
  | .returned gs | .raised gs => some gs
  | .undefined => none

/-- One call after the other; a makefile may catch the errors. -/
def runCalls (cs : List (MakeCall ν)) (gs : List Declared) : Option (List Declared) :=
  cs.foldlM (fun gs c => (c.run form gs).projects) gs

end Code

/-- The projects that the loop over `m_depends` in `build::link` looks at; none when a pointer is not one
    of a project. -/
def linkDepends (gs : List Declared) : List Ptr → Option (List Declared)
  | [] => some []
  | p :: ps =>
    match (p.position gs).bind fun i => gs[i]? with
    | none => none
    | some d => (linkDepends gs ps).map (d :: ·)

/-! ### What is stored -/

/-- Every stored pointer is one of a project in `g_projects`. -/
def Sound (gs : List Declared) : Prop :=
  ∀ d ∈ gs, ∀ p ∈ d.depends, ∃ i, p = .project i ∧ i < gs.length

/-- The value is a pointer to a project in `g_projects`. -/
def PointsIn {ν : Type} (gs : List Declared) (v : Val ν Ptr) : Prop :=
  ∃ i, Lua.touserdata v = some (.project i) ∧ i < gs.length

/-- A `depend` that gets past its check and its two lookups finds projects with both of them. -/
def MakeCall.Proper {ν : Type} (gs : List Declared) : MakeCall ν → Prop
  | .depend index index' [a, b] =>
    ∀ v w, index a = some v → index' b = some w → PointsIn gs v ∧ PointsIn gs w
  | _ => True

variable {ν : Type} {form : ν → Str} {gs : List Declared}

theorem position_isSome {p : Ptr} : (p.position gs).isSome ↔ ∃ i, p = .project i ∧ i < gs.length := by
  cases p with
  | null => simp [Ptr.position]
  | foreign k => simp [Ptr.position]
  | project i => by_cases h : i < gs.length <;> simp [Ptr.position, h]

theorem linkDepends_isSome {ps : List Ptr} :
    (linkDepends gs ps).isSome ↔ ∀ p ∈ ps, ∃ i, p = .project i ∧ i < gs.length := by
  induction ps with
  | nil => simp [linkDepends]
  | cons p ps ih =>
    rw [linkDepends, List.forall_mem_cons, ← position_isSome, ← ih]
    cases hp : p.position gs with
    | none => simp
    | some i =>
      obtain ⟨j, rfl, hj⟩ := position_isSome.mp (Option.isSome_of_eq_some hp)
      rw [Ptr.position, if_pos hj, Option.some.injEq] at hp
      subst hp
      simp [hj]

/-- The loop in `link` is safe for every project exactly when what is stored is sound. -/
theorem sound_iff : Sound gs ↔ ∀ d ∈ gs, (linkDepends gs d.depends).isSome :=
  forall₂_congr fun _ _ => linkDepends_isSome.symm

/-! ### One call -/

theorem isString_eq (form : ν → Str) (v : Val ν Ptr) : Lua.isString v = (stdString form v).isSome := by
  cases v <;> rfl

/-- `program` and `library` make one project, of a new name, or raise an error. -/
theorem createCall_cases (form : ν → Str) (gs : List Declared) (type : ProjectType)
    (args : List (Val ν Ptr)) :
    createCall form type args gs = .raised gs ∨
      ∃ name, ¬ gs.any (fun d => d.name == name) ∧
        createCall form type args gs = .returned (gs ++ [.fresh type name]) := by
  match args with
  | [] | _ :: _ :: _ => exact .inl rfl
  | [v] =>
    have hstring := isString_eq form v
    cases hv : stdString form v with
    | none =>
      rw [hv, Option.isSome_none] at hstring
      exact .inl (if_pos hstring)
    | some name =>
      rw [hv, Option.isSome_some] at hstring
      rw [createCall, if_neg (by simp [hstring]), hv]
      by_cases hany : gs.any fun d => d.name == name
      · exact .inl (if_pos hany)
      · exact .inr ⟨name, hany, if_neg hany⟩

theorem createCall_sound (type : ProjectType) (args : List (Val ν Ptr)) (hgs : Sound gs) :
    ∃ gs', (createCall form type args gs).projects = some gs' ∧ Sound gs' := by
  obtain h | ⟨name, -, h⟩ := createCall_cases form gs type args
  · exact ⟨gs, by rw [h]; rfl, hgs⟩
  · refine ⟨_, by rw [h]; rfl, ?_⟩
    intro d hd p hp
    rcases List.mem_append.mp hd with hd | hd
    · obtain ⟨i, rfl, hi⟩ := hgs d hd p hp
      exact ⟨i, rfl, by rw [List.length_append]; omega⟩
    · rw [List.mem_singleton.mp hd] at hp
      exact absurd hp List.not_mem_nil

/-- After storing one more pointer. -/
theorem sound_modify {i : ℕ} {dep : Ptr} (hgs : Sound gs) (hi : i < gs.length) :
    Sound (gs.modify i fun d => { d with depends := d.depends ++ [dep] }) ↔
      ∃ j, dep = .project j ∧ j < gs.length := by
  rw [Sound, List.length_modify]
  constructor
  · intro h
    refine h { gs[i] with depends := gs[i].depends ++ [dep] } ?_ dep (by simp)
    refine List.mem_iff_getElem?.mpr ⟨i, ?_⟩
    rw [List.getElem?_modify_eq, List.getElem?_eq_getElem hi]
    rfl
  · intro hdep d hd p hp
    obtain ⟨k, hk⟩ := List.mem_iff_getElem?.mp hd
    by_cases hik : i = k
    · subst hik
      rw [List.getElem?_modify_eq, List.getElem?_eq_getElem hi] at hk
      cases hk
      rcases List.mem_append.mp hp with hp | hp
      · exact hgs _ (List.getElem_mem hi) p hp
      · rw [List.mem_singleton.mp hp]
        exact hdep
    · rw [List.getElem?_modify_ne _ _ hik] at hk
      exact hgs d (List.mem_of_getElem? hk) p hp

theorem dependCall_two {index index' : Val ν Ptr → Option (Val ν Ptr)} {a b v w : Val ν Ptr}
    (ha : index a = some v) (hb : index' b = some w) : dependCall index index' [a, b] gs =
      match ((Lua.touserdata v).getD .null).position gs with
      | none => .undefined
      | some i => .returned (gs.modify i fun d =>
          { d with depends := d.depends ++ [(Lua.touserdata w).getD .null] }) := by
  have hp : getProject index 1 [a, b] = some ((Lua.touserdata v).getD .null) := congrArg _ ha
  have hdep : getProject index' 2 [a, b] = some ((Lua.touserdata w).getD .null) := congrArg _ hb
  rw [dependCall, if_neg (by simp), hp, hdep]

theorem getD_project {v : Val ν Ptr} {i : ℕ} :
    (Lua.touserdata v).getD .null = .project i ↔ Lua.touserdata v = some (.project i) := by
  cases Lua.touserdata v <;> simp

theorem dependCall_raised {index index' : Val ν Ptr → Option (Val ν Ptr)} {a b : Val ν Ptr}
    (h : index a = none ∨ index' b = none) : dependCall index index' [a, b] gs = .raised gs := by
  rw [dependCall, if_neg (by simp)]
  cases hp : getProject index 1 [a, b] with
  | none => rfl
  | some p =>
    have ha : index a ≠ none := fun ha => by
      cases hp.symm.trans (Option.map_eq_none_iff.mpr ha)
    have hdep : getProject index' 2 [a, b] = none := Option.map_eq_none_iff.mpr (h.resolve_left ha)
    rw [hdep]

/-- A `depend` that gets to the end is defined and sound exactly when both values point at projects. -/
theorem dependCall_sound {index index' : Val ν Ptr → Option (Val ν Ptr)} {a b v w : Val ν Ptr}
    (ha : index a = some v) (hb : index' b = some w) (hgs : Sound gs) :
    (∃ gs', (dependCall index index' [a, b] gs).projects = some gs' ∧ Sound gs') ↔
      PointsIn gs v ∧ PointsIn gs w := by
  rw [dependCall_two ha hb]
  cases hpos : ((Lua.touserdata v).getD .null).position gs with
  | none =>
    refine iff_of_false (by simp [CallResult.projects]) fun h => ?_
    obtain ⟨i, hi, hlt⟩ := h.1
    rw [getD_project.mpr hi, Ptr.position, if_pos hlt] at hpos
    cases hpos
  | some i =>
    obtain ⟨j, hj, hlt⟩ := position_isSome.mp (Option.isSome_of_eq_some hpos)
    rw [hj, Ptr.position, if_pos hlt, Option.some.injEq] at hpos
    subst hpos
    have hv : PointsIn gs v := ⟨j, getD_project.mp hj, hlt⟩
    simp only [CallResult.projects, Option.some.injEq, exists_eq_left', hv, true_and]
    rw [sound_modify hgs hlt]
    exact exists_congr fun k => and_congr_left fun _ => getD_project

/-- One call keeps what is stored sound exactly when it is proper. -/
theorem run_sound (form : ν → Str) (c : MakeCall ν) (hgs : Sound gs) :
    (∃ gs', (c.run form gs).projects = some gs' ∧ Sound gs') ↔ c.Proper gs := by
  cases c with
  | program args => exact iff_of_true (createCall_sound .program args hgs) trivial
  | library args => exact iff_of_true (createCall_sound .staticLibrary args hgs) trivial
  | depend index index' args =>
    match args with
    | [] | [_] | _ :: _ :: _ :: _ => exact iff_of_true ⟨gs, rfl, hgs⟩ trivial
    | [a, b] =>
      rw [MakeCall.run, MakeCall.Proper]
      cases ha : index a with
      | none => exact iff_of_true ⟨gs, by rw [dependCall_raised (.inl ha)]; rfl, hgs⟩ (by simp)
      | some v =>
        cases hb : index' b with
        | none => exact iff_of_true ⟨gs, by rw [dependCall_raised (.inr hb)]; rfl, hgs⟩ (by simp)
        | some w =>
          rw [dependCall_sound ha hb hgs]
          constructor
          · rintro h _ _ ⟨⟩ ⟨⟩
            exact h
          · exact fun h => h v w rfl rfl

/-! ### Every sequence of calls -/

theorem runCalls_concat (cs : List (MakeCall ν)) (c : MakeCall ν) :
    runCalls form (cs ++ [c]) gs = (runCalls form cs gs).bind fun gs' => (c.run form gs').projects := by
  rw [runCalls, List.foldlM_append]
  refine congrArg _ (funext fun gs' => ?_)
  exact List.foldlM_cons.trans (bind_pure _)

theorem sound_nil : Sound [] := fun _ h => absurd h List.not_mem_nil

/-- What is stored stays sound as long as the calls are proper in the state they are made in. -/
theorem runCalls_sound (form : ν → Str) {cs : List (MakeCall ν)}
    (h : ∀ pre c, pre ++ [c] <+: cs → ∀ gs, runCalls form pre [] = some gs → c.Proper gs)
    {pre : List (MakeCall ν)} (hpre : pre <+: cs) :
    ∃ gs, runCalls form pre [] = some gs ∧ Sound gs := by
  induction pre using List.reverseRecOn with
  | nil => exact ⟨[], rfl, sound_nil⟩
  | append_singleton pre c ih =>
    obtain ⟨gs, hrun, hgs⟩ := ih ((List.prefix_append pre [c]).trans hpre)
    rw [runCalls_concat, hrun]
    exact (run_sound form c hgs).mpr (h pre c hpre gs hrun)

/-- Along a sequence of calls the stored pointers are those of projects, and the loop in `link` is safe,
    exactly when every `depend` that gets that far finds projects with both arguments. -/
theorem depends_are_projects (form : ν → Str) (cs : List (MakeCall ν)) :
    (∀ pre, pre <+: cs → ∃ gs, runCalls form pre [] = some gs ∧ Sound gs ∧
      ∀ d ∈ gs, (linkDepends gs d.depends).isSome) ↔
    ∀ pre c, pre ++ [c] <+: cs → ∀ gs, runCalls form pre [] = some gs → c.Proper gs := by
  constructor
  · intro h pre c hpre gs hrun
    obtain ⟨gs', hrun', hgs', -⟩ := h pre ((List.prefix_append pre [c]).trans hpre)
    obtain ⟨gs'', hnext, hgs'', -⟩ := h (pre ++ [c]) hpre
    cases hrun.symm.trans hrun'
    rw [runCalls_concat, hrun] at hnext
    exact (run_sound form c hgs').mp ⟨gs'', hnext, hgs''⟩
  · intro h pre hpre
    obtain ⟨gs, hrun, hgs⟩ := runCalls_sound form h hpre
    exact ⟨gs, hrun, hgs, sound_iff.mp hgs⟩

/-- `a:depend({})`: nothing is said, and the null pointer waits for `link`. -/
theorem depend_on_table :
    ∃ gs, runCalls (Nat.toDigits 10) [.program [.string "a".toList],
        .depend tables tables [.table 0, .table 3]] [] = some gs ∧
      ¬ Sound gs ∧ ∃ d ∈ gs, linkDepends gs d.depends = none := by
  refine ⟨[{ Declared.fresh .program "a".toList with depends := [.null] }], rfl, ?_, ?_⟩
  · intro h
    obtain ⟨i, hi, -⟩ := h _ List.mem_cons_self .null List.mem_cons_self
    cases hi
  · exact ⟨_, List.mem_cons_self, rfl⟩

/-! ### The makefile -/

/-- A `depend` is called on a program. -/
def MakeCall.OnProgram {ν : Type} (gs : List Declared) : MakeCall ν → Prop
  | .depend index _ [a, _] => ∀ v i, index a = some v → Lua.touserdata v = some (.project i) →
      ∀ d, gs[i]? = some d → d.type = .program
  | _ => True

theorem createProject_toProject (type : ProjectType) (name : Str) :
    createProject type name (gs.map Declared.toProject) =
      (if gs.any (fun d => d.name == name) then gs else gs ++ [.fresh type name]).map
        Declared.toProject := by
  rw [createProject, List.any_map, apply_ite (List.map Declared.toProject), List.map_append]
  rfl

theorem createCall_call (form : ν → Str) (gs : List Declared) (type : ProjectType)
    (args : List (Val ν Ptr)) :
    ∃ gs', (createCall form type args gs).projects = some gs' ∧
      (gs' = gs ∨ ∃ name, gs'.map Declared.toProject =
        createProject type name (gs.map Declared.toProject)) := by
  obtain h | ⟨name, hany, h⟩ := createCall_cases form gs type args
  · exact ⟨gs, by rw [h]; rfl, .inl rfl⟩
  · refine ⟨_, by rw [h]; rfl, .inr ⟨name, ?_⟩⟩
    rw [createProject_toProject, if_neg hany]

theorem dependCall_call {index index' : Val ν Ptr → Option (Val ν Ptr)} {a b v w : Val ν Ptr} {i j : ℕ}
    (ha : index a = some v) (hb : index' b = some w) (hv : Lua.touserdata v = some (.project i))
    (hw : Lua.touserdata w = some (.project j)) (hi : i < gs.length) (hj : j < gs.length)
    (hprogram : ∀ d, gs[i]? = some d → d.type = .program) :
    ∃ gs', (dependCall index index' [a, b] gs).projects = some gs' ∧
      gs'.map Declared.toProject = Cake.call (gs.map Declared.toProject) (.depend i j) := by
  have hpos : Ptr.position gs (.project i) = some i := if_pos hi
  rw [dependCall_two ha hb, hv, hw]
  dsimp only [Option.getD_some]
  rw [hpos]
  refine ⟨_, rfl, ?_⟩
  rw [Cake.call, if_pos (by rwa [List.length_map])]
  refine map_modify_comm fun d hd => ?_
  have htype : d.toProject.type = .program := hprogram d hd
  rw [if_pos htype]
  simp [Declared.toProject, Ptr.target]

/-- A proper call is none, or one, of the calls of a makefile. -/
theorem run_call (form : ν → Str) {c : MakeCall ν} (hc : c.Proper gs) (hon : c.OnProgram gs) :
    ∃ gs', ∃ calls : List Call, (c.run form gs).projects = some gs' ∧
      gs'.map Declared.toProject = calls.foldl Cake.call (gs.map Declared.toProject) := by
  have hnone : ∀ r : CallResult, r = .raised gs → ∃ gs', ∃ calls : List Call,
      r.projects = some gs' ∧
        gs'.map Declared.toProject = calls.foldl Cake.call (gs.map Declared.toProject) :=
    fun r h => ⟨gs, [], by rw [h]; rfl, rfl⟩
  cases c with
  | program args =>
    obtain ⟨gs', hrun, rfl | ⟨name, hname⟩⟩ := createCall_call form gs .program args
    · exact ⟨_, [], hrun, rfl⟩
    · exact ⟨gs', [.program name], hrun, hname⟩
  | library args =>
    obtain ⟨gs', hrun, rfl | ⟨name, hname⟩⟩ := createCall_call form gs .staticLibrary args
    · exact ⟨_, [], hrun, rfl⟩
    · exact ⟨gs', [.library name], hrun, hname⟩
  | depend index index' args =>
    match args, hc, hon with
    | [], _, _ | [_], _, _ | _ :: _ :: _ :: _, _, _ => exact hnone _ rfl
    | [a, b], hc, hon =>
      cases ha : index a with
      | none => exact hnone _ (dependCall_raised (.inl ha))
      | some v =>
        cases hb : index' b with
        | none => exact hnone _ (dependCall_raised (.inr hb))
        | some w =>
          obtain ⟨⟨i, hv, hi⟩, ⟨j, hw, hj⟩⟩ := hc v w ha hb
          obtain ⟨gs', hrun, hcall⟩ := dependCall_call ha hb hv hw hi hj (hon v i ha hv)
          exact ⟨gs', [.depend i j], hrun, hcall⟩

/-- Proper calls, `depend` on programs only, leave the projects of a makefile. -/
theorem runCalls_makefile (form : ν → Str) (cs : List (MakeCall ν))
    (h : ∀ pre c, pre ++ [c] <+: cs → ∀ gs, runCalls form pre [] = some gs →
      c.Proper gs ∧ c.OnProgram gs) :
    ∃ gs calls, runCalls form cs [] = some gs ∧ gs.map Declared.toProject = makefile calls := by
  induction cs using List.reverseRecOn with
  | nil => exact ⟨[], [], rfl, rfl⟩
  | append_singleton cs c ih =>
    obtain ⟨gs, calls, hrun, hgs⟩ := ih fun pre c' hpre =>
      h pre c' (hpre.trans (List.prefix_append cs [c]))
    obtain ⟨hc, hon⟩ := h cs c List.prefix_rfl gs hrun
    obtain ⟨gs', calls', hrun', hgs'⟩ := run_call form hc hon
    refine ⟨gs', calls ++ calls', ?_, ?_⟩
    · rw [runCalls_concat, hrun]
      exact hrun'
    · rw [hgs', hgs, makefile, makefile, List.foldl_append]

theorem linkDepends_target {ps : List Ptr} {ds : List Declared} (h : linkDepends gs ps = some ds) :
    (ps.filterMap Ptr.target).length = ps.length ∧
      (ps.filterMap Ptr.target).filterMap (fun i => (gs.map Declared.toProject)[i]?) =
        ds.map Declared.toProject := by
  induction ps generalizing ds with
  | nil =>
    cases h
    exact ⟨rfl, rfl⟩
  | cons p ps ih =>
    rw [linkDepends] at h
    cases hd : (p.position gs).bind fun i => gs[i]? with
    | none => simp [hd] at h
    | some d =>
      rw [hd, Option.map_eq_some_iff] at h
      obtain ⟨ds, hds, rfl⟩ := h
      obtain ⟨i, hpos, hget⟩ := Option.bind_eq_some_iff.mp hd
      obtain ⟨j, rfl, hj⟩ := position_isSome.mp (Option.isSome_of_eq_some hpos)
      rw [Ptr.position, if_pos hj, Option.some.injEq] at hpos
      subst hpos
      obtain ⟨hlen, hmap⟩ := ih hds
      have htarget : Ptr.target (.project j) = some j := rfl
      rw [List.filterMap_cons_some htarget]
      refine ⟨by rw [List.length_cons, List.length_cons, hlen], ?_⟩
      have hproject : (gs.map Declared.toProject)[j]? = some d.toProject := by
        rw [List.getElem?_map, hget, Option.map_some]
      rw [List.filterMap_cons_some hproject, hmap, List.map_cons]

/-- What `link` takes from the projects it goes through. -/
theorem linkDepends_libs {d : Declared} {ds : List Declared} (h : linkDepends gs d.depends = some ds) :
    d.toProject.libDepends (gs.map Declared.toProject) =
      if d.depends.isEmpty then none
      else some (((ds.map Declared.toProject).filter (fun e => e.type ≠ .program)).map
        Project.outTarget) := by
  obtain ⟨hlen, hmap⟩ := linkDepends_target h
  have hempty : (d.depends.filterMap Ptr.target).isEmpty = d.depends.isEmpty := by
    rw [Bool.eq_iff_iff, List.isEmpty_iff_length_eq_zero, List.isEmpty_iff_length_eq_zero, hlen]
  have hdepends : d.toProject.depends = d.depends.filterMap Ptr.target := rfl
  rw [Project.libDepends, hdepends, hempty, hmap]

end Cake
