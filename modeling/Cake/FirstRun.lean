import Cake.Landed
import Cake.Waited
import Cake.Decision

/-! What is there when every `compile()` has returned true.

    Each part of a project was found to stand by `needs_rebuild`, or its command was started; and its
    output was kept or its command was started. A build that returns true has waited for all its
    commands, and all were successes. So at the end of the run every part is complete and every output
    is there, and neither is older than the makefile.

        part ── stood ─────▶ complete then ──lasts──▶ complete at the end
             └─ launched ──▶ done at the end ────────────┘ -/

namespace Cake

variable {env : Env} {R : Rules} {X : Part → Prop} {gs : List Project} {p : Project} {w w' : World}
  {s : St} {c : Str} {l : List Str} {mk : ℕ}

/-! ### The moves of a build -/

theorem making_part {cmd : Cmd} {x : Part} (hd : World.hasDep cmd.kind = true) (hx : X x)
    (ho : cmd.out = x.product) : (making X).exec cmd := by
  simp only [making, hd, if_true]
  exact ⟨x, hx, ho⟩

theorem making_output {cmd : Cmd} {q : Project} (hk : cmd.kind = .link ∨ cmd.kind = .ar)
    (ho : cmd.out = q.outPath) : (making X).exec cmd := by
  have hd : World.hasDep cmd.kind = false := by rcases hk with hk | hk <;> rw [hk] <;> rfl
  simp only [making, hd, Bool.false_eq_true, if_false]
  exact ⟨q, ho⟩

theorem header_part (h : ∀ x ∈ p.parts w w.target, X x) {hd : Str}
    (hf : p.files.find? isHeader = some hd) : X (headerPart w.target hd) :=
  h _ (List.mem_append_left _ (List.mem_map_of_mem (Option.mem_toList.mpr hf)))

theorem source_part (h : ∀ x ∈ p.parts w w.target, X x) {f : Str} (hf : f ∈ p.fnames w) :
    X (sourcePart w.target f) :=
  h _ (List.mem_append_right _ (List.mem_map_of_mem hf))

/-- Sources make their parts. -/
theorem path_sources (cflags : Str) {fs : List Str} {s : St}
    (hX : ∀ f ∈ fs, X (sourcePart s.w.target f)) :
    Path env (making X) s.w (compileAll env cflags fs s).w :=
  path_compileAll (fun f => X (sourcePart s.w.target f)) (fun _ hf => making_part rfl hf rfl)
    (fun _ _ _ _ _ => trivial) fs s hX rfl rfl

theorem path_header_making (hX : ∀ x ∈ p.parts w w.target, X x) (cflags : Str) :
    Path env (making X) (newBuild env w).w (p.header env cflags w).w :=
  path_header fun _ hh => making_part rfl (header_part hX hh) rfl

/-- The sources a build comes to are parts of its project. -/
theorem sources_part (hcalm : env.Calm) (hX : ∀ x ∈ p.parts w w.target, X x) (cflags : Str) :
    ∀ f ∈ p.sources env cflags w, X (sourcePart (p.header env cflags w).w.target f) := by
  intro f hf
  rw [(p.header_held env cflags w).2]
  exact source_part hX (p.sources_calm hcalm cflags w ▸ hf)

theorem path_after_making (hcalm : env.Calm) (hX : ∀ x ∈ p.parts w w.target, X x) (cflags : Str) :
    Path env (making X) (p.header env cflags w).w
      (p.after env cflags (p.sources env cflags w).length w).w := by
  rw [Project.after, List.take_length]
  exact path_sources cflags (sources_part hcalm hX cflags)

/-- The output of a project that has one. -/
theorem path_output_making (X : Part → Prop) (hpkg : pkgConfig env p.pkgdepends = some (c, l))
    (hout : p.outTarget ≠ []) (htype : p.type ≠ .sharedLibrary) (gs : List Project) :
    Path env (making X) (p.after env (p.flagText c) (p.sources env (p.flagText c) w).length w).w
      (p.compile env gs w).2.w := by
  obtain ⟨mkCmd, hmk, heq⟩ := p.compile_produce hpkg hout htype gs w
  rw [heq]
  exact path_produce (making_output (hmk.kind _) (hmk.out _)) fun _ _ => trivial

/-- `compile()` of such a project. -/
theorem path_compile_making (hcalm : env.Calm) (hX : ∀ x ∈ p.parts w w.target, X x)
    (hpkg : pkgConfig env p.pkgdepends = some (c, l)) (hout : p.outTarget ≠ [])
    (htype : p.type ≠ .sharedLibrary) :
    Path env (making X) (newBuild env w).w (p.compile env gs w).2.w :=
  ((path_header_making hX _).trans (path_after_making hcalm hX _)).trans
    (path_output_making X hpkg hout htype gs)

/-! ### A `compile()` that returned true -/

/-- pkg-config answers for the project, and it has an output. -/
def Project.Builds (env : Env) (p : Project) : Prop :=
  (∃ c l, pkgConfig env p.pkgdepends = some (c, l)) ∧ p.outTarget ≠ [] ∧ p.type ≠ .sharedLibrary

/-- It had flags and an output to write. -/
theorem compile_builds {t : St} (h : p.compile env gs w = (true, t)) : p.Builds env := by
  cases hpkg : pkgConfig env p.pkgdepends with
  | none =>
    rw [Project.compile] at h
    simp only [hpkg, Prod.mk.injEq] at h
    exact absurd h.1 (by decide)
  | some cl =>
    obtain ⟨c, l⟩ := cl
    refine ⟨⟨c, l, hpkg⟩, not_not.mp fun hno => ?_⟩
    rw [p.compile_unnamed hpkg hno] at h
    exact absurd (congrArg Prod.fst h) (by simp)

/-- And nothing failed. -/
theorem compile_true {t : St} (hforks : env.Forks) (hcalm : env.Calm)
    (hX : ∀ x ∈ p.parts w w.target, X x) (hp : w.PidsOk) (h : p.compile env gs w = (true, t)) :
    ∀ e ∈ execs t.w.log, okFate e.2 = true := by
  obtain ⟨⟨c, l, hpkg⟩, hout, htype⟩ := compile_builds h
  have hpath : Path env (making X) (newBuild env w).w (p.compile env gs w).2.w :=
    path_compile_making hcalm hX hpkg hout htype
  obtain ⟨mkCmd, hmk, heq⟩ := p.compile_produce hpkg hout htype gs w
  have hbooks := p.after_keeps (Books.discipline env) (p.flagText c) w (books_newBuild env hp)
    (fun h => (books_newBuild env hp).makePch env h _ _) (p.sources env (p.flagText c) w).length
  rw [h] at heq hpath
  have hforked : Forked t.w.log := hpath.execs (fun k cmd fs _ => by
    obtain ⟨f, hf⟩ := hforks k cmd fs
    rw [hf]
    exact Option.some_ne_none f) fun _ he => absurd he List.not_mem_nil
  obtain ⟨hn, hfree⟩ := produce_true hbooks (by rw [← heq])
  obtain ⟨-, -, led, ha⟩ := hbooks.produce env hmk.kind (by rw [← heq]; exact Or.inr hforked)
  rw [← heq] at hn hfree ha
  have htasks : t.b.jobs.filterMap Job.task = [] :=
    List.filterMap_eq_nil_iff.mpr fun j hj => by simp [Job.task, hfree j hj]
  rw [htasks] at ha
  exact ha.reckoned.failed.mp hn

/-! ### The parts of the project -/

/-- The part is complete, or a command that makes it has been started in this build. -/
def Met (w : World) (x : Part) : Prop :=
  Complete w.fs w.makefileTime x ∨
    ∃ cmd f, (cmd, some f) ∈ execs w.log ∧ World.hasDep cmd.kind = true ∧ cmd.out = x.product

theorem complete_of_stands {fs : FS} {newest : ℕ} {x : Part}
    (hpres : x.header = true → (fs x.product).isSome = true)
    (h : Stands fs mk newest x.dep x.product) : Complete fs mk x := by
  obtain ⟨tokens, hl, hpass⟩ := h
  refine ⟨hpres, tokens, hl, fun t ht => ?_, fun hne => ?_⟩
  · obtain ⟨⟨-, f, -, hf, -⟩, -⟩ := hpass t ht
    rw [hf]
    rfl
  · obtain ⟨t, ht⟩ := List.exists_mem_of_ne_nil _ hne
    obtain ⟨⟨o, -, ho, -, hmk, -⟩, -⟩ := hpass t ht
    exact ⟨o, ho, hmk⟩

/-- A command whose start has just been noted. -/
theorem ForkLog.met {cmd : Cmd} {x : Part} (hforks : env.Forks) (h : ForkLog env cmd w w')
    (hd : World.hasDep cmd.kind = true) (ho : cmd.out = x.product) : Met w' x := by
  obtain ⟨-, ⟨fs, he⟩, -⟩ := h
  obtain ⟨f, hf⟩ := hforks w.nfork cmd fs
  refine Or.inr ⟨cmd, f, ?_, hd, ho⟩
  rw [he, hf]
  exact List.mem_cons_self ..

theorem doCompile_met (hforks : env.Forks) (cflags fname : Str) (s : St) (hne : s.b.jobs ≠ []) :
    Met (doCompile env cflags fname s).w (sourcePart s.w.target fname) := by
  rcases doCompile_log env cflags fname s hne with ⟨-, h⟩ | ⟨hasks, -⟩
  · exact h.met hforks rfl rfl
  · left
    have ht := (path_yield env .all s.w).later.target
    rw [asksRebuild] at hasks
    rw [doCompile]
    dsimp only [countSource, compileCmd] at hasks ⊢
    rcases hr : needsRebuild _ _ _ _ _ _ with ⟨_ | _, newest⟩
    · have hst := (stands_of_needsRebuild hr).2
      rw [ht] at hst
      exact complete_of_stands (x := sourcePart s.w.target fname) (fun hh => by cases hh) hst
    · rw [hr] at hasks
      cases hasks

theorem makePch_met (hforks : env.Forks) (pch cflags : Str) (cpp : Bool) (s : St) :
    Met (makePch env pch cflags cpp s).w (headerPart s.w.target pch) := by
  have ht := (path_yield env .all s.w).later.target
  have hbuild : ∀ s' : St, Met (buildPch env (pchCmd s.w.target cflags cpp pch) s').w
      (headerPart s.w.target pch) := fun s' => (buildPch_log env _ s').met hforks rfl rfl
  rw [makePch]
  dsimp only
  split
  · rename_i hex
    rcases hr : needsRebuild _ _ _ _ _ _ with ⟨_ | _, newest⟩
    · have hst := (stands_of_needsRebuild hr).2
      rw [ht] at hst
      exact Or.inl (complete_of_stands (x := headerPart s.w.target pch) (fun _ => hex) hst)
    · exact hbuild _
  · exact hbuild _

theorem header_met (hforks : env.Forks) (cflags : Str) {x : Part} (hx : x ∈ p.headerParts w.target) :
    Met (p.header env cflags w).w x := by
  obtain ⟨hd, hfind, rfl⟩ := List.mem_map.mp hx
  rw [Project.header, Project.pchStep, Option.mem_toList.mp hfind]
  exact makePch_met hforks hd cflags _ (newBuild env w)

/-- Every source was met on the way. -/
theorem compileAll_met (hforks : env.Forks) (cflags : Str) (fs : List Str) (s : St)
    (hne : s.b.jobs ≠ []) (hX : ∀ f ∈ fs, X (sourcePart s.w.target f)) : ∀ f ∈ fs, ∃ u,
      Path env (making X) s.w u ∧ Path env (making X) u (compileAll env cflags fs s).w ∧
        Met u (sourcePart s.w.target f) := by
  induction fs generalizing s with
  | nil =>
    intro f hf
    exact absurd hf List.not_mem_nil
  | cons g fs ih =>
    intro f hf
    obtain ⟨hg, hfs⟩ := List.forall_mem_cons.mp hX
    have hstep : Path env (making X) s.w (doCompile env cflags g s).w :=
      path_doCompile (making_part rfl hg rfl) fun _ _ _ => trivial
    have htarget := doCompile_target env cflags g s
    rw [← htarget] at hfs
    rcases List.mem_cons.mp hf with rfl | hf
    · exact ⟨_, hstep, path_sources cflags hfs, doCompile_met hforks cflags f s hne⟩
    · obtain ⟨u, hu, hrest, hmet⟩ := ih _ (doCompile_ne_nil env cflags g hne) hfs f hf
      rw [htarget] at hmet
      exact ⟨u, hstep.trans hu, hrest, hmet⟩

/-- Every part of the project was met on the way to its output. -/
theorem parts_met (hforks : env.Forks) (hcalm : env.Calm) (hX : ∀ x ∈ p.parts w w.target, X x)
    (cflags : Str) {x : Part} (hx : x ∈ p.parts w w.target) : ∃ u,
      Path env (making X) (newBuild env w).w u ∧
      Path env (making X) u (p.after env cflags (p.sources env cflags w).length w).w ∧ Met u x := by
  have hhead : Path env (making X) (newBuild env w).w (p.header env cflags w).w :=
    path_header_making hX cflags
  have hafter := path_after_making hcalm hX cflags
  rcases List.mem_append.mp hx with hx | hx
  · exact ⟨(p.header env cflags w).w, hhead, hafter, header_met hforks cflags hx⟩
  · obtain ⟨f, hf, rfl⟩ := List.mem_map.mp hx
    obtain ⟨u, hu, hrest, hmet⟩ := compileAll_met hforks cflags _ _ (header_busy env p cflags w)
      (sources_part hcalm hX cflags) f (p.sources_calm hcalm cflags w ▸ hf)
    rw [(p.header_held env cflags w).2] at hmet
    rw [Project.after, List.take_length]
    exact ⟨u, hhead.trans hu, hrest, hmet⟩

/-- When nothing runs any more, what was met is complete. -/
theorem Met.complete {x : Part} (hx : X x) (h : Met w x) (hwent : Went X w w')
    (hmk : w'.makefileTime = w.makefileTime) (hprocs : w'.procs = [])
    (hlaunched : ∀ e ∈ execs w.log, e ∈ launched w'.log) : Complete w'.fs w.makefileTime x := by
  rcases h with h | ⟨cmd, f, hmem, hd, ho⟩
  · exact hwent.lasts.complete x hx h
  · rcases hwent.going.done cmd f (hlaunched _ hmem) with ⟨pr, hpr, -⟩ | hdone
    · rw [hprocs] at hpr
      exact absurd hpr List.not_mem_nil
    · rw [← hmk]
      exact hdone.complete hd x hx ho.symm

/-! ### The output of the project -/

/-- `link` and `staticlib` that answer true keep an output that is there, or have started its
    command. -/
theorem produce_output {mkCmd : St → Cmd} {s t : St} (hforks : env.Forks)
    (h : produce env mkCmd s = (true, t)) :
    Dated t.w.fs t.w.makefileTime (mkCmd (decision env s)).out ∨
      ∃ f, (mkCmd (decision env s), some f) ∈ execs t.w.log := by
  rw [produce] at h
  rw [← decision] at h
  generalize decision env s = d at h ⊢
  split at h
  · simp only [Prod.mk.injEq] at h
    exact absurd h.1 (by decide)
  · split at h
    · rename_i hup
      simp only [Prod.mk.injEq] at h
      obtain ⟨-, rfl⟩ := h
      obtain ⟨-, f, hf, hmk, -⟩ := upToDate_fresh hup
      exact Or.inl ⟨f, hf, hmk⟩
    · obtain ⟨-, ⟨fs, he⟩, -⟩ := buildOutput_log env (mkCmd d) d
      obtain ⟨f, hf⟩ := hforks d.w.nfork (mkCmd d) fs
      rw [h, hf] at he
      exact Or.inr ⟨f, by rw [he]; exact List.mem_cons_self ..⟩

/-! ### The build -/

/-- Between two builds of a run whose commands are all successes. -/
structure Landing (X : Part → Prop) (w : World) : Prop where
  alone : Alone w
  going : Going X w
  ok : AllOk w.log

/-- A build that returned true: its parts are complete and its output is there. -/
theorem Landing.compile {t : St} (hX : Named X) (hforks : env.Forks) (hcalm : env.Calm)
    (htruth : env.Truthful) (hparts : ∀ x ∈ p.parts w w.target, X x) (hw : Landing X w)
    (h : p.compile env gs w = (true, t)) :
    Landing X t.w ∧ Lasts X w.makefileTime w.fs t.w.fs ∧
      (∀ x ∈ p.parts w w.target, Complete t.w.fs w.makefileTime x) ∧
      Dated t.w.fs w.makefileTime p.outPath := by
  obtain ⟨⟨hpids, hprocs⟩, hgoing, hok⟩ := hw
  obtain ⟨⟨c, l, hpkg⟩, hout, htype⟩ := compile_builds h
  have hall := compile_true hforks hcalm hparts hpids h
  have hnew : Going X (newBuild env w).w := ⟨hgoing.time, hgoing.able, hgoing.done⟩
  have hnewpids : (newBuild env w).w.PidsOk := ⟨hpids.nodup, hpids.bound⟩
  obtain ⟨mkCmd, hmk, heq⟩ := p.compile_produce hpkg hout htype gs w
  -- the moves of the build, and what they keep
  have hlast := path_output_making X hpkg hout htype gs (w := w)
  have hpath : Path env (making X) (newBuild env w).w (p.compile env gs w).2.w :=
    path_compile_making hcalm hparts hpkg hout htype
  rw [h] at heq hlast hpath
  have hlaunched : launched t.w.log = execs t.w.log ++ launched w.log :=
    launched_build (fun hb => hb) hpath
  have hokt : AllOk t.w.log := fun e he => by
    rw [hlaunched] at he
    exact (List.mem_append.mp he).elim (hall e) (hok e)
  have hwent : ∀ u, Path env (making X) (newBuild env w).w u → Path env (making X) u t.w →
      Went X u t.w := fun u hu hut =>
    Went.path hX hcalm htruth (hnewpids.path hu) hut
      (Went.path hX hcalm htruth hnewpids hu hnew (hokt.before hut)).going hokt
  have halone : Alone t.w := by
    have ha : Alone (p.compile env gs w).2.w := Alone.compile ⟨hpids, hprocs⟩ hout htype gs
    rwa [h] at ha
  obtain ⟨hgoing', hlasts⟩ := hwent _ .refl hpath
  refine ⟨⟨halone, hgoing', hokt⟩, hlasts, fun x hx => ?_, ?_⟩
  · obtain ⟨u, hu, hafter, hmet⟩ := parts_met hforks hcalm hparts (p.flagText c) hx
    have hut : Path env (making X) u t.w := hafter.trans hlast
    have hmku := hu.later.makefileTime
    have hcomplete := hmet.complete (hparts x hx) (hwent u hu hut) hut.later.makefileTime halone.procs
      fun e he => by
        obtain ⟨new, hnew'⟩ := hut.launched
        rw [hnew', launched_build (fun hb => hb) hu]
        exact List.mem_append_right _ (List.mem_append_left _ he)
    rw [hmku] at hcomplete
    exact hcomplete
  · have hmkt : t.w.makefileTime = w.makefileTime := hpath.later.makefileTime
    rcases produce_output hforks heq.symm with hdated | ⟨f, hf⟩
    · rw [hmk.out, hmkt] at hdated
      exact hdated
    · rcases hgoing'.done _ f (by rw [hlaunched]; exact List.mem_append_left _ hf) with ⟨pr, hpr, -⟩ | hdone
      · rw [halone.procs] at hpr
        exact absurd hpr List.not_mem_nil
      · have hdated := hdone.dated
        rw [hmk.out, hmkt] at hdated
        exact hdated

/-! ### The run -/

/-- The parts of the projects. -/
def partsOf (gs : List Project) (w : World) (target : Str) (x : Part) : Prop :=
  ∃ p ∈ gs, x ∈ p.parts w target

theorem parts_under (gs : List Project) (w : World) (target : Str)
    (hdep : ∀ x, partsOf gs w target x → x.dep = gccDepName x.product)
    (hapart : ∀ x y, partsOf gs w target x → partsOf gs w target y → x.dep = y.dep →
      x.product = y.product) : Named (partsOf gs w target) where
  under := fun _ ⟨_, _, hx⟩ => part_under hx
  product := fun _ ⟨_, _, hx⟩ => part_ne_dep hx
  dep := hdep
  apart := hapart

/-- Nothing is missing: every part is complete and every output is there, not older than the
    makefile. -/
structure Whole (gs : List Project) (target : Str) (mk : ℕ) (w : World) : Prop where
  parts : ∀ p ∈ gs, ∀ x ∈ p.parts w target, Complete w.fs mk x
  outputs : ∀ p ∈ gs, Dated w.fs mk p.outPath

theorem path_compile_all (env : Env) (p : Project) (gs : List Project) (w : World) :
    Path env .all w (p.compile env gs w).2.w := by
  have henv : env.Lists (fun _ _ => True) := fun _ _ _ _ _ _ => trivial
  exact path_compile henv (fun _ _ _ => trivial) trivial (fun _ _ => trivial) (fun _ _ _ => trivial)
    fun _ _ _ _ _ _ _ _ _ => trivial

/-- The settings of the run stay, and the notes are of builds that are over. -/
structure Walked (w₀ : World) (k : ℕ) (w : World) : Prop where
  glob : w.glob = w₀.glob
  target : w.target = w₀.target
  makefileTime : w.makefileTime = w₀.makefileTime
  returns : ∀ e ∈ returns w.log, e.1 < k

variable {w₀ : World} {k : ℕ}

theorem Walked.build (hcalm : env.Calm) (hw : Walked w₀ k w) (p : Project) (gs : List Project)
    {ret : Bool} {t : St} (h : p.compile env gs w = (ret, t)) :
    Walked w₀ (k + 1) (t.w.say (.leave k ret)) := by
  have hpath := path_compile_all env p gs w
  have hreturns := compile_returns env p gs w
  rw [h] at hpath hreturns
  have hlater : Later w t.w := Path.later hpath
  refine ⟨(Path.glob hcalm hpath).trans hw.glob, hlater.target.trans hw.target,
    hlater.makefileTime.trans hw.makefileTime, fun e he => ?_⟩
  rcases List.mem_cons.mp he with rfl | he
  · exact Nat.lt_succ_self k
  · rw [hreturns] at he
    exact (hw.returns e he).trans (Nat.lt_succ_self k)

theorem Walked.parts (hw : Walked w₀ k w) (p : Project) : p.parts w w.target = p.parts w₀ w₀.target := by
  rw [hw.target]
  exact Project.parts_glob hw.glob _ p

/-- Induction over a run whose builds have all returned true. -/
theorem mainLoop_true {P : ℕ → World → Prop} (hcalm : env.Calm) (h0 : P 0 w₀)
    (hnone : returns w₀.log = [])
    (hall : ∀ i < gs.length, (i, true) ∈ returns (mainLoop env (fun _ => true) gs w₀).log)
    (hstep : ∀ k p w t, gs[k]? = some p → Walked w₀ k w → P k w → p.compile env gs w = (true, t) →
      P (k + 1) (t.w.say (.leave k true))) :
    Walked w₀ gs.length (mainLoop env (fun _ => true) gs w₀) ∧
      P gs.length (mainLoop env (fun _ => true) gs w₀) := by
  have h := mainLoop_induct env (fun _ => true) gs (w := w₀)
    (P := fun k w => Walked w₀ k w ∧ ((∀ i < k, (i, true) ∈ returns w.log) → P k w))
    ⟨⟨rfl, rfl, rfl, fun e he => by rw [hnone] at he; exact absurd he List.not_mem_nil⟩, fun _ => h0⟩ ?_
  · exact ⟨h.1, h.2 hall⟩
  · rintro k p w hp ⟨hw, hk⟩
    rw [mainStep, if_pos rfl]
    rcases hc : p.compile env gs w with ⟨ret, t⟩
    refine ⟨hw.build hcalm p gs hc, fun hreturns => ?_⟩
    have hlog : returns (t.w.say (.leave k ret)).log = (k, ret) :: returns w.log := by
      rw [World.say, Cake.returns, ← compile_returns env p gs w, hc]
    -- the note of a build is its own
    have hbefore : ∀ i < k, (i, true) ∈ returns w.log := fun i hi => by
      have hmem := hreturns i (hi.trans (Nat.lt_succ_self k))
      rw [hlog] at hmem
      refine (List.mem_cons.mp hmem).resolve_left fun heq => ?_
      exact absurd (congrArg Prod.fst heq) hi.ne
    have htrue : ret = true := by
      have hmem := hreturns k (Nat.lt_succ_self k)
      rw [hlog] at hmem
      rcases List.mem_cons.mp hmem with heq | hmem
      · exact (congrArg Prod.snd heq).symm
      · exact absurd (hw.returns _ hmem) (Nat.lt_irrefl k)
    subst htrue
    exact hstep k p w t hp hw (hk hbefore) hc

/-- Every project of such a run has an output, and nothing is left running. -/
theorem alone_mainLoop (hcalm : env.Calm) (hstart : Alone w₀) (hnone : returns w₀.log = [])
    (hall : ∀ i < gs.length, (i, true) ∈ returns (mainLoop env (fun _ => true) gs w₀).log) :
    Walked w₀ gs.length (mainLoop env (fun _ => true) gs w₀) ∧
      Alone (mainLoop env (fun _ => true) gs w₀) ∧ ∀ p ∈ gs, p.Builds env := by
  have hrun := mainLoop_true hcalm
    (P := fun k w => Alone w ∧ ∀ i < k, ∀ p, gs[i]? = some p → p.Builds env)
    ⟨hstart, fun i hi => absurd hi (Nat.not_lt_zero i)⟩ hnone hall ?_
  · obtain ⟨hwalked, halone, hbuilds⟩ := hrun
    refine ⟨hwalked, halone, fun p hp => ?_⟩
    obtain ⟨i, hi⟩ := List.getElem?_of_mem hp
    exact hbuilds i (List.getElem?_eq_some_iff.mp hi).1 p hi
  · rintro k p w t hp - ⟨halone, hbuilds⟩ h
    have hb := compile_builds h
    have ha : Alone (p.compile env gs w).2.w := halone.compile hb.2.1 hb.2.2 gs
    rw [h] at ha
    refine ⟨⟨⟨ha.pids.nodup, ha.pids.bound⟩, ha.procs⟩, fun i hi q hq => ?_⟩
    rcases Nat.lt_succ_iff_lt_or_eq.mp hi with hi | rfl
    · exact hbuilds i hi q hq
    · obtain rfl : p = q := Option.some.inj (hp.symm.trans hq)
      exact hb

/-- The state of the run after some of its builds, all of which returned true. -/
structure Achieved (gs : List Project) (w₀ : World) (k : ℕ) (w : World) : Prop where
  landing : Landing (partsOf gs w₀ w₀.target) w
  lasts : Lasts (partsOf gs w₀ w₀.target) w₀.makefileTime w₀.fs w.fs
  built : ∀ i < k, ∀ p, gs[i]? = some p →
    (∀ x ∈ p.parts w₀ w₀.target, Complete w.fs w₀.makefileTime x) ∧
      Dated w.fs w₀.makefileTime p.outPath

/-- A build of the run that returned true. -/
theorem Achieved.build (hforks : env.Forks) (hcalm : env.Calm) (htruth : env.Truthful)
    (hX : Named (partsOf gs w₀ w₀.target)) (hp : gs[k]? = some p) (hw : Walked w₀ k w)
    (ha : Achieved gs w₀ k w) {t : St} (h : p.compile env gs w = (true, t)) :
    Achieved gs w₀ (k + 1) (t.w.say (.leave k true)) := by
  obtain ⟨hlanding, hlasts, hbuilt⟩ := ha
  have hparts : ∀ x ∈ p.parts w w.target, partsOf gs w₀ w₀.target x := fun x hx => by
    rw [hw.parts p] at hx
    exact ⟨p, List.mem_of_getElem? hp, hx⟩
  obtain ⟨hland, hnext, hcomplete, hdated⟩ := hlanding.compile hX hforks hcalm htruth hparts h
  rw [hw.makefileTime] at hnext hcomplete hdated
  rw [hw.parts p] at hcomplete
  obtain ⟨⟨hpids, hprocs⟩, hgoing, hok⟩ := hland
  refine ⟨⟨⟨⟨hpids.nodup, hpids.bound⟩, hprocs⟩, ⟨hgoing.time, hgoing.able, hgoing.done⟩, hok⟩,
    hlasts.trans hnext, fun i hi q hq => ?_⟩
  rcases Nat.lt_succ_iff_lt_or_eq.mp hi with hi | rfl
  · obtain ⟨hq₁, hq₂⟩ := hbuilt i hi q hq
    exact ⟨fun x hx => hnext.complete x ⟨q, List.mem_of_getElem? hq, hx⟩ (hq₁ x hx), hnext.dated _ hq₂⟩
  · obtain rfl : p = q := Option.some.inj (hp.symm.trans hq)
    exact ⟨hcomplete, hdated⟩

/-- A run whose builds have all returned true: nothing is missing, and only products have changed. -/
theorem whole_mainLoop (hforks : env.Forks) (hcalm : env.Calm) (htruth : env.Truthful)
    (hX : Named (partsOf gs w₀ w₀.target)) (hstart : Landing (partsOf gs w₀ w₀.target) w₀)
    (hnone : returns w₀.log = [])
    (hall : ∀ i < gs.length, (i, true) ∈ returns (mainLoop env (fun _ => true) gs w₀).log) :
    Whole gs w₀.target w₀.makefileTime (mainLoop env (fun _ => true) gs w₀) ∧
      ∀ o, isProduct o = false → (mainLoop env (fun _ => true) gs w₀).fs o = w₀.fs o := by
  obtain ⟨hwalked, -, hlasts, hbuilt⟩ := mainLoop_true hcalm (P := Achieved gs w₀)
    ⟨hstart, .refl _, fun i hi => absurd hi (Nat.not_lt_zero i)⟩ hnone hall
    fun k p w t hp hw ha h => ha.build hforks hcalm htruth hX hp hw h
  refine ⟨⟨fun p hp => ?_, fun p hp => ?_⟩, hlasts.others⟩
  all_goals
    obtain ⟨i, hi⟩ := List.getElem?_of_mem hp
    obtain ⟨hcomplete, hdated⟩ := hbuilt i (List.getElem?_eq_some_iff.mp hi).1 p hi
  · rw [Project.parts_glob hwalked.glob]
    exact hcomplete
  · exact hdated

end Cake
