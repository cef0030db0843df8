import Cake.Converge
import Cake.Outlook

/-! A run in stages.

    When what is listed and read for a part comes from sources, from earlier projects and, for a source, from
    the header of its own project, a run that succeeds brings one stage after the other up to date: the
    header of a project, then its sources, then the next project. Nothing that is made later touches them.

        header 0 ──▶ sources 0 ──▶ output 0 ──▶ header 1 ──▶ sources 1 ──▶ …
        what is read comes from the left -/

namespace Cake

variable {env : Env} {X : Part → Prop} {gs : List Project} {p : Project} {v w w' : World} {x y : Part}
  {pr : Proc} {cmd : Cmd} {k : ℕ}

/-! ### What the dependency files list -/

/-- A command that makes the part has been started in this run. -/
def StartedFor (log : List Ev) (x : Part) : Prop := ∃ cmd f, (cmd, some f) ∈ launched log ∧ cmd.out = x.product

/-- Such a command has read exactly these files. -/
def ReadFor (log : List Ev) (x : Part) (ts : List Str) : Prop :=
  ∃ cmd f, (cmd, some f) ∈ launched log ∧ cmd.out = x.product ∧ ∀ t, t ∈ ts ↔ t ∈ f.reads

/-- In a run that began in `v` and whose commands are all successes: a dependency file lists what one of them
    has read, and the files of a part for which none was started are as they were. -/
structure Filed (X : Part → Prop) (v w : World) : Prop where
  noted : ∀ pr ∈ w.procs, (pr.cmd, some pr.fate) ∈ launched w.log
  filed : ∀ cmd f, (cmd, some f) ∈ launched w.log →
    (∃ pr ∈ w.procs, pr.cmd = cmd ∧ pr.zombie = false) ∨
      ∀ x, X x → x.product = cmd.out → ReadFor w.log x (x.prerequisites w.fs)
  unmade : ∀ x, X x → ¬ StartedFor w.log x → w.fs x.product = v.fs x.product ∧ w.fs x.dep = v.fs x.dep

theorem ReadFor.later {log log' : List Ev} {ts : List Str} (h : ReadFor log x ts)
    (hlog : ∃ new, launched log' = new ++ launched log) : ReadFor log' x ts := by
  obtain ⟨cmd, f, hmem, ho, hreads⟩ := h
  obtain ⟨new, hnew⟩ := hlog
  exact ⟨cmd, f, by rw [hnew]; exact List.mem_append_right _ hmem, ho, hreads⟩

theorem StartedFor.later {log log' : List Ev} (h : StartedFor log x)
    (hlog : ∃ new, launched log' = new ++ launched log) : StartedFor log' x := by
  obtain ⟨cmd, f, hmem, ho⟩ := h
  obtain ⟨new, hnew⟩ := hlog
  exact ⟨cmd, f, by rw [hnew]; exact List.mem_append_right _ hmem, ho⟩

/-- The dependency file of a part after a child has exited. -/
theorem Filed.land (hX : Named X) (hgoing : Going X w) (hpr : pr ∈ w.procs) (h : Filed X v w) (hx : X x) :
    x.product = pr.cmd.out ∧ ReadFor w.log x (x.prerequisites (w.land pr).fs) ∨
      x.product ≠ pr.cmd.out ∧ (w.land pr).fs x.product = w.fs x.product ∧
        (w.land pr).fs x.dep = w.fs x.dep := by
  have hable := hgoing.able pr hpr
  by_cases ho : x.product = pr.cmd.out
  · have hd := making_of_part hable.makes hX hx ho.symm
    exact Or.inl ⟨ho, pr.cmd, pr.fate, h.noted pr hpr, ho.symm, land_lists hX hable hx hd ho⟩
  · exact Or.inr ⟨ho, land_apart hX hable.makes hx ho w⟩

theorem Filed.move (hX : Named X) (hcalm : env.Calm) (hpids : w.PidsOk) (hgoing : Going X w)
    (hm : Move env (making X) w w') (h : Filed X v w) : Filed X v w' := by
  have hlog := hm.launched
  have hlater : ∀ e ∈ launched w.log, e ∈ launched w'.log := fun e he => by
    obtain ⟨new, hnew⟩ := hlog
    rw [hnew]
    exact List.mem_append_right _ he
  have hends := hm.ends hcalm hpids
  refine ⟨fun q hq => ?_, fun cmd f hmem => ?_, fun x hx hnone => ?_⟩
  · rcases hm.child hpids hq with hq | ⟨q₀, hq₀, rfl, -⟩ | ⟨cmd, f, -, -, rfl, -, heq⟩
    · exact hlater _ (h.noted q hq)
    · exact hlater _ (h.noted q₀ hq₀)
    · rw [heq]
      exact List.mem_cons_self
  · obtain ⟨new, hnew, hrun⟩ := hm.started
    rcases List.mem_append.mp (hnew ▸ hmem) with hmem | hmem
    · exact Or.inl (hrun cmd f hmem)
    -- running, or landed
    rcases h.filed cmd f hmem with ⟨q, hq, rfl, hz⟩ | hfiled
    · rcases hends with ⟨-, hrun⟩ | ⟨pr, hpr, hfs, hrun⟩
      · exact Or.inl ⟨q, hrun q hq hz, rfl, hz⟩
      · rcases hrun q hq hz with rfl | hq'
        · refine Or.inr fun x hx ho => ?_
          rw [hfs]
          rcases h.land hX hgoing hpr hx with ⟨-, hread⟩ | ⟨hne, -⟩
          · exact hread.later hlog
          · exact absurd ho hne
        · exact Or.inl ⟨q, hq', rfl, hz⟩
    · refine Or.inr fun x hx ho => ?_
      rcases hends with ⟨hfs, -⟩ | ⟨pr, hpr, hfs, -⟩
      · rw [hfs]
        exact (hfiled x hx ho).later hlog
      · rw [hfs]
        rcases h.land hX hgoing hpr hx with ⟨-, hread⟩ | ⟨-, -, hdep⟩
        · exact hread.later hlog
        · rw [prerequisites_congr hdep]
          exact (hfiled x hx ho).later hlog
  · have hbefore : ¬ StartedFor w.log x := fun hs => hnone (hs.later hlog)
    obtain ⟨hproduct, hdep⟩ := h.unmade x hx hbefore
    rcases hends with ⟨hfs, -⟩ | ⟨pr, hpr, hfs, -⟩
    · rw [hfs]
      exact ⟨hproduct, hdep⟩
    · rw [hfs]
      rcases h.land hX hgoing hpr hx with ⟨ho, -⟩ | ⟨-, hproduct', hdep'⟩
      · exact absurd ⟨_, _, h.noted pr hpr, ho.symm⟩ hbefore
      · exact ⟨hproduct'.trans hproduct, hdep'.trans hdep⟩

theorem Filed.path (hX : Named X) (hcalm : env.Calm) (htruth : env.Truthful) (hpids : w.PidsOk)
    (hgoing : Going X w) (hp : Path env (making X) w w') (hok : AllOk w'.log) (h : Filed X v w) :
    Filed X v w' := by
  refine And.right (And.right (Moves.keeps (I := fun u => u.PidsOk ∧
    (AllOk u.log → Going X u ∧ Filed X v u)) (fun u u' hm hu => ?_) hp ⟨hpids, fun _ => ⟨hgoing, h⟩⟩) hok)
  obtain ⟨hpids, hu⟩ := hu
  refine ⟨hpids.move hm, fun hok => ?_⟩
  obtain ⟨hgoing, hfiled⟩ := hu (hok.before (.single hm))
  exact ⟨hgoing.move hX hcalm htruth hpids hm hok, hfiled.move hX hcalm hpids hgoing hm⟩

/-- When nothing runs any more, what is listed for a part that was made is what a command has read. -/
theorem Filed.read (h : Filed X v w) (hprocs : w.procs = []) (hx : X x) (hs : StartedFor w.log x) :
    ReadFor w.log x (x.prerequisites w.fs) := by
  obtain ⟨cmd, f, hmem, hout⟩ := hs
  rcases h.filed cmd f hmem with ⟨pr, hpr, -⟩ | hfiled
  · rw [hprocs] at hpr
    exact absurd hpr List.not_mem_nil
  · exact hfiled x hx hout.symm

/-! ### What compiles may read -/

/-- The command makes the part in a run that begins in `v`. -/
def Env.Makes (env : Env) (gs : List Project) (v : World) (x : Part) (cmd : Cmd) : Prop :=
  ∃ p ∈ gs, ∃ c l, pkgConfig env p.pkgdepends = some (c, l) ∧ (x, cmd) ∈ p.plan v v.target (p.flagText c)

/-- What such a command may come to while all files but the products are as in `v`. -/
def Env.Answers (env : Env) (gs : List Project) (v : World) (o : Str) (f : Fate) : Prop :=
  ∃ x cmd k fs, env.Makes gs v x cmd ∧ x.product = o ∧ (∀ t, isProduct t = false → fs t = v.fs t) ∧
    env.fork k cmd fs = some f

/-- A compile that succeeds may read the file. -/
def Env.MayRead (env : Env) (gs : List Project) (v : World) (o t : Str) : Prop :=
  ∃ f, env.Answers gs v o f ∧ f.ok = true ∧ t ∈ f.reads

/-- Commands that make parts of the projects as `compile()` makes them, and outputs. -/
def issuing (env : Env) (gs : List Project) (v : World) : Rules :=
  { making (partsOf gs v v.target) with
    exec := fun cmd => (making (partsOf gs v v.target)).exec cmd ∧
      (World.hasDep cmd.kind = true → ∃ x, env.Makes gs v x cmd ∧ x.product = cmd.out) }

/-- The run has started such commands, each while the sources were as in `v`. -/
structure AnsweredFor (env : Env) (gs : List Project) (v w : World) : Prop where
  near : Near v (fun o => isProduct o = true) w
  answers : ∀ cmd f, (cmd, some f) ∈ launched w.log → ∀ x, partsOf gs v v.target x → x.product = cmd.out →
    env.Answers gs v x.product f

theorem issuing_making (hp : Path env (issuing env gs v) w w') : Path env (making (partsOf gs v v.target)) w w' :=
  Path.widen (R := issuing env gs v) (fun _ hc => hc.1) (fun _ e h => by cases e <;> exact h) hp

theorem AnsweredFor.path (hX : Named (partsOf gs v v.target)) (hcalm : env.Calm)
    (hp : Path env (issuing env gs v) w w') (h : AnsweredFor env gs v w) : AnsweredFor env gs v w' := by
  refine Moves.keeps (I := AnsweredFor env gs v) (fun u u' hm hu => ?_) hp h
  refine ⟨hu.near.path hcalm (making_writing hX (issuing_making (.single hm))), fun cmd f hmem x hx ho => ?_⟩
  rcases hm.launches with heq | ⟨c, hc, heq⟩
  · exact hu.answers cmd f (heq ▸ hmem) x hx ho
  · rcases List.mem_cons.mp (heq ▸ hmem) with hnew | hmem
    · obtain ⟨rfl, hf⟩ := Prod.mk.injEq .. ▸ hnew
      obtain ⟨y, hy, hout⟩ := hc.2 (making_of_part hc.1 hX hx ho.symm)
      exact ⟨y, cmd, _, _, hy, hout.trans ho.symm, fun t ht => hu.near.fs t (by simp [ht]), hf.symm⟩
    · exact hu.answers cmd f hmem x hx ho

/-- `compile()` of a project that has an output, by rules that allow the commands of its plan. -/
theorem path_compile_plan {R : Rules} {c : Str} {l : List Str} (hcalm : env.Calm)
    (hpkg : pkgConfig env p.pkgdepends = some (c, l)) (hnamed : p.outTarget ≠ [] ∧ p.type ≠ .sharedLibrary)
    (hplan : ∀ t ∈ p.plan w w.target (p.flagText c), R.exec t.2)
    (houtput : ∀ cmd, (cmd.kind = .link ∨ cmd.kind = .ar) → cmd.out = p.outPath → R.exec cmd)
    (hskip : ∀ cmd u, R.skip cmd u) (hkept : ∀ cmd u, R.kept cmd u) :
    Path env R (newBuild env w).w (p.compile env gs w).2.w := by
  obtain ⟨mkCmd, hmk, heq⟩ := p.compile_produce hpkg hnamed.1 hnamed.2 gs w
  have hhead : Path env R (newBuild env w).w (p.header env (p.flagText c) w).w :=
    path_header fun h hh => hplan (headerPart w.target h, _)
      (List.mem_append_left _ (List.mem_map_of_mem (Option.mem_toList.mpr hh)))
  have hsources : Path env R (p.header env (p.flagText c) w).w
      (p.after env (p.flagText c) (p.sources env (p.flagText c) w).length w).w := by
    rw [Project.after, List.take_length, p.sources_calm hcalm]
    exact path_compileAll (· ∈ p.fnames w) (fun f hf => hplan (sourcePart w.target f, _)
      (List.mem_append_right _ (List.mem_map_of_mem hf))) (fun _ _ _ _ _ => hskip _ _) _ _ (fun _ h => h)
      (p.header_pchname ..) (p.header_held ..).2
  rw [heq]
  exact (hhead.trans hsources).trans
    (path_produce (houtput _ (hmk.kind _) (hmk.out _)) fun _ _ => hkept _ _)

theorem plan_product {t : Part × Cmd} {target cflags : Str} (ht : t ∈ p.plan v target cflags) :
    t.2.out = t.1.product ∧ World.hasDep t.2.kind = true := by
  rcases List.mem_append.mp ht with ht | ht
  all_goals
    obtain ⟨f, -, rfl⟩ := List.mem_map.mp ht
    exact ⟨rfl, rfl⟩

/-- A build of one of the projects starts such commands. -/
theorem path_issuing (hcalm : env.Calm) (hp : p ∈ gs) (hw : Near v (fun o => isProduct o = true) w)
    (hbuilds : p.Builds env) : Path env (issuing env gs v) (newBuild env w).w (p.compile env gs w).2.w := by
  obtain ⟨⟨c, l, hpkg⟩, hnamed⟩ := hbuilds
  refine path_compile_plan hcalm hpkg hnamed (fun t ht => ?_) (fun cmd hk ho => ?_) (fun _ _ => trivial)
    fun _ _ => trivial
  · have hplan : p.plan w w.target (p.flagText c) = p.plan v v.target (p.flagText c) := by
      rw [hw.target, Project.plan, Project.plan, Project.fnames_glob hw.glob]
    rw [hplan] at ht
    obtain ⟨hout, hd⟩ := plan_product ht
    refine ⟨making_part hd ⟨p, hp, ?_⟩ hout, fun _ => ⟨t.1, ⟨p, hp, c, l, hpkg, ht⟩, hout.symm⟩⟩
    rw [← plan_parts v v.target (p.flagText c) p]
    exact List.mem_map_of_mem ht
  · refine ⟨making_output hk ho, fun hd => ?_⟩
    rcases hk with hk | hk <;> rw [hk] at hd <;> cases hd

/-! ### The order of the stages -/

/-- What the dependency files list and the compiles read for a part is no product, or it belongs to a part of
    an earlier project or, for a source, to the header of its own. -/
def InOrder (env : Env) (gs : List Project) (v : World) : Prop :=
  ∀ k p, gs[k]? = some p → ∀ x ∈ p.parts v v.target, ∀ t,
    t ∈ x.prerequisites v.fs ∨ env.MayRead gs v x.product t → isProduct t = false ∨
      ∃ y, (y ∈ partsBefore gs v k ∨ x.header = false ∧ y ∈ p.headerParts v.target) ∧ t ∈ y.writes

/-- Where the file is made: the stages are the header of the first project, its sources, the header of the
    second one, and so on. -/
def stageOf (v : World) : List Project → Str → ℕ
  | [], _ => 0
  | p :: gs, o =>
    if (p.headerParts v.target).any fun x => decide (x.product = o) then 0
    else if (p.parts v v.target).any fun x => decide (x.product = o) then 1
    else stageOf v gs o + 2

theorem headerPart_mem {target : Str} (hx : x ∈ p.headerParts target) :
    x ∈ p.parts v target ∧ x.header = true := by
  refine ⟨List.mem_append_left _ hx, ?_⟩
  obtain ⟨h, -, rfl⟩ := List.mem_map.mp hx
  rfl

theorem part_header {target : Str} (hx : x ∈ p.parts v target) (hh : x.header = true) :
    x ∈ p.headerParts target := by
  rcases List.mem_append.mp hx with hx | hx
  · exact hx
  · obtain ⟨f, -, rfl⟩ := List.mem_map.mp hx
    cases hh

theorem makes_iff {xs : List Part} {o : Str} :
    (xs.any fun x => decide (x.product = o)) = true ↔ ∃ x ∈ xs, x.product = o := by
  simp

theorem stageOf_header : ∀ {gs : List Project} {k : ℕ}, gs[k]? = some p → x ∈ p.headerParts v.target →
    stageOf v gs x.product ≤ 2 * k
  | [], _, hp, _ => by cases hp
  | q :: gs, 0, hp, hx => by
    obtain rfl : q = p := Option.some.inj hp
    rw [stageOf, if_pos (makes_iff.mpr ⟨x, hx, rfl⟩)]
  | q :: gs, k + 1, hp, hx => by
    have ih : stageOf v gs x.product ≤ 2 * k := stageOf_header hp hx
    rw [stageOf]
    split_ifs <;> omega

theorem stageOf_part : ∀ {gs : List Project} {k : ℕ}, gs[k]? = some p → x ∈ p.parts v v.target →
    stageOf v gs x.product ≤ 2 * k + 1
  | [], _, hp, _ => by cases hp
  | q :: gs, 0, hp, hx => by
    obtain rfl : q = p := Option.some.inj hp
    rw [stageOf, if_pos (c := ((q.parts v v.target).any _) = true) (makes_iff.mpr ⟨x, hx, rfl⟩)]
    split_ifs <;> omega
  | q :: gs, k + 1, hp, hx => by
    have ih : stageOf v gs x.product ≤ 2 * k + 1 := stageOf_part hp hx
    rw [stageOf]
    split_ifs <;> omega

/-- The stage of a part is that of its first project. -/
theorem stageOf_first : ∀ {gs : List Project}, partsOf gs v v.target x → ∃ (k : ℕ) (p : Project),
    gs[k]? = some p ∧ ∃ y ∈ p.parts v v.target, y.product = x.product ∧
      (y.header = true ∧ stageOf v gs x.product = 2 * k ∨
        y.header = false ∧ stageOf v gs x.product = 2 * k + 1)
  | [], ⟨_, hp, _⟩ => absurd hp List.not_mem_nil
  | q :: gs, ⟨p, hp, hx⟩ => by
    rw [stageOf]
    by_cases hheader : ((q.headerParts v.target).any fun y => decide (y.product = x.product)) = true
    · obtain ⟨y, hy, hout⟩ := makes_iff.mp hheader
      obtain ⟨hmem, hh⟩ := headerPart_mem (v := v) hy
      exact ⟨0, q, rfl, y, hmem, hout, Or.inl ⟨hh, by rw [if_pos hheader]⟩⟩
    rw [if_neg hheader]
    by_cases hsource : ((q.parts v v.target).any fun y => decide (y.product = x.product)) = true
    · obtain ⟨y, hy, hout⟩ := makes_iff.mp hsource
      refine ⟨0, q, rfl, y, hy, hout, Or.inr ⟨?_, by rw [if_pos hsource]⟩⟩
      by_contra hh
      exact hheader (makes_iff.mpr ⟨y, part_header hy (by simpa using hh), hout⟩)
    rw [if_neg hsource]
    have hrest : partsOf gs v v.target x := by
      rcases List.mem_cons.mp hp with rfl | hp
      · exact absurd (makes_iff.mpr ⟨x, hx, rfl⟩) hsource
      · exact ⟨p, hp, hx⟩
    obtain ⟨k, p, hp, y, hy, hout, hstage⟩ := stageOf_first hrest
    exact ⟨k + 1, p, hp, y, hy, hout, hstage.imp (fun h => ⟨h.1, by omega⟩) fun h => ⟨h.1, by omega⟩⟩

/-- Two parts with one product are one. -/
theorem part_ext (hX : Named (partsOf gs v v.target)) (hx : partsOf gs v v.target x)
    (hy : partsOf gs v v.target y) (ho : y.product = x.product) : y = x := by
  have hdep : y.dep = x.dep := by rw [hX.dep y hy, hX.dep x hx, ho]
  have hheader : y.header = x.header := by
    obtain ⟨p, -, hx⟩ := hx
    obtain ⟨q, -, hy⟩ := hy
    rcases part_cases hx with ⟨h, -, rfl⟩ | ⟨f, -, rfl⟩ <;> rcases part_cases hy with ⟨h', -, rfl⟩ | ⟨f', -, rfl⟩
    · rfl
    · exact absurd ho (mkobjname_ne_mkpchname _ _ _ _)
    · exact absurd ho.symm (mkobjname_ne_mkpchname _ _ _ _)
    · rfl
  cases x
  cases y
  simp_all

/-- A part belongs to the project its stage names. -/
theorem stageOf_spec (hX : Named (partsOf gs v v.target)) (hx : partsOf gs v v.target x) :
    ∃ (k : ℕ) (p : Project), gs[k]? = some p ∧ x ∈ p.parts v v.target ∧
      (x.header = true ∧ stageOf v gs x.product = 2 * k ∨
        x.header = false ∧ stageOf v gs x.product = 2 * k + 1) := by
  obtain ⟨k, p, hp, y, hy, ho, hstage⟩ := stageOf_first hx
  obtain rfl := part_ext hX hx ⟨p, List.mem_of_getElem? hp, hy⟩ ho
  exact ⟨k, p, hp, hy, hstage⟩

theorem stageOf_before (hx : x ∈ partsBefore gs v k) : stageOf v gs x.product < 2 * k := by
  obtain ⟨j, hj, p, hp, hx⟩ := mem_partsBefore.mp hx
  have hle := stageOf_part hp hx
  omega

/-- The order of the projects is an order of levels. -/
theorem InOrder.steady (hX : Named (partsOf gs v v.target)) (h : InOrder env gs v)
    (hx : partsOf gs v v.target x) {t : Str}
    (ht : t ∈ x.prerequisites v.fs ∨ env.MayRead gs v x.product t) :
    Steady (partsOf gs v v.target) (stageOf v gs) (stageOf v gs x.product) t := by
  obtain ⟨k, p, hp, hmem, hstage⟩ := stageOf_spec hX hx
  refine (h k p hp x hmem t ht).imp_right ?_
  rintro ⟨y, hy, hwrites⟩
  have hlt : partsOf gs v v.target y ∧ stageOf v gs y.product < stageOf v gs x.product := by
    rcases hy with hy | ⟨hh, hy⟩
    · have hlt := stageOf_before hy
      exact ⟨partsOf_before hy, by omega⟩
    · have hle := stageOf_header hp hy
      refine ⟨⟨p, List.mem_of_getElem? hp, (headerPart_mem hy).1⟩, ?_⟩
      rcases hstage with ⟨hh', -⟩ | ⟨-, heq⟩
      · rw [hh] at hh'
        cases hh'
      · omega
  obtain ⟨hy, hlt⟩ := hlt
  refine ⟨y, hy, hlt, ?_⟩
  rw [hX.dep y hy]
  simpa [Part.writes] using hwrites

/-! ### The header of a project -/

/-- A run that begins in `v`, and the outside it runs in. -/
structure Orderly (env : Env) (gs : List Project) (v : World) : Prop where
  named : Named (partsOf gs v v.target)
  calm : env.Calm
  forks : env.Forks
  truthful : env.Truthful
  order : InOrder env gs v
  plain : v.rebuild = false

/-- `newest_time` has seen what is listed for the part, or a command that makes it has been started. -/
def SeenOrMade (w : World) (x : Part) : Prop :=
  StartedFor w.log x ∨ ∀ t ∈ x.prerequisites w.fs, mtimeOf w.fs t ≤ w.newestTime

/-- After `k` builds that have returned true: the first `2 * k` stages are current. -/
structure Staged (env : Env) (gs : List Project) (v : World) (k : ℕ) (w : World) : Prop where
  landing : Landing (partsOf gs v v.target) w
  time : ∀ o, mtimeOf w.fs o ≤ sec w.clock
  lists : ListsBelow (partsOf gs v v.target) (stageOf v gs) w.fs
  ripe : Ripe (partsOf gs v v.target) (stageOf v gs) (2 * k) w
  answered : AnsweredFor env gs v w
  filed : Filed (partsOf gs v v.target) v w
  seen : ∀ x ∈ partsBefore gs v k, SeenOrMade w x

/-- The sources are next, and the header is one more stage that is current. -/
structure Headed (env : Env) (gs : List Project) (v : World) (k : ℕ) (p : Project) (w u : World) : Prop where
  ripened : Ripened (partsOf gs v v.target) (stageOf v gs) (2 * k) w w u
  ground : Ground env (partsOf gs v v.target) (stageOf v gs) (2 * k + 1) u
  base : Ripening (partsOf gs v v.target) (stageOf v gs) (2 * k + 1) u u
  seen : ∀ x ∈ p.headerParts v.target, SeenOrMade u x

theorem AnsweredFor.told (ho : Orderly env gs v) (h : AnsweredFor env gs v w) (hok : AllOk w.log) :
    ReadsBelow (partsOf gs v v.target) (stageOf v gs) w.log :=
  fun cmd f hmem x hx hout _ ht =>
    ho.order.steady ho.named hx (Or.inr ⟨f, h.answers cmd f hmem x hx hout, hok _ hmem, ht⟩)

theorem Looked.seenOrMade (h : Looked w w' x) : SeenOrMade w' x := by
  rcases h with ⟨-, hseen⟩ | ⟨cmd, f, ⟨new, hnew, hmem⟩, ho⟩
  · exact Or.inr hseen
  · exact Or.inl ⟨cmd, f, by rw [hnew]; exact List.mem_append_left _ hmem, ho⟩

theorem Staged.parts (h : Staged env gs v k w) (hp : gs[k]? = some p) :
    p.parts w w.target = p.parts v v.target ∧ ∀ x ∈ p.parts v v.target, partsOf gs v v.target x := by
  refine ⟨?_, fun x hx => ⟨p, List.mem_of_getElem? hp, hx⟩⟩
  rw [h.answered.near.target]
  exact Project.parts_glob h.answered.near.glob _ p

/-- A part of the stages below `2 * k + 1` is of the stages below `2 * k`, or it is the header of project `k`. -/
theorem below_header (hX : Named (partsOf gs v v.target)) (hp : gs[k]? = some p)
    (hx : partsOf gs v v.target x) (hlt : stageOf v gs x.product < 2 * k + 1) :
    stageOf v gs x.product < 2 * k ∨ x ∈ p.headerParts v.target := by
  obtain ⟨j, q, hq, hmem, ⟨hh, hstage⟩ | ⟨-, hstage⟩⟩ := stageOf_spec hX hx
  · by_cases hj : j = k
    · subst hj
      obtain rfl : q = p := Option.some.inj (hq.symm.trans hp)
      exact Or.inr (part_header hmem hh)
    · left
      omega
  · left
    omega

theorem Staged.ground (ho : Orderly env gs v) (h : Staged env gs v k w) :
    Ground env (partsOf gs v v.target) (stageOf v gs) (2 * k) w ∧
      Ripening (partsOf gs v v.target) (stageOf v gs) (2 * k) w w :=
  ⟨⟨ho.named, ho.calm, ho.forks, ho.truthful, h.lists, h.ripe, Or.inl (h.answered.near.rebuild.trans ho.plain)⟩,
    .refl h.landing.alone.procs h.landing.going h.time h.lists (h.answered.told ho h.landing.ok)⟩

/-- When the header of project `k` has been made or found current. -/
theorem Staged.header (ho : Orderly env gs v) (hp : gs[k]? = some p) (h : Staged env gs v k w) (cflags : Str)
    (hok : AllOk (p.header env cflags w).w.log)
    (htold : ReadsBelow (partsOf gs v v.target) (stageOf v gs) (p.header env cflags w).w.log) :
    Headed env gs v k p w (p.header env cflags w).w := by
  obtain ⟨hground, hbase⟩ := h.ground ho
  obtain ⟨hparts, hX⟩ := h.parts hp
  obtain ⟨hhead, hlooked⟩ := hground.header (p := p) cflags (by rw [hparts]; exact hX) hbase.near
  rw [h.answered.near.target] at hlooked
  have hnew : Ripening (partsOf gs v v.target) (stageOf v gs) (2 * k) w (newBuild env w).w := hbase.say rfl
  have hripened := Ripened.path ho.named ho.calm ho.truthful hhead hnew hok htold
  have hprocs : (p.header env cflags w).w.procs = [] := (h.landing.alone.header p cflags).procs
  have hwent := Went.path ho.named ho.calm ho.truthful hnew.near.pids (maturing_making hhead) hnew.going hok
  have hmk : (p.header env cflags w).w.makefileTime = w.makefileTime := hripened.ripening.near.makefileTime
  have hgoing := hripened.ripening.going
  have hripe : Ripe (partsOf gs v v.target) (stageOf v gs) (2 * k + 1) (p.header env cflags w).w := by
    intro x hx hlt
    rcases below_header ho.named hp hx hlt with hlow | hheader
    · have hcurrent := h.ripe x hx hlow
      refine ⟨?_, hripened.newer x hx hlow.le hcurrent.newer⟩
      rw [hmk]
      exact hwent.lasts.complete x hx hcurrent.complete
    · refine ⟨?_, ?_⟩
      · refine (header_met ho.forks cflags (h.answered.near.target ▸ hheader)).complete hx
          ⟨hgoing, .refl _⟩ rfl hprocs fun e he => ?_
        rw [launched_build (fun hb => hb) (maturing_making hhead)]
        exact List.mem_append_left _ he
      · exact (Toured.last hhead hlooked).newer ho.named ho.calm ho.truthful hnew hok htold hprocs hheader hx
          (stageOf_header hp hheader)
  exact ⟨⟨hripened.ripening, hripened.newer, hripened.notOlder⟩,
    ⟨ho.named, ho.calm, ho.forks, ho.truthful, hripened.ripening.lists, hripe,
      Or.inl ((hripened.ripening.near.rebuild.trans h.answered.near.rebuild).trans ho.plain)⟩,
    .refl hprocs hgoing hripened.ripening.time hripened.ripening.lists htold,
    fun x hx => (hlooked x hx).seenOrMade⟩

/-! ### A build -/

/-- What `newest_time` has seen it has seen, as long as the steady files are as they were. -/
theorem SeenOrMade.later {level : Str → ℕ} {m : ℕ} (hf : Filed X v w) (hf' : Filed X v w')
    (hp : Path env (making X) w w') (hlists : ListsBelow X level w.fs) (hx : X x) (hm : level x.product ≤ m)
    (hfs : ∀ t, Steady X level m t → w'.fs t = w.fs t) (h : SeenOrMade w x) : SeenOrMade w' x := by
  rcases h with hstarted | hseen
  · exact Or.inl (hstarted.later hp.launched)
  by_cases hstarted : StartedFor w'.log x
  · exact Or.inl hstarted
  have hbefore : ¬ StartedFor w.log x := fun hs => hstarted (hs.later hp.launched)
  have hdep : w'.fs x.dep = w.fs x.dep := ((hf'.unmade x hx hstarted).2).trans (hf.unmade x hx hbefore).2.symm
  refine Or.inr fun t ht => ?_
  rw [prerequisites_congr hdep] at ht
  rw [mtimeOf_congr (hfs t ((hlists x hx t ht).mono hm))]
  exact (hseen t ht).trans hp.later.newestTime

/-- The build of project `k`: its header, its sources one after the other, and where it ends. -/
structure Underway (env : Env) (gs : List Project) (v : World) (k : ℕ) (p : Project) (w u t : World) : Prop where
  headed : Headed env gs v k p w u
  before : Path env (making (partsOf gs v v.target)) (newBuild env w).w u
  path : Path env (maturing (partsOf gs v v.target) (stageOf v gs) (2 * k + 1)) u t
  tour : Toured env (partsOf gs v v.target) (stageOf v gs) (2 * k + 1) ((p.fnames v).map (sourcePart v.target)) u t
  landing : Landing (partsOf gs v v.target) t
  answered : AnsweredFor env gs v t
  complete : ∀ x ∈ p.parts v v.target, Complete t.fs v.makefileTime x

theorem Staged.compile (ho : Orderly env gs v) (hp : gs[k]? = some p) (h : Staged env gs v k w) {t : St}
    (htrue : p.compile env gs w = (true, t)) {c : Str} {l : List Str}
    (hpkg : pkgConfig env p.pkgdepends = some (c, l)) :
    Underway env gs v k p w (p.header env (p.flagText c) w).w t.w := by
  obtain ⟨hparts, hX⟩ := h.parts hp
  have hX' : ∀ x ∈ p.parts w w.target, partsOf gs v v.target x := by rw [hparts]; exact hX
  obtain ⟨hland, -, hcomplete, -⟩ := h.landing.compile ho.named ho.forks ho.calm ho.truthful hX' htrue
  rw [hparts, h.answered.near.makefileTime] at hcomplete
  have hissue := path_issuing ho.calm (List.mem_of_getElem? hp) h.answered.near (compile_builds htrue)
  rw [htrue] at hissue
  have hanswered : AnsweredFor env gs v t.w :=
    AnsweredFor.path ho.named ho.calm hissue ⟨h.answered.near.say _, h.answered.answers⟩
  -- the way from the header on
  obtain ⟨-, hout, htype⟩ := compile_builds htrue
  have hrest : Path env (making (partsOf gs v v.target)) (p.header env (p.flagText c) w).w t.w := by
    have houtput := path_output_making (partsOf gs v v.target) hpkg hout htype gs (w := w)
    rw [htrue] at houtput
    exact (path_after_making ho.calm hX' _).trans houtput
  have hheaded := h.header ho hp (p.flagText c) (hland.ok.before hrest)
    ((hanswered.told ho hland.ok).before hrest.launched)
  have hnear := hheaded.ripened.ripening.near
  have htarget : (p.header env (p.flagText c) w).w.target = v.target := hnear.target.trans h.answered.near.target
  have hglob : (p.header env (p.flagText c) w).w.glob = v.glob := hnear.glob.trans h.answered.near.glob
  obtain ⟨hsources, htour⟩ := hheaded.ground.sources (p.flagText c) (w := w)
    (by rw [htarget, Project.parts_glob hglob]; exact hX) hheaded.base.near
  rw [htarget, Project.fnames_glob hglob] at htour
  have hlast := hheaded.ground.output_path htrue hpkg
  refine ⟨hheaded, path_header_making hX' _, hsources.trans hlast, fun x hx => ?_, hland, hanswered, hcomplete⟩
  obtain ⟨z, hz, hzt, hlooked⟩ := htour x hx
  exact ⟨z, hz, hzt.trans hlast, hlooked⟩

variable {u t : World}

namespace Underway

/-- Up to any state on the way from the header on. -/
theorem ripened (ho : Orderly env gs v) (h : Underway env gs v k p w u t) {z : World}
    (hz : Path env (maturing (partsOf gs v v.target) (stageOf v gs) (2 * k + 1)) u z)
    (hzt : Path env (maturing (partsOf gs v v.target) (stageOf v gs) (2 * k + 1)) z t) :
    Ripened (partsOf gs v v.target) (stageOf v gs) (2 * k + 1) u u z :=
  .path ho.named ho.calm ho.truthful hz h.headed.base (h.landing.ok.before hzt)
    ((h.answered.told ho h.landing.ok).before hzt.launched)

/-- What is filed in any state on the way. -/
theorem filed (ho : Orderly env gs v) (hw : Staged env gs v k w) (h : Underway env gs v k p w u t) {z : World}
    (hz : Path env (making (partsOf gs v v.target)) (newBuild env w).w z)
    (hzt : Path env (making (partsOf gs v v.target)) z t) : Filed (partsOf gs v v.target) v z :=
  Filed.path ho.named ho.calm ho.truthful (w := (newBuild env w).w) (hw.answered.near.say _).pids
    ⟨hw.landing.going.time, hw.landing.going.able, hw.landing.going.done⟩ hz (h.landing.ok.before hzt)
    ⟨hw.filed.noted, hw.filed.filed, hw.filed.unmade⟩

theorem newer (ho : Orderly env gs v) (hp : gs[k]? = some p) (h : Underway env gs v k p w u t)
    (hx : x ∈ p.parts v v.target) (hh : x.header = false) : x.Newer t.fs := by
  have hsource : x ∈ (p.fnames v).map (sourcePart v.target) := by
    refine (List.mem_append.mp hx).resolve_left fun hhead => ?_
    rw [(headerPart_mem (v := v) hhead).2] at hh
    cases hh
  exact h.tour.newer ho.named ho.calm ho.truthful h.headed.base h.landing.ok (h.answered.told ho h.landing.ok)
    h.landing.alone.procs hsource ⟨p, List.mem_of_getElem? hp, hx⟩ (stageOf_part hp hx)

/-- The parts of the project and of those before have been seen or made. -/
theorem seen (ho : Orderly env gs v) (hp : gs[k]? = some p) (hw : Staged env gs v k w)
    (h : Underway env gs v k p w u t) : ∀ x ∈ partsBefore gs v (k + 1), SeenOrMade t x := by
  intro x hx
  have hX := partsOf_before hx
  have hmaking := maturing_making h.path
  have hend := h.filed ho hw (h.before.trans hmaking) .refl
  have hbase := h.headed.base
  rw [partsBefore_succ hp, Project.parts, ← Project.headerParts, List.mem_append, List.mem_append] at hx
  rcases hx with hx | hx | hx
  · -- of an earlier project
    refine SeenOrMade.later (w := (newBuild env w).w) ⟨hw.filed.noted, hw.filed.filed, hw.filed.unmade⟩ hend
      (h.before.trans hmaking) hw.lists hX (stageOf_before hx).le (fun t ht => ?_) (hw.seen x hx)
    exact ((h.ripened ho h.path .refl).ripening.steady (ht.mono (Nat.le_succ _))).trans
      (h.headed.ripened.ripening.steady ht)
  · have hle := (stageOf_header (v := v) hp hx).trans (Nat.le_succ _)
    exact SeenOrMade.later (h.filed ho hw h.before hmaking) hend hmaking hbase.lists hX hle
      (fun t ht => (h.ripened ho h.path .refl).ripening.steady ht) (h.headed.seen x hx)
  · obtain ⟨z, hz, hzt, hlooked⟩ := h.tour x hx
    have hmid := (h.ripened ho hz hzt).ripening
    have hle := stageOf_part hp (x := x) (List.mem_append_right _ hx)
    exact SeenOrMade.later (h.filed ho hw (h.before.trans (maturing_making hz)) (maturing_making hzt)) hend
      (maturing_making hzt) hmid.lists hX hle
      (fun t ht => ((h.ripened ho h.path .refl).ripening.steady ht).trans (hmid.steady ht).symm)
      hlooked.seenOrMade

end Underway

/-- A build that has returned true. -/
structure Built (env : Env) (gs : List Project) (v : World) (k : ℕ) (p : Project) (w u t : World) : Prop
    extends Underway env gs v k p w u t where
  ripened : Ripened (partsOf gs v v.target) (stageOf v gs) (2 * k + 1) u u t
  filed : Filed (partsOf gs v v.target) v t
  newer : ∀ x ∈ p.parts v v.target, x.header = false → x.Newer t.fs
  seen : ∀ x ∈ partsBefore gs v (k + 1), SeenOrMade t x

theorem Underway.built (ho : Orderly env gs v) (hp : gs[k]? = some p) (hw : Staged env gs v k w)
    (h : Underway env gs v k p w u t) : Built env gs v k p w u t :=
  ⟨h, h.ripened ho h.path .refl, h.filed ho hw (h.before.trans (maturing_making h.path)) .refl,
    fun _ => h.newer ho hp, h.seen ho hp hw⟩

/-- After the build two more stages are current. -/
theorem Built.staged (ho : Orderly env gs v) (hp : gs[k]? = some p)
    (h : Built env gs v k p w u t) : Staged env gs v (k + 1) t := by
  have hX := ho.named
  have hend := h.ripened.ripening
  have hmk : t.makefileTime = v.makefileTime := h.answered.near.makefileTime
  have hwent := Went.path hX ho.calm ho.truthful h.headed.base.near.pids (maturing_making h.path)
    h.headed.base.going h.landing.ok
  refine ⟨h.landing, hend.time, hend.lists, fun x hx hlt => ?_, h.answered, h.filed, h.seen⟩
  by_cases hlow : stageOf v gs x.product < 2 * k + 1
  · have hcurrent := h.headed.ground.ripe x hx hlow
    refine ⟨?_, h.ripened.newer x hx hlow.le hcurrent.newer⟩
    rw [hend.near.makefileTime]
    exact hwent.lasts.complete x hx hcurrent.complete
  · obtain ⟨j, q, hq, hmem, hstage⟩ := stageOf_spec hX hx
    obtain ⟨hh, rfl⟩ : x.header = false ∧ j = k := by
      rcases hstage with ⟨-, hstage⟩ | ⟨hh, hstage⟩
      · omega
      · exact ⟨hh, by omega⟩
    obtain rfl : q = p := Option.some.inj (hq.symm.trans hp)
    exact ⟨hmk ▸ h.complete x hmem, h.newer x hmem hh⟩

/-- The note that a build has returned. -/
theorem Staged.leave (h : Staged env gs v k w) (i : ℕ) (b : Bool) : Staged env gs v k (w.say (.leave i b)) := by
  obtain ⟨⟨⟨hpids, hprocs⟩, ⟨htime, hable, hdone⟩, hok⟩, hclock, hlists, hripe, ⟨hnear, hanswers⟩,
    ⟨hnoted, hfiled, hunmade⟩, hseen⟩ := h
  exact ⟨⟨⟨⟨hpids.nodup, hpids.bound⟩, hprocs⟩, ⟨htime, hable, hdone⟩, hok⟩, hclock, hlists, hripe,
    ⟨hnear.say _, hanswers⟩, ⟨hnoted, hfiled, hunmade⟩, hseen⟩

end Cake
