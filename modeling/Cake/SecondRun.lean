import Cake.FirstRun

/-! A second run with nothing changed.

    In a world where nobody moves, a build that starts nothing changes nothing but `newest_time` and
    the log. It starts nothing exactly when each of its parts is complete and not older than what its
    dependency file lists, and its output is not older than the makefile and than everything listed
    for the parts up to it, those of earlier projects included.

        part ── current ──▶ skipped, newest_time covers its list ──▶ next part
             └─ else ─────▶ a command is started -/

namespace Cake

variable {env : Env} {gs : List Project} {p : Project} {v w : World} {s t : St} {fs : FS} {x : Part}
  {xs ys : List Part} {mk n : ℕ}

/-! ### Parts that are current -/

/-- The files the dependency file of the part lists. -/
def Part.prerequisites (fs : FS) (x : Part) : List Str := (listed fs x.dep).getD []

/-- The part is complete and not older than a file its dependency file lists. -/
structure Part.Current (fs : FS) (mk : ℕ) (x : Part) : Prop where
  complete : Complete fs mk x
  newer : ∀ t ∈ x.prerequisites fs, mtimeOf fs t ≤ mtimeOf fs x.product

/-- `newest_time` after the prerequisites of the parts have been seen. -/
def newestAfter (fs : FS) (n : ℕ) (xs : List Part) : ℕ :=
  (xs.flatMap (Part.prerequisites fs)).foldl (fun n t => max n (mtimeOf fs t)) n

theorem newestAfter_append (fs : FS) (n : ℕ) (xs ys : List Part) :
    newestAfter fs n (xs ++ ys) = newestAfter fs (newestAfter fs n xs) ys := by
  rw [newestAfter, List.flatMap_append, List.foldl_append]
  rfl

theorem mtimeOf_some {o : Str} {f : File} (h : fs o = some f) : mtimeOf fs o = f.mtime := by
  rw [mtimeOf, h]
  rfl

/-- A file that is there and not newer than the part. -/
theorem passes_iff {o t : Str} :
    Passes fs mk o t ↔ Dated fs mk o ∧ (fs t).isSome = true ∧ mtimeOf fs t ≤ mtimeOf fs o := by
  constructor
  · rintro ⟨f, g, ho, ht, hmk, hle⟩
    refine ⟨⟨f, ho, hmk⟩, by rw [ht]; rfl, ?_⟩
    rw [mtimeOf_some ho, mtimeOf_some ht]
    exact hle
  · rintro ⟨⟨f, ho, hmk⟩, ht, hle⟩
    obtain ⟨g, hg⟩ := Option.isSome_iff_exists.mp ht
    rw [mtimeOf_some ho, mtimeOf_some hg] at hle
    exact ⟨f, g, ho, hg, hmk, hle⟩

theorem current_iff : x.Current fs mk ↔ (x.header = true → (fs x.product).isSome = true) ∧
    ∃ tokens, listed fs x.dep = some tokens ∧ ∀ t ∈ tokens, Passes fs mk x.product t := by
  constructor
  · rintro ⟨⟨hpres, tokens, hl, hex, hdated⟩, hle⟩
    rw [Part.prerequisites, hl] at hle
    refine ⟨hpres, tokens, hl, fun t ht => passes_iff.mpr ⟨hdated fun hnil => ?_, hex t ht, hle t ht⟩⟩
    rw [hnil] at ht
    exact absurd ht List.not_mem_nil
  · rintro ⟨hpres, tokens, hl, hpass⟩
    have hall := fun t ht => passes_iff.mp (hpass t ht)
    refine ⟨⟨hpres, tokens, hl, fun t ht => (hall t ht).2.1, fun hne => ?_⟩, fun t ht => ?_⟩
    · obtain ⟨t, ht⟩ := List.exists_mem_of_ne_nil _ hne
      exact (hall t ht).1
    · rw [Part.prerequisites, hl] at ht
      exact (hall t ht).2.2

/-- `needs_rebuild` lets a part be that is current, and then it has seen its prerequisites. -/
theorem needsRebuild_part {m : ℕ} (hpres : x.header = true → (fs x.product).isSome = true) :
    needsRebuild false fs mk n x.dep x.product = (false, m) ↔
      x.Current fs mk ∧ m = newestAfter fs n [x] := by
  rw [needsRebuild_false, current_iff, newestAfter, List.flatMap_singleton, Part.prerequisites]
  constructor
  · rintro ⟨-, tokens, hl, hpass, rfl⟩
    exact ⟨⟨hpres, tokens, hl, hpass⟩, by rw [hl]; rfl⟩
  · rintro ⟨⟨-, tokens, hl, hpass⟩, rfl⟩
    exact ⟨rfl, tokens, hl, hpass, by rw [hl]; rfl⟩

/-! ### A world where nobody moves -/

/-- The world `v`, some time later. -/
structure Still (v : World) (n : ℕ) (w : World) : Prop where
  fs : w.fs = v.fs
  glob : w.glob = v.glob
  target : w.target = v.target
  makefileTime : w.makefileTime = v.makefileTime
  rebuild : w.rebuild = v.rebuild
  newestTime : w.newestTime = n
  procs : w.procs = []

theorem Still.refl (h : w.procs = []) : Still w w.newestTime w := ⟨rfl, rfl, rfl, rfl, rfl, rfl, h⟩

theorem finish_nobody (h : w.procs = []) (pid : ℕ) : w.finish pid = w := by
  rw [World.finish, h]
  rfl

theorem Still.act {a : Act} (ha : a.Calm) (h : Still v n w) : Still v n (w.act a) := by
  cases a with
  | tick d => exact ⟨h.fs, h.glob, h.target, h.makefileTime, h.rebuild, h.newestTime, h.procs⟩
  | exit pid =>
    rw [World.act, finish_nobody h.procs]
    exact h
  | edit p data => exact ha.elim
  | restore p f => exact ha.elim
  | relist g => exact ha.elim

theorem Still.acts (as : List Act) {w : World} (has : ∀ a ∈ as, a.Calm) (h : Still v n w) :
    Still v n (as.foldl World.act w) := by
  induction as generalizing w with
  | nil => exact h
  | cons a as ih =>
    obtain ⟨ha, has⟩ := List.forall_mem_cons.mp has
    exact ih has (h.act ha)

theorem Still.yield (hcalm : env.Calm) (h : Still v n w) : Still v n (w.yield env) :=
  Still.acts _ (hcalm _)
    ⟨h.fs, h.glob, h.target, h.makefileTime, h.rebuild, h.newestTime, h.procs⟩

theorem Still.say (h : Still v n w) (e : Ev) : Still v n (w.say e) :=
  ⟨h.fs, h.glob, h.target, h.makefileTime, h.rebuild, h.newestTime, h.procs⟩

theorem Still.newest (h : Still v n w) (m : ℕ) : Still v m { w with newestTime := m } :=
  ⟨h.fs, h.glob, h.target, h.makefileTime, h.rebuild, rfl, h.procs⟩

/-! ### A build that has started nothing -/

/-- Nothing was started, so nothing is counted but skips. -/
structure Resting (v : World) (n : ℕ) (s : St) : Prop where
  rebuild : v.rebuild = false
  still : Still v n s.w
  execs : execs s.w.log = []
  staffed : s.b.jobs ≠ []
  idle : ∀ j ∈ s.b.jobs, j.cmd.isActive = false
  failed : s.b.nfailed = 0
  skipped : s.b.linklist.length = s.b.nskipped

theorem Resting.newBuild (hr : v.rebuild = false) (h : Still v n w) : Resting v n (newBuild env w) where
  rebuild := hr
  still := h.say _
  execs := rfl
  staffed := newBuild_ne_nil env w
  idle := newBuild_idle env w
  failed := rfl
  skipped := rfl

/-- What a step of the build does with the parts it comes to: it starts nothing exactly when all of
    them are current, and then the build is still resting. -/
structure Passing (v : World) (n : ℕ) (xs : List Part) (t : St) : Prop where
  rests : (∀ x ∈ xs, x.Current v.fs v.makefileTime) → Resting v (newestAfter v.fs n xs) t
  starts : execs t.w.log = [] → ∀ x ∈ xs, x.Current v.fs v.makefileTime

theorem Resting.passing (h : Resting v n s) : Passing v n [] s :=
  ⟨fun _ => h, fun _ _ hx => absurd hx List.not_mem_nil⟩

/-- One step after another. -/
theorem Passing.append (h : Passing v n xs s) (hback : execs t.w.log = [] → execs s.w.log = [])
    (hnext : ∀ {m}, Resting v m s → Passing v m ys t) : Passing v n (xs ++ ys) t := by
  constructor
  · intro hall
    obtain ⟨hxs, hys⟩ := List.forall_mem_append.mp hall
    rw [newestAfter_append]
    exact (hnext (h.rests hxs)).rests hys
  · intro hnone
    have hxs := h.starts (hback hnone)
    exact List.forall_mem_append.mpr ⟨hxs, (hnext (h.rests hxs)).starts hnone⟩

theorem Passing.current (hx : x.Current v.fs v.makefileTime)
    (h : Resting v (newestAfter v.fs n [x]) t) : Passing v n [x] t :=
  ⟨fun _ => h, fun _ _ hy => List.mem_singleton.mp hy ▸ hx⟩

theorem Passing.started (hx : ¬ x.Current v.fs v.makefileTime) (h : execs t.w.log ≠ []) :
    Passing v n [x] t :=
  ⟨fun hall => absurd (hall x (List.mem_singleton_self x)) hx, fun hnone => absurd hnone h⟩

theorem ForkLog.started {cmd : Cmd} (h : ForkLog env cmd w v) : Cake.execs v.log ≠ [] := by
  obtain ⟨fs, he⟩ := h.execs
  rw [he]
  exact List.cons_ne_nil _ _

/-- What has been started stays in the log of the build. -/
theorem path_unstarted (hp : Path env building w v) : execs v.log = [] → execs w.log = [] :=
  Moves.compares (S := fun (w v : World) => execs v.log = [] → execs w.log = []) (fun _ h => h)
    (fun _ _ _ h k hn => h (k hn)) (fun u u' hm hn => by
      rcases hm.log_cases with heq | ⟨e, heq, he⟩
      · rwa [heq] at hn
      · rw [heq] at hn
        cases e with
        | run v => exact he.elim
        | build v => exact he.2.elim
        | exec cmd fate => exact absurd hn (List.cons_ne_nil _ _)
        | _ => exact hn) hp

theorem buildPch_started (env : Env) (cmd : Cmd) (s : St) : execs (buildPch env cmd s).w.log ≠ [] :=
  (buildPch_log env cmd s).started

theorem settle_started (env : Env) (cmd : Cmd) (s : St) (hne : s.b.jobs ≠ []) :
    execs (settle env true cmd s).w.log ≠ [] :=
  (addCompileJob_log env cmd s hne).started

/-- The state after `needs_rebuild` has looked at one more part. -/
theorem Resting.seen (hcalm : env.Calm) (h : Resting v n s) (b : Build) (hb : b.jobs = s.b.jobs)
    (hn : b.nfailed = s.b.nfailed) (hl : b.linklist.length = b.nskipped) (m : ℕ) :
    Resting v m ⟨b, { s.w.yield env with newestTime := m }⟩ where
  rebuild := h.rebuild
  still := (h.still.yield hcalm).newest m
  execs := (World.same_yield env s.w).log.execs.trans h.execs
  staffed := by rw [hb]; exact h.staffed
  idle := by rw [hb]; exact h.idle
  failed := hn.trans h.failed
  skipped := hl

theorem Resting.makePch (hcalm : env.Calm) (pch cflags : Str) (cpp : Bool) (h : Resting v n s) :
    Passing v n [headerPart v.target pch] (makePch env pch cflags cpp s) := by
  have hy := h.still.yield hcalm
  rw [Cake.makePch]
  dsimp only
  split
  · rename_i hex
    rw [hy.fs, h.still.target] at hex
    have hpres : (headerPart v.target pch).header = true →
        (v.fs (headerPart v.target pch).product).isSome = true := fun _ => hex
    rcases hr : needsRebuild _ _ _ _ _ _ with ⟨_ | _, m⟩
    all_goals rw [hy.fs, hy.target, hy.rebuild, h.rebuild, hy.makefileTime, hy.newestTime, h.still.target] at hr
    · obtain ⟨hx, rfl⟩ := (needsRebuild_part hpres).mp hr
      exact .current hx (h.seen hcalm { s.b with pchname := mkpchname _ pch } rfl rfl h.skipped _)
    · refine .started (fun hx => ?_) (buildPch_started env _ _)
      have hstand := hr.symm.trans ((needsRebuild_part hpres).mpr ⟨hx, rfl⟩)
      cases hstand
  · rename_i hex
    rw [hy.fs, h.still.target] at hex
    exact .started (fun hx => hex (hx.complete.present rfl)) (buildPch_started env _ _)

theorem Resting.doCompile (hcalm : env.Calm) (cflags fname : Str) (h : Resting v n s) :
    Passing v n [sourcePart v.target fname] (doCompile env cflags fname s) := by
  have hy := h.still.yield hcalm
  have hpres : (sourcePart v.target fname).header = true →
      (v.fs (sourcePart v.target fname).product).isSome = true := fun hh => by cases hh
  rw [Cake.doCompile]
  dsimp only [countSource, compileCmd]
  rcases hr : needsRebuild _ _ _ _ _ _ with ⟨_ | _, m⟩
  all_goals rw [hy.fs, hy.target, hy.rebuild, h.rebuild, hy.makefileTime, hy.newestTime] at hr
  · obtain ⟨hx, rfl⟩ := (needsRebuild_part hpres).mp hr
    obtain ⟨hr, hstill, hexecs, hstaffed, hidle, hfailed, hskipped⟩ := h.seen hcalm s.b rfl rfl h.skipped _
    exact .current hx ⟨hr, hstill.say _, hexecs, hstaffed, hidle, hfailed, by simp [settle, hskipped]⟩
  · refine .started (fun hx => ?_) (settle_started env _ _ h.staffed)
    have hstand := hr.symm.trans ((needsRebuild_part hpres).mpr ⟨hx, rfl⟩)
    cases hstand

theorem Resting.compileAll (hcalm : env.Calm) (cflags : Str) (fs : List Str) {n : ℕ} {s : St}
    (h : Resting v n s) : Passing v n (fs.map (sourcePart v.target)) (compileAll env cflags fs s) := by
  induction fs generalizing n s with
  | nil => exact h.passing
  | cons f fs ih =>
    have hrest : Path env building (Cake.doCompile env cflags f s).w
        (Cake.compileAll env cflags fs (Cake.doCompile env cflags f s)).w :=
      path_compileAll (fun _ => True) (fun _ _ => trivial) (fun _ _ _ _ _ => trivial) fs _
        (fun _ _ => trivial) rfl rfl
    have hstep : Passing v n [sourcePart v.target f] (Cake.doCompile env cflags f s) :=
      h.doCompile hcalm cflags f
    exact hstep.append (path_unstarted hrest) ih

/-- `complete_jobs` when no slot is busy. -/
theorem drain_idle (env : Env) (js : List Job) (s : St) (h : ∀ j ∈ js, j.cmd.isActive = false) :
    drain env js s = (js, s) := by
  induction js generalizing s with
  | nil => rfl
  | cons j js ih =>
    obtain ⟨hj, hjs⟩ := List.forall_mem_cons.mp h
    rw [drain, hj, ih s hjs]
    rfl

theorem Resting.decision (hcalm : env.Calm) (h : Resting v n s) : Resting v n (decision env s) := by
  rw [Cake.decision, completeJobs, drain_idle env _ _ h.idle]
  exact ⟨h.rebuild, h.still.yield hcalm, (World.same_yield env s.w).log.execs.trans h.execs, h.staffed, h.idle,
    h.failed, h.skipped⟩

/-! ### A build -/

/-- The parts that are made before the sources: the header. -/
theorem Still.header (hcalm : env.Calm) (hr : v.rebuild = false) (cflags : Str) (h : Still v n w) :
    Passing v n ((p.files.find? isHeader).toList.map (headerPart v.target)) (p.header env cflags w) := by
  rw [Project.header, Project.pchStep]
  cases p.files.find? isHeader with
  | none => exact (Resting.newBuild hr h).passing
  | some hd => exact (Resting.newBuild hr h).makePch hcalm hd cflags p.makingCpp

/-- When the output is decided upon, all the parts of the project have been passed. -/
theorem Still.ready (hcalm : env.Calm) (hr : v.rebuild = false) (cflags : Str) (h : Still v n w) :
    Passing v n (p.parts v v.target) (p.ready env cflags w) := by
  have hnames : p.sources env cflags w = p.fnames v := by
    rw [p.sources_calm hcalm, Project.fnames_glob h.glob]
  have hsources : Path env building (p.header env cflags w).w
      (compileAll env cflags (p.sources env cflags w) (p.header env cflags w)).w :=
    path_compileAll (fun _ => True) (fun _ _ => trivial) (fun _ _ _ _ _ => trivial) _ _
      (fun _ _ => trivial) rfl rfl
  have hafter : Passing v n (p.parts v v.target)
      (compileAll env cflags (p.sources env cflags w) (p.header env cflags w)) := by
    refine (h.header hcalm hr cflags).append (path_unstarted hsources) fun hm => ?_
    rw [hnames]
    exact hm.compileAll hcalm cflags _
  rw [Project.ready, Project.after, List.take_length]
  exact ⟨fun hall => (hafter.rests hall).decision hcalm,
    fun hnone => hafter.starts (path_unstarted (path_decision _) hnone)⟩

/-- Nothing of the project has to be made when its build begins with `newest_time` at `n`. -/
structure Project.Rests (v : World) (n : ℕ) (p : Project) : Prop where
  parts : ∀ x ∈ p.parts v v.target, x.Current v.fs v.makefileTime
  output : isOlder v.fs v.makefileTime (newestAfter v.fs n (p.parts v v.target)) p.outPath = false

theorem buildOutput_started (env : Env) (cmd : Cmd) (s : St) :
    execs (buildOutput env cmd s).2.w.log ≠ [] :=
  (buildOutput_log env cmd s).started

/-- The output of a build that has started nothing. -/
theorem Resting.produce {mkCmd : St → Cmd} (h : Resting v n (Cake.decision env s)) {o : Str}
    (ho : (mkCmd (Cake.decision env s)).out = o) :
    (isOlder v.fs v.makefileTime n o = false → Cake.execs (Cake.produce env mkCmd s).2.w.log = [] ∧
      Still v n (Cake.produce env mkCmd s).2.w) ∧
    (Cake.execs (Cake.produce env mkCmd s).2.w.log = [] → isOlder v.fs v.makefileTime n o = false) := by
  have hup : upToDate (Cake.decision env s) (mkCmd (Cake.decision env s)).out = true ↔
      isOlder v.fs v.makefileTime n o = false := by
    rw [upToDate, ho, h.still.fs, h.still.makefileTime, h.still.newestTime, h.skipped, existsFile,
      beq_self_eq_true, Bool.true_and, Bool.and_eq_true, Bool.not_eq_true', and_iff_right_iff_imp]
    intro hold
    obtain ⟨f, hf, -⟩ := isOlder_false.mp hold
    rw [hf]
    rfl
  rw [Cake.produce]
  rw [← Cake.decision, if_neg (not_not.mpr h.failed), ← hup]
  by_cases hkept : upToDate (Cake.decision env s) (mkCmd (Cake.decision env s)).out = true
  · rw [if_pos hkept]
    exact ⟨fun _ => ⟨h.execs, h.still.say _⟩, fun _ => hkept⟩
  · rw [if_neg hkept]
    exact ⟨fun hk => absurd hk hkept, fun hnone => absurd hnone (buildOutput_started env _ _)⟩

/-- A build in a world where nobody moves: it starts nothing exactly when nothing has to be made. -/
theorem Still.compile (hcalm : env.Calm) (hr : v.rebuild = false) (hbuilds : p.Builds env)
    (gs : List Project) (h : Still v n w) :
    (p.Rests v n → execs (p.compile env gs w).2.w.log = [] ∧
      Still v (newestAfter v.fs n (p.parts v v.target)) (p.compile env gs w).2.w) ∧
    (execs (p.compile env gs w).2.w.log = [] → p.Rests v n) := by
  obtain ⟨⟨c, l, hpkg⟩, hout, htype⟩ := hbuilds
  obtain ⟨mkCmd, hmk, heq⟩ := p.compile_produce hpkg hout htype gs w
  have hready := h.ready (p := p) hcalm hr (p.flagText c)
  rw [heq]
  constructor
  · intro hrests
    exact ((hready.rests hrests.parts).produce (hmk.out _)).1 hrests.output
  · intro hnone
    have hnever : execs (p.ready env (p.flagText c) w).w.log = [] := by
      rw [Project.ready]
      rcases produce_log env mkCmd _ with ⟨-, -, fate, he⟩ | ⟨-, he⟩
      · exact absurd (he ▸ hnone) (List.cons_ne_nil _ _)
      · exact he ▸ hnone
    have hparts := hready.starts hnever
    exact ⟨hparts, ((hready.rests hparts).produce (hmk.out _)).2 hnone⟩

/-! ### A run -/

/-- The parts of the first `k` projects. -/
def partsBefore (gs : List Project) (v : World) (k : ℕ) : List Part :=
  (gs.take k).flatMap fun p => p.parts v v.target

theorem partsBefore_succ {k : ℕ} (hp : gs[k]? = some p) :
    partsBefore gs v (k + 1) = partsBefore gs v k ++ p.parts v v.target := by
  rw [partsBefore, List.take_add_one, hp, List.flatMap_append]
  simp [partsBefore]

theorem mem_partsBefore {k : ℕ} :
    x ∈ partsBefore gs v k ↔ ∃ i < k, ∃ q, gs[i]? = some q ∧ x ∈ q.parts v v.target := by
  rw [partsBefore, List.mem_flatMap]
  constructor
  · rintro ⟨q, hq, hx⟩
    obtain ⟨i, hi, rfl⟩ := List.mem_take_iff_getElem.mp hq
    exact ⟨i, (lt_min_iff.mp hi).1, _, List.getElem?_eq_getElem _, hx⟩
  · rintro ⟨i, hi, q, hq, hx⟩
    obtain ⟨hlt, rfl⟩ := List.getElem?_eq_some_iff.mp hq
    exact ⟨_, List.mem_take_iff_getElem.mpr ⟨i, lt_min hi hlt, rfl⟩, hx⟩

theorem mem_partsBefore_of {j k : ℕ} (hj : j < k) (hp : gs[j]? = some p) (hx : x ∈ p.parts v v.target) :
    x ∈ partsBefore gs v k := mem_partsBefore.mpr ⟨j, hj, p, hp, hx⟩

theorem partsOf_before {k : ℕ} (hx : x ∈ partsBefore gs v k) : partsOf gs v v.target x := by
  obtain ⟨_, -, q, hq, hx⟩ := mem_partsBefore.mp hx
  exact ⟨q, List.mem_of_getElem? hq, hx⟩

/-- None of the first `k` projects has to be made, each begun with what `newest_time` has seen of those
    before it. -/
def RestBefore (gs : List Project) (v : World) (k : ℕ) : Prop :=
  ∀ i < k, ∀ p : Project, gs[i]? = some p → p.Rests v (newestAfter v.fs 0 (partsBefore gs v i))

theorem restBefore_succ {k : ℕ} (hp : gs[k]? = some p) : RestBefore gs v (k + 1) ↔
    RestBefore gs v k ∧ p.Rests v (newestAfter v.fs 0 (partsBefore gs v k)) := by
  constructor
  · intro h
    exact ⟨fun i hi => h i (hi.trans (Nat.lt_succ_self k)), h k (Nat.lt_succ_self k) p hp⟩
  · rintro ⟨h, hk⟩ i hi q hq
    rcases Nat.lt_succ_iff_lt_or_eq.mp hi with hi | rfl
    · exact h i hi q hq
    · obtain rfl : p = q := Option.some.inj (hp.symm.trans hq)
      exact hk

/-- A run in a world where nobody moves starts nothing exactly when no project has to be made. -/
theorem rests_mainLoop (hcalm : env.Calm) (hr : v.rebuild = false) (hbuilds : ∀ p ∈ gs, p.Builds env)
    (h : Still v 0 w) (hnone : launched w.log = []) :
    launched (mainLoop env (fun _ => true) gs w).log = [] ↔ RestBefore gs v gs.length := by
  have hrun := mainLoop_induct env (fun _ => true) gs (w := w)
    (P := fun k u => (launched u.log = [] → RestBefore gs v k) ∧ (RestBefore gs v k →
      launched u.log = [] ∧ Still v (newestAfter v.fs 0 (partsBefore gs v k)) u))
    ⟨fun _ i hi => absurd hi (Nat.not_lt_zero i), fun _ => ⟨hnone, h⟩⟩ ?_
  · exact ⟨hrun.1, fun hrest => (hrun.2 hrest).1⟩
  · rintro k p u hp ⟨hrests, hstill⟩
    have hb := hbuilds p (List.mem_of_getElem? hp)
    have hlog : launched (p.compile env gs u).2.w.log =
        execs (p.compile env gs u).2.w.log ++ launched u.log := by
      obtain ⟨⟨c, l, hpkg⟩, hout, htype⟩ := hb
      exact launched_build (fun hb => hb)
        (path_compile_making (X := fun _ => True) hcalm (fun _ _ => trivial) hpkg hout htype)
    rw [mainStep, if_pos rfl, restBefore_succ hp, partsBefore_succ hp, newestAfter_append]
    constructor
    · intro hnone
      obtain ⟨hexecs, hbefore⟩ := List.append_eq_nil_iff.mp (hlog.symm.trans hnone)
      have hrest := hrests hbefore
      exact ⟨hrest, ((hstill hrest).2.compile hcalm hr hb gs).2 hexecs⟩
    · rintro ⟨hrest, hp⟩
      obtain ⟨hbefore, hu⟩ := hstill hrest
      obtain ⟨hexecs, ht⟩ := (hu.compile hcalm hr hb gs).1 hp
      exact ⟨hlog.trans (by rw [hexecs, hbefore]; rfl), ht.say _⟩

/-! ### What has to be covered -/

/-- No part is older than a file its dependency file lists, and no output is older than a file listed
    for a part of its own project or of an earlier one. -/
structure Covered (gs : List Project) (target : Str) (w : World) : Prop where
  parts : ∀ p ∈ gs, ∀ x ∈ p.parts w target, ∀ t ∈ x.prerequisites w.fs,
    mtimeOf w.fs t ≤ mtimeOf w.fs x.product
  outputs : ∀ (i j : ℕ) (p q : Project), i ≤ j → gs[i]? = some p → gs[j]? = some q →
    ∀ x ∈ p.parts w target, ∀ t ∈ x.prerequisites w.fs, mtimeOf w.fs t ≤ mtimeOf w.fs q.outPath

theorem newestAfter_le {m : ℕ} : newestAfter fs n xs ≤ m ↔
    n ≤ m ∧ ∀ x ∈ xs, ∀ t ∈ x.prerequisites fs, mtimeOf fs t ≤ m := by
  rw [newestAfter, foldl_max_le]
  simp only [List.mem_flatMap, forall_exists_index, and_imp]
  exact and_congr_right fun _ => ⟨fun h x hx t ht => h t x hx ht, fun h t x hx ht => h x hx t ht⟩

theorem isOlder_dated {o : Str} :
    isOlder fs mk n o = false ↔ Dated fs mk o ∧ n ≤ mtimeOf fs o := by
  rw [isOlder_false]
  constructor
  · rintro ⟨f, hf, hmk, hn⟩
    exact ⟨⟨f, hf, hmk⟩, by rw [mtimeOf_some hf]; exact hn⟩
  · rintro ⟨⟨f, hf, hmk⟩, hn⟩
    rw [mtimeOf_some hf] at hn
    exact ⟨f, hf, hmk, hn⟩

/-- Where nothing is missing, no project has to be made exactly when everything is covered. -/
theorem restBefore_iff : RestBefore gs v gs.length ↔
    Whole gs v.target v.makefileTime v ∧ Covered gs v.target v := by
  constructor
  · intro h
    have hget : ∀ p ∈ gs, ∃ i, gs[i]? = some p ∧ p.Rests v (newestAfter v.fs 0 (partsBefore gs v i)) :=
      fun p hp => by
        obtain ⟨i, hi⟩ := List.getElem?_of_mem hp
        exact ⟨i, hi, h i (List.getElem?_eq_some_iff.mp hi).1 p hi⟩
    refine ⟨⟨fun p hp x hx => ?_, fun p hp => ?_⟩, fun p hp x hx => ?_, fun i j p q hij hp hq x hx => ?_⟩
    · obtain ⟨i, -, hrests⟩ := hget p hp
      exact (hrests.parts x hx).complete
    · obtain ⟨i, -, hrests⟩ := hget p hp
      exact (isOlder_dated.mp hrests.output).1
    · obtain ⟨i, -, hrests⟩ := hget p hp
      exact (hrests.parts x hx).newer
    · have hlast := (h j (List.getElem?_eq_some_iff.mp hq).1 q hq).output
      rw [← newestAfter_append, ← partsBefore_succ hq] at hlast
      exact (newestAfter_le.mp (isOlder_dated.mp hlast).2).2 x
        (mem_partsBefore_of (Nat.lt_succ_of_le hij) hp hx)
  · rintro ⟨hwhole, hcovered⟩ j hj q hq
    have hmem := List.mem_of_getElem? hq
    refine ⟨fun x hx => ⟨hwhole.parts q hmem x hx, hcovered.parts q hmem x hx⟩, ?_⟩
    rw [← newestAfter_append, ← partsBefore_succ hq]
    refine isOlder_dated.mpr ⟨hwhole.outputs q hmem, newestAfter_le.mpr ⟨Nat.zero_le _, fun x hx => ?_⟩⟩
    obtain ⟨i, hi, p, hp, hx⟩ := mem_partsBefore.mp hx
    exact hcovered.outputs i j p q (Nat.le_of_lt_succ hi) hp hq x hx

theorem Whole.later {target : Str} (h : Whole gs target mk w) (hfs : v.fs = w.fs)
    (hglob : v.glob = w.glob) : Whole gs target mk v := by
  refine ⟨fun p hp x hx => ?_, fun p hp => ?_⟩
  · rw [Project.parts_glob hglob] at hx
    rw [hfs]
    exact h.parts p hp x hx
  · rw [hfs]
    exact h.outputs p hp

theorem Covered.later {target : Str} (h : Covered gs target w) (hfs : v.fs = w.fs)
    (hglob : v.glob = w.glob) : Covered gs target v := by
  refine ⟨fun p hp x hx => ?_, fun i j p q hij hp hq x hx => ?_⟩
  all_goals
    rw [Project.parts_glob hglob] at hx
    rw [hfs]
  · exact h.parts p hp x hx
  · exact h.outputs i j p q hij hp hq x hx

/-! ### Two runs -/

/-- The dependency files of the parts are where gcc writes them, one for each part. -/
def DepsApart (gs : List Project) (target : Str) (w : World) : Prop :=
  (∀ p ∈ gs, ∀ x ∈ p.parts w target, x.dep = gccDepName x.product) ∧
    ∀ p ∈ gs, ∀ x ∈ p.parts w target, ∀ q ∈ gs, ∀ y ∈ q.parts w target, x.dep = y.dep →
      x.product = y.product

theorem DepsApart.named {target : Str} (h : DepsApart gs target v) (hglob : v.glob = w.glob) :
    Named (partsOf gs w target) := by
  obtain ⟨hdep, hapart⟩ := h
  simp only [Project.parts_glob hglob] at hdep hapart
  refine parts_under gs w target ?_ ?_
  · rintro x ⟨p, hp, hx⟩
    exact hdep p hp x hx
  · rintro x y ⟨p, hp, hx⟩ ⟨q, hq, hy⟩
    exact hapart p hp x hx q hq y hy

/-- A run that begins where nobody is at work starts nothing exactly when nothing is missing and everything is
    covered. -/
theorem idle_iff (hcalm : env.Calm) (r : Run) (hr : r.rebuild = false) (hpre : ∀ i, r.pre i = true)
    (hbefore : ∀ a ∈ r.before, a.Calm) (hprocs : w.procs = []) (hbuilds : ∀ p ∈ r.projects, p.Builds env) :
    launched (r.exec env w).log = [] ↔
      Whole r.projects r.target (mtimeOf w.fs r.makefile) w ∧ Covered r.projects r.target w := by
  have hstill := Still.acts r.before hbefore (.refl hprocs)
  have hstart := Still.refl (w := startRun r.target r.rebuild r.makefile (r.before.foldl World.act w)) hstill.procs
  rw [Run.exec, funext hpre, rests_mainLoop hcalm hr hbuilds hstart rfl, restBefore_iff]
  have hmk : (startRun r.target r.rebuild r.makefile (r.before.foldl World.act w)).makefileTime =
      mtimeOf w.fs r.makefile := by
    rw [← hstill.fs]
    rfl
  rw [hmk]
  exact and_congr ⟨fun h => h.later hstill.fs.symm hstill.glob.symm, fun h => h.later hstill.fs hstill.glob⟩
    ⟨fun h => h.later hstill.fs.symm hstill.glob.symm, fun h => h.later hstill.fs hstill.glob⟩

/-- After a run whose builds have all returned true nothing is missing, so the next one starts nothing exactly
    when everything is covered. -/
theorem next_idle_iff (hforks : env.Forks) (hcalm : env.Calm) (htruth : env.Truthful) {r : Run}
    (hX : Named (partsOf r.projects v v.target)) (hstart : Landing (partsOf r.projects v v.target) v)
    (hnone : returns v.log = [])
    (hall : ∀ i < r.projects.length, (i, true) ∈ returns (mainLoop env (fun _ => true) r.projects v).log)
    (hr : r.rebuild = false) (hpre : ∀ i, r.pre i = true) (hbefore : ∀ a ∈ r.before, a.Calm)
    (htarget : v.target = r.target) (hmakefile : isProduct r.makefile = false)
    (hmk : v.makefileTime = mtimeOf v.fs r.makefile) :
    launched (r.exec env (mainLoop env (fun _ => true) r.projects v)).log = [] ↔
      Covered r.projects r.target (mainLoop env (fun _ => true) r.projects v) := by
  obtain ⟨hwhole, hothers⟩ := whole_mainLoop hforks hcalm htruth hX hstart hnone hall
  obtain ⟨-, halone, hbuilds⟩ := alone_mainLoop hcalm hstart.alone hnone hall
  rw [idle_iff hcalm r hr hpre hbefore halone.procs hbuilds, and_iff_right_iff_imp]
  intro
  rwa [mtimeOf_congr (hothers _ hmakefile), ← hmk, ← htarget]

/-- A compiler that reads `u.c` when it is there, and lists it. -/
def Env.reading : Env :=
  { Env.quiet 1 with
    fork := fun _ cmd fs =>
      if cmd.ins = ["u.c".toList] ∧ (fs "u.c".toList).isSome = true then
        some ⟨.exited exitZero, .written, ["u.c".toList], ": u.c".toList⟩
      else some ⟨.exited exitZero, .written, [], ": ".toList⟩ }

theorem reading_forks : Env.reading.Forks := by
  intro k cmd fs
  rw [Env.reading]
  dsimp only
  split <;> exact ⟨_, rfl⟩

theorem reading_calm : Env.reading.Calm := fun _ _ ha => absurd ha List.not_mem_nil

theorem reading_truthful : Env.reading.Truthful := by
  intro k cmd fs f hf hok
  rw [Env.reading] at hf
  dsimp only at hf
  split at hf <;> obtain rfl := Option.some.inj hf
  · rename_i hc
    refine ⟨rfl, fun t ht => ?_, fun _ => ⟨["u.c".toList], by decide, fun t => Iff.rfl⟩⟩
    rw [List.mem_singleton.mp ht]
    exact hc.2
  · exact ⟨rfl, fun t ht => absurd ht List.not_mem_nil, fun _ => ⟨[], by decide, fun t => Iff.rfl⟩⟩

/-- A library and a program that has nothing to do with it. -/
def utilThenProg : Run :=
  { before := [], target := [], rebuild := false, makefile := []
    projects := makefile [.library "util".toList, .program "prog".toList, .addFiles 0 ["u.c".toList],
      .addFiles 1 ["main.c".toList]]
    pre := fun _ => true }

/-- Nothing has been made yet. -/
def sourcesOnly : World :=
  { World.empty with
    fs := (FS.set (fun _ => none) "main.c".toList (some ⟨5, []⟩)).set "u.c".toList (some ⟨20, []⟩)
    clock := 30000000000 }

/-- The program was built before the source of the library was written. -/
def progBuilt : World :=
  { sourcesOnly with
    fs := ((sourcesOnly.fs.set "obj//main.o".toList (some ⟨8, []⟩)).set "obj//main.d".toList
      (some ⟨8, "main.o: main.c".toList⟩)).set "bin/prog".toList (some ⟨10, []⟩) }

end Cake
