import Cake.Alone

/-! No compiler outlives its build.

    `complete_jobs` is called by `link` and `staticlib` alone, so `compile()` waits for its compilers on
    the paths that pass one of them. A project whose name with suffix is empty passes neither, and
    `program("")` is a call the makefile may make: its compilers are left running and uncounted.

        pkg-config fails ──▶ nothing was started
        link / staticlib ──▶ complete_jobs
        no output name   ──▶ return, the slots as they are -/

namespace Cake

variable {env : Env} {w w' : World} {pre js jobs : List Job} {j : Job} {s : St} {cmd : Cmd}

/-- Nothing is left of a build that began in `w`: no slot is busy, every child it has started has been
    waited for, and every command it has started is counted. -/
structure Over (w : World) (s : St) : Prop where
  idle : ∀ j ∈ s.b.jobs, j.cmd.isActive = false
  waited : ∀ x ∈ s.w.children, x ∈ w.children
  counted : s.b.ncompiled + s.b.nfailed + s.b.nlinked = (execs s.w.log).length

/-- What `needs_rebuild` answers when `do_compile` asks it. -/
def asksRebuild (env : Env) (fname : Str) (s : St) : Bool :=
  let w := s.w.yield env
  (needsRebuild w.rebuild w.fs w.makefileTime w.newestTime (mkdepname (objdir w.target) fname)
    (mkobjname (objdir w.target) fname)).1

/-- `needs_rebuild` lets each of the sources stand when its turn comes. -/
def AllStand (env : Env) (cflags : Str) : List Str → St → Prop
  | [], _ => True
  | f :: fs, s => asksRebuild env f s = false ∧ AllStand env cflags fs (doCompile env cflags f s)

/-! ### Every command is counted -/

/-- Every command that was started is counted, or a slot is busy with it. -/
def Counted (jobs : List Job) (s : St) : Prop :=
  s.b.ncompiled + s.b.nfailed + s.b.nlinked + jobs.countP (·.cmd.isActive) = (execs s.w.log).length

theorem countP_slot (pre js : List Job) (j : Job) : (pre ++ j :: js).countP (·.cmd.isActive) =
    (pre ++ js).countP (·.cmd.isActive) + j.cmd.isActive.toNat := by
  rw [List.perm_middle.countP_eq, List.countP_cons]
  cases j.cmd.isActive <;> rfl

/-- A compile that is over moves one counter, whatever `wait` has answered. -/
theorem harvest_counts (ok : Bool) (code : ℕ) (o : Str) (b : Build) :
    (harvest ok code o b).ncompiled + (harvest ok code o b).nfailed + (harvest ok code o b).nlinked =
      b.ncompiled + b.nfailed + b.nlinked + 1 := by
  rw [harvest]
  split
  · dsimp only; omega
  · split <;> (dsimp only; omega)

theorem Counted.harvest {v : World} (h : Counted (pre ++ j :: js) s) (hact : j.cmd.isActive = true)
    (hv : s.w.SameLog v) (ok : Bool) (code : ℕ) :
    Counted (pre ++ js) ⟨Cake.harvest ok code j.objname s.b, v⟩ := by
  have hc := harvest_counts ok code j.objname s.b
  rw [Counted, countP_slot, hact, Bool.toNat_true] at h
  simp only [Counted, hc, hv.execs]
  omega

theorem Counted.start (env : Env) (h : Counted (pre ++ js) s) :
    Counted (pre ++ (startJob env cmd s).1 :: js) (startJob env cmd s).2 := by
  obtain ⟨_, hlog⟩ := (startJob_log env cmd s).execs
  have hact : (startJob env cmd s).1.cmd.isActive = true := Command.begin_active rfl
  have hb : (startJob env cmd s).2.b = s.b := rfl
  rw [Counted] at h
  rw [Counted, countP_slot, hact, hb, hlog, List.length_cons, Bool.toNat_true]
  omega

/-- Every way of working through the slots keeps count. -/
theorem Counted.discipline (env : Env) : Discipline env (fun _ jobs s => Counted jobs s) where
  dropFree h hj := by
    rw [Counted, countP_slot, hj] at h
    exact h
  addFree h hj := by
    rw [Counted, countP_slot, free_of_pid hj]
    exact h
  start h _ := h.start env
  query h hact hq := by
    refine ⟨fun _ => h.harvest hact (query_log hq) true _, fun _ => ?_⟩
    rw [Counted, (query_log hq).execs]
    exact h
  wait h hact hq := h.harvest hact (wait_log hq) _ _
  same h hw := by
    rw [Counted, hw.execs]
    exact h
  setJobs h _ := h
  count h := h
  skip h := h

theorem execute_log {ok : Bool} {code : ℕ} (hq : executeCommand env cmd w = (ok, code, w')) :
    ForkLog env cmd w w' := by
  obtain ⟨c, v, c', hb, hw, -⟩ := executeCommand_cases hq
  have hstart := startJob_log env cmd ⟨(newBuild env w).b, w⟩
  rw [startJob_eq, hb] at hstart
  obtain ⟨hn, ⟨fs, he⟩, hs⟩ := hstart
  have hwait := wait_log hw
  exact ⟨hwait.nfork.trans hn, ⟨fs, hwait.execs.trans he⟩, hwait.skips.trans hs⟩

theorem ForkLog.length {w w' : World} (h : ForkLog env cmd w w') :
    (Cake.execs w'.log).length = (Cake.execs w.log).length + 1 := by
  obtain ⟨fs, he⟩ := h.execs
  rw [he, List.length_cons]

/-- A command that is run to its end moves one counter. -/
theorem Counted.run {cmd : Cmd} {ok : Bool} {code : ℕ} {w : World} {b : Build} (h : Counted jobs s)
    (hq : executeCommand env cmd s.w = (ok, code, w))
    (hb : b.ncompiled + b.nfailed + b.nlinked = s.b.ncompiled + s.b.nfailed + s.b.nlinked + 1) :
    Counted jobs ⟨b, w⟩ := by
  have hlen := (execute_log hq).length
  rw [Counted] at h ⊢
  dsimp only
  omega

theorem Counted.buildPch (h : Counted jobs s) : Counted jobs (buildPch env cmd s) := by
  rw [Cake.buildPch]
  rcases hq : executeCommand env cmd s.w with ⟨ok, code, w⟩
  dsimp only
  split
  · exact h.run hq (by dsimp only; omega)
  · split <;> exact h.run hq (by dsimp only; omega)

theorem Counted.buildOutput (h : Counted jobs s) : Counted jobs (buildOutput env cmd s).2 := by
  rw [Cake.buildOutput]
  rcases hq : executeCommand env cmd s.w with ⟨ok, code, w⟩
  dsimp only
  split
  · exact h.run hq (by dsimp only; omega)
  · split <;> exact h.run hq (by dsimp only; omega)

theorem Counted.makePch (pch cflags : Str) (cpp : Bool) (h : Counted jobs s) :
    Counted jobs (makePch env pch cflags cpp s) := by
  refine makePch_keeps (P := Counted jobs) (fun _ _ => ?_) fun _ ht => ht.buildPch
  rw [Counted, (World.same_yield env s.w).execs]
  exact h

theorem Counted.newBuild (env : Env) (w : World) :
    Counted (newBuild env w).b.jobs (newBuild env w) := by
  rw [Counted, List.countP_eq_zero.mpr fun j hj => by simp [newBuild_idle env w j hj]]
  rfl

theorem Counted.produce {mkCmd : St → Cmd} (h : Counted jobs (decision env s)) :
    Counted jobs (produce env mkCmd s).2 := by
  rw [Cake.produce]
  rw [decision] at h
  split
  · exact h
  · split
    · exact h
    · exact h.buildOutput

/-! ### A compile that is started is busy -/

theorem pollSlots_busy (env : Env) (cmd : Cmd) : ∀ (js : List Job) (s : St),
    (pollSlots env cmd js s).1 = true → ∃ j ∈ (pollSlots env cmd js s).2.1, j.cmd.isActive = true
  | [], _ => by simp [pollSlots]
  | j :: js, s => by
    have hstart : ∀ s : St, (startJob env cmd s).1.cmd.isActive = true := fun s =>
      Command.begin_active rfl
    rw [pollSlots]
    cases j.cmd.isActive with
    | false => exact fun _ => ⟨_, List.mem_cons_self .., hstart s⟩
    | true =>
      simp only [if_true]
      rcases hq : j.cmd.queryComplete env s.w with ⟨_ | _, c, w⟩
      · intro h
        obtain ⟨i, hi, hact⟩ := pollSlots_busy env cmd js { s with w := w } h
        exact ⟨i, List.mem_cons_of_mem _ hi, hact⟩
      · exact fun _ => ⟨_, List.mem_cons_self .., hstart _⟩

/-- `add_compile_job` leaves a slot busy. -/
theorem addCompileJob_busy (env : Env) (cmd : Cmd) (s : St) (hne : s.b.jobs ≠ []) :
    ∃ j ∈ (addCompileJob env cmd s).b.jobs, j.cmd.isActive = true := by
  have hp := pollSlots_busy env cmd s.b.jobs s
  have hjobs := pollSlots_jobs env cmd s.b.jobs s
  rw [addCompileJob]
  rcases hq : pollSlots env cmd s.b.jobs s with ⟨_ | _, jobs, t⟩
  · rw [hq] at hjobs
    have hlt : env.frand t.w.nrand % t.b.jobs.length < t.b.jobs.length :=
      Nat.mod_lt _ (List.length_pos_iff.mpr (by rw [hjobs]; exact hne))
    dsimp only
    rw [stealSlot, List.getElem?_eq_getElem hlt]
    exact ⟨_, List.mem_set (by rw [startJob_eq]; dsimp only; rw [harvest_jobs]; exact hlt) _,
      Command.begin_active rfl⟩
  · rw [hq] at hp
    exact hp rfl

/-- After `do_compile` no slot is busy exactly when none was and the source stands. -/
theorem doCompile_idle (env : Env) (cflags fname : Str) (s : St) (hne : s.b.jobs ≠ []) :
    (∀ j ∈ (doCompile env cflags fname s).b.jobs, j.cmd.isActive = false) ↔
      (∀ j ∈ s.b.jobs, j.cmd.isActive = false) ∧ asksRebuild env fname s = false := by
  rw [doCompile, asksRebuild]
  dsimp only [countSource, compileCmd]
  rcases needsRebuild _ _ _ _ _ _ with ⟨_ | _, newest⟩
  · simp only [settle, Bool.not_false, if_true, and_true]
  · obtain ⟨j, hj, hact⟩ := addCompileJob_busy env
      (compileCmd s.b.pchname (s.w.yield env).target cflags fname)
      (countSource { s with w := { s.w.yield env with newestTime := newest } }) hne
    refine iff_of_false (fun h => ?_) (by simp)
    rw [h j hj] at hact
    cases hact

theorem compileAll_idle (env : Env) (cflags : Str) (fs : List Str) (s : St) (hne : s.b.jobs ≠ []) :
    (∀ j ∈ (compileAll env cflags fs s).b.jobs, j.cmd.isActive = false) ↔
      (∀ j ∈ s.b.jobs, j.cmd.isActive = false) ∧ AllStand env cflags fs s := by
  induction fs generalizing s with
  | nil => simp [compileAll, AllStand]
  | cons f fs ih =>
    rw [AllStand, ← and_assoc, ← doCompile_idle env cflags f s hne]
    exact ih (doCompile env cflags f s) (doCompile_ne_nil env cflags f hne)

/-! ### `compile()` -/

/-- A build that passes no waiting step is over exactly when it has started no compile. -/
theorem over_after (hp : w.PidsOk) (p : Project) (cflags : Str) :
    Over w (p.after env cflags (p.sources env cflags w).length w) ↔
      AllStand env cflags (p.sources env cflags w) (p.header env cflags w) := by
  have hm := p.after_keeps (Manned.discipline env w.children) cflags w (.newBuild env hp)
    (fun pch => (Manned.newBuild env hp).makePch pch cflags p.makingCpp) (p.sources env cflags w).length
  have hc := p.after_keeps (Counted.discipline env) cflags w (.newBuild env w)
    (fun pch => (Counted.newBuild env w).makePch pch cflags p.makingCpp) (p.sources env cflags w).length
  have hidle := compileAll_idle env cflags (p.sources env cflags w) _ (header_busy env p cflags w)
  rw [header_jobs] at hidle
  rw [Project.after, List.take_length] at hm hc ⊢
  constructor
  · intro h
    exact (hidle.mp h.idle).2
  · intro h
    have hfree := hidle.mpr ⟨newBuild_idle env w, h⟩
    refine ⟨hfree, hm.only_old hfree, ?_⟩
    rw [Counted, List.countP_eq_zero.mpr fun j hj => by simp [hfree j hj]] at hc
    exact hc

/-- A build that has an output to write is over when `compile()` returns. -/
theorem over_named (hp : w.PidsOk) {p : Project} (hout : p.outTarget ≠ [])
    (htype : p.type ≠ .sharedLibrary) (gs : List Project) : Over w (p.compile env gs w).2 := by
  obtain ⟨hm, hfree⟩ := Manned.compile hp hout htype gs
  have hcount : Counted (p.compile env gs w).2.b.jobs (p.compile env gs w).2 := by
    cases hpkg : pkgConfig env p.pkgdepends with
    | none =>
      rw [Project.compile]
      simp only [hpkg]
      exact .newBuild env w
    | some cl =>
      obtain ⟨c, l⟩ := cl
      obtain ⟨mkCmd, -, heq⟩ := p.compile_produce hpkg hout htype gs w
      have hready := (p.ready_keeps (Counted.discipline env) (p.flagText c) w (.newBuild env w)
        fun pch => (Counted.newBuild env w).makePch pch (p.flagText c) p.makingCpp).1
      rw [Project.ready] at hready
      rw [heq, produce_jobs]
      exact hready.produce
  refine ⟨hfree, hm.only_old hfree, ?_⟩
  rw [Counted, List.countP_eq_zero.mpr fun j hj => by simp [hfree j hj]] at hcount
  exact hcount

/-- The project starts no compile: pkg-config cannot be run, or every source stands. -/
def Project.StartsNothing (env : Env) (p : Project) (w : World) : Prop :=
  ∀ c l, pkgConfig env p.pkgdepends = some (c, l) →
    AllStand env (p.flagText c) (p.sources env (p.flagText c) w) (p.header env (p.flagText c) w)

/-- When `compile()` returns the build is over exactly when the project has an output that cake can
    build, or no compile was started. -/
theorem over_iff (env : Env) (gs : List Project) (p : Project) {w : World} (hp : w.PidsOk) :
    Over w (p.compile env gs w).2 ↔
      (p.name ++ p.outputSuffix ≠ [] ∧ p.type ≠ .sharedLibrary) ∨ p.StartsNothing env w := by
  by_cases hnamed : p.outTarget ≠ [] ∧ p.type ≠ .sharedLibrary
  · exact iff_of_true (over_named hp hnamed.1 hnamed.2 gs) (Or.inl hnamed)
  · rw [← Project.outTarget, or_iff_right hnamed]
    cases hpkg : pkgConfig env p.pkgdepends with
    | none =>
      refine iff_of_true ?_ fun c l h => by rw [hpkg] at h; cases h
      rw [Project.compile]
      simp only [hpkg]
      exact ⟨newBuild_idle env w, fun x hx => hx, rfl⟩
    | some cl =>
      obtain ⟨c, l⟩ := cl
      rw [p.compile_unnamed hpkg hnamed, over_after hp, Project.StartsNothing, hpkg]
      constructor
      · intro h c' l' heq
        simp only [Option.some.injEq, Prod.mk.injEq] at heq
        exact heq.1 ▸ h
      · intro h
        exact h c l rfl

/-- A program with a name: `over_iff` at a project that cake waits for. -/
theorem over_named_program :
    Over World.empty (({ Project.fresh .program "prog".toList with files := ["a.c".toList] }).compile
      (Env.quiet 1) [] World.empty).2 :=
  (over_iff (Env.quiet 1) [] _ World.pidsOk_empty).mpr (Or.inl ⟨by decide, by decide⟩)

/-- `program("")` with a source: `compile()` returns while its compiler runs. -/
theorem nameless_program_not_over :
    ¬ Over World.empty (({ Project.fresh .program [] with files := ["a.c".toList] }).compile
      (Env.quiet 1) [] World.empty).2 := by
  intro h
  exact absurd h.counted (by decide +kernel)

end Cake
