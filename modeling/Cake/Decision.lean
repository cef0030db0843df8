import Cake.Waited

/-! When the output is written.

    `link` and `staticlib` decide by three numbers and two dates. Where forks succeed the numbers mean
    what they are taken for:

        nfailed = 0                   every command of the build so far was a success
        linklist.size() = nskipped    no compile was started
        linklist                      the objects of all the sources, each once

    and `newest_time` is at least as late as every prerequisite of a source that was skipped. -/

namespace Cake

variable {env : Env} {w w' : World} {s : St} {p : Project} {gs : List Project} {c : Str} {l : List Str}

/-- Every child exits normally. -/
def Env.Exits (env : Env) : Prop :=
  ∀ k cmd fs f, env.fork k cmd fs = some f → ∃ code, f.status = .exited code

/-! ### What one source adds -/

/-- `do_compile` starts one compile, or notes one skip and has seen every prerequisite. -/
theorem doCompile_log (env : Env) (cflags fname : Str) (s : St) (hne : s.b.jobs ≠ []) :
    (asksRebuild env fname s = true ∧
      ForkLog env (compileCmd s.b.pchname s.w.target cflags fname) s.w
        (doCompile env cflags fname s).w) ∨
    (asksRebuild env fname s = false ∧ execs (doCompile env cflags fname s).w.log = execs s.w.log ∧
      skips (doCompile env cflags fname s).w.log =
        mkobjname (objdir s.w.target) fname :: skips s.w.log ∧ s.w.rebuild = false ∧
      ∃ tokens, listed (s.w.yield env).fs (mkdepname (objdir s.w.target) fname) = some tokens ∧
        ∀ t ∈ tokens, mtimeOf (s.w.yield env).fs t ≤
          (doCompile env cflags fname s).w.newestTime) := by
  have hy := World.same_yield env s.w
  have hlater := (path_yield env .all s.w).later
  rw [asksRebuild, ← hlater.target, ← hlater.rebuild, doCompile]
  dsimp only [countSource, compileCmd]
  rcases hr : needsRebuild _ _ _ _ _ _ with ⟨_ | _, newest⟩
  · right
    obtain ⟨hrebuild, tokens, hl, htokens⟩ := stands_of_needsRebuild hr
    refine ⟨rfl, hy.execs, congrArg _ hy.skips, hrebuild, tokens, hl, fun t ht => ?_⟩
    exact (htokens t ht).2
  · left
    refine ⟨rfl, ForkLog.after (v := { s.w.yield env with newestTime := newest })
      (hy.log.trans ⟨rfl, rfl, rfl, id⟩) ?_⟩
    exact addCompileJob_log env _ ⟨_, _⟩ hne

/-- The objects of the sources that were skipped or started. -/
def asked (log : List Ev) : Multiset Str :=
  (skips log : Multiset Str) + ((started log).map Prod.fst : List Str)

theorem asked_same (h : w.SameLog w') : asked w'.log = asked w.log := by
  rw [asked, asked, started, started, h.skips, h.execs]

theorem ForkLog.asked {cmd : Cmd} (h : ForkLog env cmd w w') (hk : cmd.kind = .compile) :
    Cake.asked w'.log = cmd.out ::ₘ Cake.asked w.log := by
  obtain ⟨-, ⟨fs, he⟩, hs⟩ := h
  rw [Cake.asked, Cake.asked, hs, started, started, he, List.filter_cons_of_pos (by simp [hk])]
  simp only [List.map_cons]
  rw [← Multiset.cons_coe, Multiset.add_cons]

theorem ForkLog.asked_other {cmd : Cmd} (h : ForkLog env cmd w w') (hk : cmd.kind ≠ .compile) :
    Cake.asked w'.log = Cake.asked w.log := by
  obtain ⟨-, ⟨fs, he⟩, hs⟩ := h
  rw [Cake.asked, Cake.asked, hs, started, started, he, List.filter_cons_of_neg (by simp [hk])]

theorem doCompile_asked (env : Env) (cflags fname : Str) (s : St) (hne : s.b.jobs ≠ []) :
    asked (doCompile env cflags fname s).w.log =
      mkobjname (objdir s.w.target) fname ::ₘ asked s.w.log := by
  rcases doCompile_log env cflags fname s hne with ⟨-, h⟩ | ⟨-, he, hs, -⟩
  · exact h.asked rfl
  · rw [asked, asked, started, started, he, hs, ← Multiset.cons_coe, Multiset.cons_add]

theorem compileAll_asked (env : Env) (cflags : Str) (fs : List Str) (s : St) (hne : s.b.jobs ≠ []) :
    asked (compileAll env cflags fs s).w.log =
      ((fs.map (mkobjname (objdir s.w.target)) : List Str) : Multiset Str) + asked s.w.log := by
  induction fs generalizing s with
  | nil => simp [compileAll]
  | cons f fs ih =>
    have hrest := ih (doCompile env cflags f s) (doCompile_ne_nil env cflags f hne)
    rw [doCompile_target, doCompile_asked env cflags f s hne] at hrest
    rw [List.map_cons, ← Multiset.cons_coe, Multiset.cons_add, ← Multiset.add_cons]
    exact hrest

theorem buildPch_log (env : Env) (cmd : Cmd) (s : St) : ForkLog env cmd s.w (buildPch env cmd s).w := by
  rw [buildPch_world]
  exact execute_log rfl

theorem buildPch_asked (env : Env) {cmd : Cmd} (hk : cmd.kind = .pch) (s : St) :
    asked (buildPch env cmd s).w.log = asked s.w.log :=
  (buildPch_log env cmd s).asked_other (by simp [hk])

theorem makePch_asked (env : Env) (pch cflags : Str) (cpp : Bool) (s : St) :
    asked (makePch env pch cflags cpp s).w.log = asked s.w.log :=
  makePch_keeps (P := fun t => asked t.w.log = asked s.w.log)
    (fun _ _ => asked_same ((World.same_yield env s.w).log.trans ⟨rfl, rfl, rfl, id⟩))
    fun t ht => (buildPch_asked env rfl t).trans ht

theorem header_asked (env : Env) (p : Project) (cflags : Str) (w : World) :
    asked (p.header env cflags w).w.log = 0 := by
  rw [Project.header, Project.pchStep]
  cases p.files.find? isHeader with
  | none => rfl
  | some h => exact makePch_asked ..

/-- The decision comes after the sources and starts and skips nothing. -/
theorem ready_log (env : Env) (p : Project) (cflags : Str) (w : World) :
    (compileAll env cflags (p.sources env cflags w) (p.header env cflags w)).w.SameLog
      (p.ready env cflags w).w := by
  rw [Project.ready, decision, Project.after, List.take_length]
  generalize compileAll env cflags (p.sources env cflags w) (p.header env cflags w) = s
  exact (World.same_yield env s.w).log.trans (drain_log env s.b.jobs ⟨s.b, s.w.yield env⟩)

/-- When the output is decided upon, every source was skipped or started. -/
theorem ready_asked (env : Env) (p : Project) (cflags : Str) (w : World) :
    asked (p.ready env cflags w).w.log =
      (((p.sources env cflags w).map (mkobjname (objdir w.target)) : List Str) : Multiset Str) := by
  have hall := compileAll_asked env cflags (p.sources env cflags w) _ (header_busy env p cflags w)
  rw [header_asked, add_zero, (p.header_held env cflags w).2] at hall
  rw [asked_same (ready_log env p cflags w), hall]

/-- Under `-r` nothing is skipped. -/
theorem compileAll_rebuild (env : Env) (cflags : Str) (fs : List Str) (s : St) (hne : s.b.jobs ≠ [])
    (hr : s.w.rebuild = true) : skips (compileAll env cflags fs s).w.log = skips s.w.log := by
  induction fs generalizing s with
  | nil => rfl
  | cons f fs ih =>
    have hr' : (doCompile env cflags f s).w.rebuild = true :=
      (path_doCompile (R := .all) trivial fun _ _ _ => trivial).later.rebuild.trans hr
    have hrest := ih (doCompile env cflags f s) (doCompile_ne_nil env cflags f hne) hr'
    rcases doCompile_log env cflags f s hne with ⟨-, h⟩ | ⟨-, -, -, hno, -⟩
    · exact hrest.trans h.skips
    · rw [hr] at hno
      cases hno

theorem ready_rebuild (env : Env) (p : Project) (cflags : Str) (hr : w.rebuild = true) :
    skips (p.ready env cflags w).w.log = [] := by
  have hhead := header_asked env p cflags w
  rw [asked, add_eq_zero, Multiset.coe_eq_zero] at hhead
  rw [(ready_log env p cflags w).skips, compileAll_rebuild env cflags _ _ (header_busy env p cflags w),
    hhead.1]
  exact (path_header (R := .all) fun _ _ => trivial).later.rebuild.trans hr

/-! ### What `linklist` holds -/

/-- As long as nothing has failed, every object that was skipped or started is in `linklist` or is being
    written by the child of a slot. -/
def Listed (jobs : List Job) (s : St) : Prop :=
  s.b.nfailed = 0 → (s.b.linklist : Multiset Str) + busyNames jobs = asked s.w.log

theorem busyNames_middle (pre js : List Job) (j : Job) :
    busyNames (pre ++ j :: js) = busyNames (j :: (pre ++ js)) := by
  rw [busyNames, busyNames, Multiset.coe_eq_coe]
  exact (List.perm_middle.filter _).map _

/-- A compile that has not failed is listed. -/
theorem harvest_listed {ok : Bool} {code : ℕ} {o : Str} {b : Build}
    (h : (harvest ok code o b).nfailed = 0) :
    b.nfailed = 0 ∧ (harvest ok code o b).linklist = b.linklist ++ [o] := by
  rw [harvest] at h ⊢
  split at h
  · cases h
  · split at h
    · cases h
    · rename_i hok hcode
      exact ⟨h, by rw [if_neg hok, if_neg hcode]⟩

variable {pre js jobs : List Job} {j : Job} {cmd : Cmd}

theorem Listed.world (h : Listed jobs s) (hw : s.w.SameLog w) : Listed jobs { s with w := w } := by
  rw [Listed, asked_same hw]
  exact h

theorem Listed.harvest (h : Listed (pre ++ j :: js) s) (hact : j.cmd.isActive = true)
    (hw : s.w.SameLog w) (ok : Bool) (code : ℕ) :
    Listed (pre ++ js) ⟨Cake.harvest ok code j.objname s.b, w⟩ := by
  intro hn
  obtain ⟨hn, hlist⟩ := harvest_listed hn
  have hall := h hn
  rw [busyNames_middle, busyNames_busy hact] at hall
  rw [asked_same hw, ← hall]
  dsimp only
  rw [hlist, ← Multiset.coe_add, Multiset.coe_singleton, add_assoc, Multiset.singleton_add]

theorem Listed.start (env : Env) (h : Listed (pre ++ js) s) (hk : cmd.kind = .compile) :
    Listed (pre ++ (startJob env cmd s).1 :: js) (startJob env cmd s).2 := by
  intro hn
  rw [busyNames_middle, busyNames_busy (startJob_active env cmd s), Multiset.add_cons,
    (startJob_log env cmd s).asked hk, ← h hn]
  rfl

/-- Every way of working through the slots keeps the objects. -/
theorem Listed.discipline (env : Env) : Discipline env (fun _ jobs s => Listed jobs s) where
  dropFree h hj := by
    rw [Listed, busyNames_middle, busyNames_free hj] at h
    exact h
  addFree h hj := by
    rw [Listed, busyNames_middle, busyNames_free (free_of_pid hj)]
    exact h
  start h hk := h.start env hk
  query h hact hq :=
    ⟨fun _ => h.harvest hact (query_log hq) true _, fun _ => h.world (query_log hq)⟩
  wait h hact hq := h.harvest hact (wait_log hq) _ _
  same h hw := h.world hw.log
  setJobs h _ := h
  count h := h
  skip {_ jobs s cmd} h := by
    intro hn
    have hlog : asked (settle env false cmd s).w.log = cmd.out ::ₘ asked s.w.log := by
      rw [asked, asked, ← Multiset.cons_add]
      rfl
    rw [hlog, ← h hn, settle, if_pos (by rfl), ← Multiset.coe_add, Multiset.coe_singleton, add_right_comm,
      add_comm, Multiset.singleton_add]

theorem Listed.buildPch (env : Env) (hk : cmd.kind = .pch) (h : Listed jobs s) :
    Listed jobs (buildPch env cmd s) := by
  have hlog := buildPch_asked env hk s
  intro hn
  rw [hlog]
  revert hn
  rw [Cake.buildPch]
  dsimp only
  split
  · exact fun hn => absurd hn (Nat.succ_ne_zero _)
  · split
    · exact fun hn => absurd hn (Nat.succ_ne_zero _)
    · exact h

theorem Listed.makePch (pch cflags : Str) (cpp : Bool) (h : Listed jobs s) :
    Listed jobs (makePch env pch cflags cpp s) :=
  makePch_keeps (P := Listed jobs)
    (fun _ _ => h.world ((World.same_yield env s.w).log.trans ⟨rfl, rfl, rfl, id⟩))
    fun _ ht => ht.buildPch env rfl

theorem Listed.newBuild (env : Env) (w : World) : Listed (newBuild env w).b.jobs (newBuild env w) := by
  intro _
  have hbusy : busyNames (Cake.newBuild env w).b.jobs = 0 := by
    rw [busyNames, List.filter_eq_nil_iff.mpr fun j hj => by simp [newBuild_idle env w j hj]]
    rfl
  rw [hbusy]
  rfl

/-- Nothing has failed: `linklist` holds the objects of all the sources. -/
theorem Project.linked_objects (p : Project) (cflags : Str) (w : World)
    (hn : (p.ready env cflags w).b.nfailed = 0) :
    (p.ready env cflags w).b.linklist.Perm
      ((p.sources env cflags w).map (mkobjname (objdir w.target))) := by
  obtain ⟨hl, hfree⟩ := p.ready_keeps (Listed.discipline env) cflags w (.newBuild env w)
    fun pch => (Listed.newBuild env w).makePch pch cflags p.makingCpp
  have hbusy : busyNames (p.ready env cflags w).b.jobs = 0 := by
    rw [busyNames, List.filter_eq_nil_iff.mpr fun j hj => by simp [hfree j hj]]
    rfl
  have hlink := hl hn
  rw [hbusy, add_zero, ready_asked] at hlink
  exact Multiset.coe_eq_coe.mp hlink

/-! ### The decision -/

/-- The decision about the output, told by what the build has done. -/
theorem Reckoned.decides (h : Reckoned s) (out : Str) :
    (s.b.nfailed = 0 ∧ upToDate s out = false) ↔ (∀ e ∈ execs s.w.log, okFate e.2 = true) ∧
      (started s.w.log ≠ [] ∨ existsFile s.w.fs out = false ∨
        isOlder s.w.fs s.w.makefileTime s.w.newestTime out = true) := by
  rw [h.failed]
  refine and_congr_right fun hall => ?_
  have hnone := h.no_recompiles (h.failed.mpr hall)
  simp only [upToDate, Bool.and_eq_false_iff, beq_eq_false_iff_ne, ne_eq, hnone, Bool.not_eq_false',
    or_assoc]

theorem buildOutput_log (env : Env) (cmd : Cmd) (s : St) :
    ForkLog env cmd s.w (buildOutput env cmd s).2.w := by
  rw [buildOutput_world]
  exact execute_log rfl

/-- The command of the output is started, or nothing is. -/
theorem produce_log (env : Env) (mkCmd : St → Cmd) (s : St) :
    ((decision env s).b.nfailed = 0 ∧ upToDate (decision env s) (mkCmd (decision env s)).out = false ∧
      ∃ fate, execs (produce env mkCmd s).2.w.log =
        (mkCmd (decision env s), fate) :: execs (decision env s).w.log) ∨
    (¬ ((decision env s).b.nfailed = 0 ∧
        upToDate (decision env s) (mkCmd (decision env s)).out = false) ∧
      execs (produce env mkCmd s).2.w.log = execs (decision env s).w.log) := by
  rw [produce]
  rw [← decision]
  split
  · rename_i hn
    exact Or.inr ⟨fun h => hn h.1, rfl⟩
  · rename_i hn
    split
    · rename_i hup
      exact Or.inr ⟨fun h => by rw [hup] at h; exact absurd h.2 (by simp), rfl⟩
    · rename_i hup
      obtain ⟨fs, he⟩ := (buildOutput_log env (mkCmd (decision env s)) (decision env s)).execs
      exact Or.inl ⟨not_not.mp hn, Bool.eq_false_iff.mpr hup, _, he⟩

/-- Before the output is decided upon a build starts compiles, and the command of its header. -/
theorem Project.ready_kinds (hpkg : pkgConfig env p.pkgdepends = some (c, l)) (w : World) :
    ∀ e ∈ execs (p.ready env (p.flagText c) w).w.log, World.hasDep e.1.kind = true := by
  have henv : env.Lists fun _ _ => True := fun _ _ _ _ _ _ => trivial
  have hw : w.Lists fun _ _ => True := fun _ _ _ => trivial
  have hexec : ∀ cmd, p.Issues env (fun _ _ => True) [] w.target cmd → World.hasDep cmd.kind = true →
      (Rules.execs fun cmd => World.hasDep cmd.kind = true).exec cmd := fun _ _ hd => hd
  have hpath : Path env (Rules.execs fun cmd => World.hasDep cmd.kind = true) (newBuild env w).w
      (p.ready env (p.flagText c) w).w :=
    (path_after henv hw hpkg hexec (fun _ _ _ => trivial) _).trans (path_decision _)
  exact hpath.execs (fun _ _ _ h => h) fun _ he => absurd he List.not_mem_nil

/-- The command of an output. -/
def Cmd.ofOutput (cmd : Cmd) : Prop := cmd.kind = .link ∨ cmd.kind = .ar

theorem not_ofOutput {cmd : Cmd} (h : World.hasDep cmd.kind = true) : ¬ cmd.ofOutput := by
  rintro (hk | hk) <;> rw [hk] at h <;> cases h

/-- What `compile()` starts beside the compiles and the header: the command of the output, when the
    decision is for it, with all of `linklist` among its arguments. -/
theorem Project.compile_log (hpkg : pkgConfig env p.pkgdepends = some (c, l)) (hout : p.outTarget ≠ [])
    (htype : p.type ≠ .sharedLibrary) (gs : List Project) (w : World) :
    ∃ cmd, cmd.ofOutput ∧ cmd.argv.Nodup ∧
      (∀ o ∈ (p.ready env (p.flagText c) w).b.linklist, o ∈ cmd.argv) ∧
      (((p.ready env (p.flagText c) w).b.nfailed = 0 ∧
          upToDate (p.ready env (p.flagText c) w) p.outPath = false ∧
          ∃ fate, execs (p.compile env gs w).2.w.log =
            (cmd, fate) :: execs (p.ready env (p.flagText c) w).w.log) ∨
        (¬ ((p.ready env (p.flagText c) w).b.nfailed = 0 ∧
            upToDate (p.ready env (p.flagText c) w) p.outPath = false) ∧
          execs (p.compile env gs w).2.w.log = execs (p.ready env (p.flagText c) w).w.log)) := by
  obtain ⟨mkCmd, hmk, heq⟩ := p.compile_produce hpkg hout htype gs w
  have hlog := produce_log env mkCmd
    (p.after env (p.flagText c) (p.sources env (p.flagText c) w).length w)
  rw [heq]
  rw [← Project.ready, hmk.out] at hlog
  exact ⟨_, hmk.kind _, (hmk.argv _).1, (hmk.argv _).2, hlog⟩

/-- `compile()` starts the command of the output exactly when nothing has failed and something was
    compiled, or the output is missing or old. -/
theorem Project.writes_iff (hpkg : pkgConfig env p.pkgdepends = some (c, l)) (hout : p.outTarget ≠ [])
    (htype : p.type ≠ .sharedLibrary) (gs : List Project)
    (hr : Reckoned (p.ready env (p.flagText c) w)) :
    (∃ e ∈ execs (p.compile env gs w).2.w.log, e.1.ofOutput) ↔
      (∀ e ∈ execs (p.ready env (p.flagText c) w).w.log, okFate e.2 = true) ∧
        (started (p.ready env (p.flagText c) w).w.log ≠ [] ∨
          existsFile (p.ready env (p.flagText c) w).w.fs p.outPath = false ∨
          isOlder (p.ready env (p.flagText c) w).w.fs (p.ready env (p.flagText c) w).w.makefileTime
            (p.ready env (p.flagText c) w).w.newestTime p.outPath = true) := by
  have hkinds := p.ready_kinds hpkg w
  obtain ⟨cmd, hcmd, -, -, hlog⟩ := p.compile_log hpkg hout htype gs w
  rw [← hr.decides]
  rcases hlog with ⟨hn, hup, fate, he⟩ | ⟨hno, he⟩
  · rw [he]
    exact iff_of_true ⟨_, List.mem_cons_self .., hcmd⟩ ⟨hn, hup⟩
  · rw [he]
    refine iff_of_false ?_ hno
    rintro ⟨e, hmem, hk⟩
    exact not_ofOutput (hkinds e hmem) hk

/-- The commands before the decision are those that are not of an output. -/
theorem Project.early_iff (hpkg : pkgConfig env p.pkgdepends = some (c, l)) (hout : p.outTarget ≠ [])
    (htype : p.type ≠ .sharedLibrary) (gs : List Project) (w : World) (e : Cmd × Option Fate) :
    e ∈ execs (p.ready env (p.flagText c) w).w.log ↔
      e ∈ execs (p.compile env gs w).2.w.log ∧ ¬ e.1.ofOutput := by
  have hkinds := p.ready_kinds hpkg w
  obtain ⟨cmd, hcmd, -, -, ⟨-, -, fate, he⟩ | ⟨-, he⟩⟩ := p.compile_log hpkg hout htype gs w
  · rw [he, List.mem_cons]
    constructor
    · intro h
      exact ⟨Or.inr h, not_ofOutput (hkinds e h)⟩
    · rintro ⟨rfl | h, hno⟩
      · exact absurd hcmd hno
      · exact h
  · rw [he]
    exact ⟨fun h => ⟨h, not_ofOutput (hkinds e h)⟩, fun h => h.1⟩

theorem started_ne_nil {log : List Ev} : started log ≠ [] ↔ ∃ e ∈ execs log, e.1.kind = .compile := by
  rw [started, Ne, List.map_eq_nil_iff, List.filter_eq_nil_iff]
  simp

/-- A command that is not of an output compiles a source or a header. -/
theorem not_ofOutput_iff {cmd : Cmd} : ¬ cmd.ofOutput ↔ cmd.kind = .pch ∨ cmd.kind = .compile := by
  rw [Cmd.ofOutput]
  cases cmd.kind <;> simp

/-- Where children exit normally, a success is an exit with 0. -/
theorem Project.ready_exits (hexits : env.Exits) (p : Project) (cflags : Str) (w : World) :
    ∀ e ∈ execs (p.ready env cflags w).w.log, okFate e.2 = exitedZero e := by
  refine (p.path_ready env cflags w).execs (fun k cmd fs _ => ?_) fun _ he => absurd he List.not_mem_nil
  cases hf : env.fork k cmd fs with
  | none => rfl
  | some f =>
    obtain ⟨code, hcode⟩ := hexits k cmd fs f hf
    simp [okFate_normal hcode, exitedZero, hcode]

/-- Before the decision a compile was started exactly when the project started one. -/
theorem Project.started_iff (hpkg : pkgConfig env p.pkgdepends = some (c, l)) (hout : p.outTarget ≠ [])
    (htype : p.type ≠ .sharedLibrary) (gs : List Project) (w : World) :
    started (p.ready env (p.flagText c) w).w.log ≠ [] ↔
      ∃ e ∈ execs (p.compile env gs w).2.w.log, e.1.kind = .compile := by
  have hearly := p.early_iff hpkg hout htype gs w
  rw [started_ne_nil]
  constructor
  · rintro ⟨e, he, hk⟩
    exact ⟨e, ((hearly e).mp he).1, hk⟩
  · rintro ⟨e, he, hk⟩
    exact ⟨e, (hearly e).mpr ⟨he, not_ofOutput_iff.mpr (Or.inr hk)⟩, hk⟩

/-- The linker or archiver runs exactly when the header and every compile exited with 0 and something
    was compiled or the output is missing or old. It runs with no compile left and with the objects of
    all sources, and under `-r` it runs for every project with a source unless something failed. -/
theorem output_runs_iff (hforks : env.Forks) (hexits : env.Exits) (hp : w.PidsOk)
    (hpkg : pkgConfig env p.pkgdepends = some (c, l)) (hout : p.name ++ p.outputSuffix ≠ [])
    (htype : p.type ≠ .sharedLibrary) (gs : List Project) :
    let d := p.ready env (p.flagText c) w
    let log := (p.compile env gs w).2.w.log
    let srcs := p.sources env (p.flagText c) w
    ((∃ e ∈ execs log, e.1.ofOutput) ↔
      (∀ e ∈ execs log, e.1.kind = .pch → exitedZero e = true) ∧
      (∀ e ∈ execs log, e.1.kind = .compile → exitedZero e = true) ∧
      ((∃ e ∈ execs log, e.1.kind = .compile) ∨ existsFile d.w.fs p.outPath = false ∨
        isOlder d.w.fs d.w.makefileTime d.w.newestTime p.outPath = true)) ∧
    (∀ e ∈ execs log, e.1.ofOutput → execs log = e :: execs d.w.log ∧
      (∀ j ∈ d.b.jobs, j.cmd.isActive = false) ∧
      ∀ f ∈ srcs, mkobjname (objdir w.target) f ∈ e.1.argv) ∧
    (w.rebuild = true → srcs ≠ [] → (∀ e ∈ execs log, ¬ e.1.ofOutput → exitedZero e = true) →
      ∃ e ∈ execs log, e.1.ofOutput) := by
  intro d log srcs
  have htrust : Trusted d.w.log := Or.inr (p.ready_forked hforks _ w)
  have hexit := p.ready_exits hexits (p.flagText c) w
  have hearly := p.early_iff hpkg hout htype gs w
  have hall : (∀ e ∈ execs d.w.log, okFate e.2 = true) ↔
      ∀ e ∈ execs log, ¬ e.1.ofOutput → exitedZero e = true := by
    constructor
    · intro h e he hno
      rw [← hexit e ((hearly e).mpr ⟨he, hno⟩)]
      exact h e ((hearly e).mpr ⟨he, hno⟩)
    · intro h e he
      rw [hexit e he]
      exact h e ((hearly e).mp he).1 ((hearly e).mp he).2
  have hstarted : started d.w.log ≠ [] ↔ ∃ e ∈ execs log, e.1.kind = .compile :=
    p.started_iff hpkg hout htype gs w
  have hwrites := p.writes_iff hpkg hout htype gs (p.reckoned hp _ htrust)
  rw [hall, hstarted] at hwrites
  refine ⟨?_, fun e he hk => ?_, fun hrebuild hsrcs hzero => ?_⟩
  · rw [hwrites, ← and_assoc]
    refine and_congr_left fun _ => ?_
    simp only [not_ofOutput_iff, or_imp, forall_and]
  · obtain ⟨cmd, -, -, hargv, ⟨hn, -, fate, heq⟩ | ⟨-, heq⟩⟩ := p.compile_log hpkg hout htype gs w
    · have hlog : execs log = (cmd, fate) :: execs d.w.log := heq
      obtain rfl : e = (cmd, fate) := by
        rw [hlog] at he
        refine (List.mem_cons.mp he).resolve_right fun h => ?_
        exact ((hearly e).mp h).2 hk
      refine ⟨hlog, (Manned.ready hp p _).2, fun f hf => hargv _ ?_⟩
      exact (p.linked_objects _ w hn).mem_iff.mpr (List.mem_map_of_mem hf)
    · have hmem : e ∈ execs d.w.log := by rw [← heq]; exact he
      exact absurd hk ((hearly e).mp hmem).2
  · refine hwrites.mpr ⟨hzero, Or.inl (hstarted.mp fun hnone => hsrcs ?_)⟩
    have hasked := ready_asked env p (p.flagText c) w
    rw [asked, ready_rebuild env p _ hrebuild, show started (p.ready env (p.flagText c) w).w.log = []
      from hnone, eq_comm] at hasked
    simpa using hasked

/-- Two sources, two slots: both are compiled and the program is linked. -/
theorem output_runs_for_two :
    let p := { Project.fresh .program "prog".toList with files := ["a.c".toList, "b.c".toList] }
    ∃ e ∈ execs (p.compile (Env.quiet 2) [p] World.empty).2.w.log, e.1.ofOutput := by
  intro p
  have hforks : (Env.quiet 2).Forks := fun _ _ _ => ⟨_, rfl⟩
  have hexits : (Env.quiet 2).Exits := fun _ _ _ f hf => ⟨exitZero, by cases hf; rfl⟩
  refine (output_runs_iff (p := p) (c := []) (l := []) hforks hexits World.pidsOk_empty rfl (by decide)
    (by decide) [p]).1.mpr ⟨?_, ?_, Or.inl ?_⟩
  · decide +kernel
  · decide +kernel
  · decide +kernel

/-! ### Prerequisites of the sources that were skipped -/

theorem compileAll_newest (env : Env) (cflags : Str) (fs : List Str) (s : St) :
    s.w.newestTime ≤ (compileAll env cflags fs s).w.newestTime :=
  (path_compileAll (R := .all) (fun _ => True) (fun _ _ => trivial) (fun _ _ _ _ _ => trivial) fs s
    (fun _ _ => trivial) rfl rfl).later.newestTime

/-- When no compile was started, `newest_time` has seen the prerequisites of every source, as they were
    when it was the source's turn. -/
theorem compileAll_seen (env : Env) (cflags : Str) (fs : List Str) (s : St) (hne : s.b.jobs ≠ [])
    (h : started (compileAll env cflags fs s).w.log = []) : started s.w.log = [] ∧
      ∀ k f, fs[k]? = some f → ∃ tokens,
        listed ((compileAll env cflags (fs.take k) s).w.yield env).fs
          (mkdepname (objdir s.w.target) f) = some tokens ∧
        ∀ t ∈ tokens, mtimeOf ((compileAll env cflags (fs.take k) s).w.yield env).fs t ≤
          (compileAll env cflags fs s).w.newestTime := by
  induction fs generalizing s with
  | nil => exact ⟨h, by simp⟩
  | cons f fs ih =>
    obtain ⟨hst, hseen⟩ := ih (doCompile env cflags f s) (doCompile_ne_nil env cflags f hne) h
    rcases doCompile_log env cflags f s hne with ⟨-, -, ⟨_, he⟩, -⟩ | ⟨-, he, -, -, tokens, hl, hle⟩
    · rw [started, he] at hst
      cases hst
    · rw [started, he] at hst
      refine ⟨hst, ?_⟩
      intro k g hk
      cases k with
      | zero =>
        obtain rfl : f = g := Option.some.inj hk
        exact ⟨tokens, hl, fun t ht => (hle t ht).trans (compileAll_newest env cflags fs _)⟩
      | succ k =>
        have hrest := hseen k g hk
        rw [doCompile_target] at hrest
        exact hrest

/-- Of a project that starts no compile `newest_time` has seen the prerequisites of every source. -/
theorem ready_seen {cflags : Str} (hst : started (p.ready env cflags w).w.log = []) {k : ℕ} {f : Str}
    (hk : (p.sources env cflags w)[k]? = some f) :
    ∃ tokens, listed ((p.after env cflags k w).w.yield env).fs (mkdepname (objdir w.target) f) =
        some tokens ∧
      ∀ t ∈ tokens, mtimeOf ((p.after env cflags k w).w.yield env).fs t ≤
        (p.ready env cflags w).w.newestTime := by
  rw [started, (ready_log env p cflags w).execs] at hst
  obtain ⟨-, hseen⟩ := compileAll_seen env cflags _ _ (header_busy env p _ w) hst
  obtain ⟨tokens, hl, hle⟩ := hseen k f hk
  rw [(p.header_held env _ w).2] at hl
  refine ⟨tokens, hl, fun t ht => (hle t ht).trans ?_⟩
  rw [Project.ready, Project.after, List.take_length]
  exact (path_decision (R := .all) _).later.newestTime

/-- A project whose sources are all skipped: if the output is missing, older than the makefile, or older
    than a prerequisite of one of the sources, the linker or archiver runs, whatever the run has done
    before. -/
theorem old_output_is_written (hp : w.PidsOk) (hpkg : pkgConfig env p.pkgdepends = some (c, l))
    (hout : p.name ++ p.outputSuffix ≠ []) (htype : p.type ≠ .sharedLibrary) (gs : List Project)
    (hskip : ∀ e ∈ execs (p.compile env gs w).2.w.log, e.1.kind ≠ .compile)
    (hpch : ∀ e ∈ execs (p.compile env gs w).2.w.log, e.1.kind = .pch → okFate e.2 = true)
    (hstill : ∀ k < (p.sources env (p.flagText c) w).length,
      ((p.after env (p.flagText c) k w).w.yield env).fs = (p.ready env (p.flagText c) w).w.fs)
    (hold : ∀ o, (p.ready env (p.flagText c) w).w.fs p.outPath = some o →
      o.mtime < (p.ready env (p.flagText c) w).w.makefileTime ∨
      ∃ f ∈ p.sources env (p.flagText c) w, ∃ tokens,
        listed (p.ready env (p.flagText c) w).w.fs (mkdepname (objdir w.target) f) = some tokens ∧
        ∃ t ∈ tokens, o.mtime < mtimeOf (p.ready env (p.flagText c) w).w.fs t) :
    ∃ e ∈ execs (p.compile env gs w).2.w.log, e.1.ofOutput := by
  have hearly := p.early_iff hpkg hout htype gs w
  have hok : ∀ e ∈ execs (p.ready env (p.flagText c) w).w.log, okFate e.2 = true := fun e he => by
    obtain ⟨hmem, hno⟩ := (hearly e).mp he
    rcases not_ofOutput_iff.mp hno with hk | hk
    · exact hpch e hmem hk
    · exact absurd hk (hskip e hmem)
  have hforked : Forked (p.ready env (p.flagText c) w).w.log := fun e he hnone => by
    have h := hok e he
    rw [hnone] at h
    cases h
  have hstarted : started (p.ready env (p.flagText c) w).w.log = [] := by
    refine not_not.mp fun hne => ?_
    obtain ⟨e, he, hk⟩ := (p.started_iff hpkg hout htype gs w).mp hne
    exact hskip e he hk
  refine (p.writes_iff hpkg hout htype gs (p.reckoned hp _ (Or.inr hforked))).mpr ⟨hok, Or.inr ?_⟩
  cases hfile : (p.ready env (p.flagText c) w).w.fs p.outPath with
  | none => exact Or.inl (by rw [existsFile, hfile]; rfl)
  | some o =>
    right
    refine not_not.mp fun hfresh => ?_
    obtain ⟨o', ho', hmk, hnewest⟩ := isOlder_false.mp (Bool.eq_false_iff.mpr hfresh)
    obtain rfl : o = o' := Option.some.inj (hfile.symm.trans ho')
    rcases hold o hfile with hlt | ⟨f, hf, tokens, hl, t, ht, hlt⟩
    · omega
    · obtain ⟨k, hk, rfl⟩ := List.getElem_of_mem hf
      obtain ⟨tokens', hl', hle⟩ := ready_seen hstarted (List.getElem?_eq_getElem hk)
      rw [hstill k hk] at hl' hle
      obtain rfl : tokens' = tokens := Option.some.inj (hl'.symm.trans hl)
      have hseen := hle t ht
      omega

/-- A program linked at 3 from an object of 7 that is up to date; its source is of 5. -/
theorem old_program_is_written :
    let p := { Project.fresh .program "prog".toList with files := ["a.c".toList] }
    let fs : FS := (((FS.set (fun _ => none) "a.c".toList (some ⟨5, []⟩)).set "obj//a.o".toList
      (some ⟨7, []⟩)).set "obj//a.d".toList (some ⟨7, "a.o: a.c".toList⟩)).set "bin/prog".toList
      (some ⟨3, []⟩)
    ∃ e ∈ execs (p.compile (Env.quiet 1) [p] { World.empty with fs := fs }).2.w.log, e.1.ofOutput := by
  intro p fs
  refine old_output_is_written (w := { World.empty with fs := fs }) (p := p) (c := []) (l := [])
    ⟨List.nodup_nil, by simp [World.empty, World.children]⟩ rfl (by decide) (by decide) [p] ?_ ?_ ?_ ?_
  · decide +kernel
  · decide +kernel
  · intro k hk
    have hk : k < 1 := hk
    obtain rfl : k = 0 := by omega
    rfl
  · intro o ho
    have ho : some ⟨3, []⟩ = some o := ho
    obtain rfl := Option.some.inj ho
    exact Or.inr ⟨"a.c".toList, by decide +kernel, ["a.c".toList], by decide +kernel, "a.c".toList,
      by decide +kernel, by decide +kernel⟩

end Cake
