import Cake.Objects

/-! The commands a project issues.

    `Issues` lists the commands `compile()` of a project can start under a target: the compile of one
    of its sources, its precompiled header, and the link or archive of objects of its sources. What a
    pattern matches is up to the file system, so `fits` bounds what any listing of the history may
    answer. `path_compile` is the only place where `compile()` is taken apart: it moves the world along
    rules that allow these commands and the decisions of `needs_rebuild` and `is_older`. -/

namespace Cake

open Relation

/-- Every listing that may come answers a pattern with names that fit it. -/
def Env.Lists (env : Env) (fits : Str → Str → Prop) : Prop :=
  ∀ k g, Act.relist g ∈ env.sched k → ∀ pat, ∀ f ∈ g pat, fits pat f

/-- So does the present one. -/
def World.Lists (w : World) (fits : Str → Str → Prop) : Prop := ∀ pat, ∀ f ∈ w.glob pat, fits pat f

namespace Project

/-- `do_compile` may be called with `f`. -/
def hasSource (fits : Str → Str → Prop) (p : Project) (f : Str) : Prop :=
  ∃ pat ∈ p.patterns, f = pat ∨ fits pat f

def isObject (fits : Str → Str → Prop) (p : Project) (target o : Str) : Prop :=
  ∃ f, p.hasSource fits f ∧ o = mkobjname (objdir target) f

/-- The precompiled header of the project, empty when it has none. -/
def pchName (p : Project) (target : Str) : Str :=
  match p.files.find? isHeader with
  | none => []
  | some h => mkpchname (objdir target) h

/-- The archives a program is linked with through `m_depends`. -/
def archives (gs : List Project) (p : Project) : List Str := ((p.libDepends gs).getD []).map libName

/-- The commands of `compile()`. -/
inductive Issues (env : Env) (fits : Str → Str → Prop) (gs : List Project) (p : Project)
    (target : Str) : Cmd → Prop
  | compile {c : Str} {l : List Str} {f : Str} (hpkg : pkgConfig env p.pkgdepends = some (c, l))
      (hf : p.hasSource fits f) :
      Issues env fits gs p target (compileCmd (p.pchName target) target (p.flagText c) f)
  | pch {c : Str} {l : List Str} {h : Str} (hpkg : pkgConfig env p.pkgdepends = some (c, l))
      (hh : p.files.find? isHeader = some h) :
      Issues env fits gs p target (pchCmd target (p.flagText c) p.makingCpp h)
  | link {cmd : Cmd} (hp : p.type = .program) (hk : cmd.kind = .link) (ho : cmd.out = p.outPath)
      (hi : ∀ o ∈ cmd.ins, p.isObject fits target o) (hl : cmd.libs = p.archives gs) :
      Issues env fits gs p target cmd
  | ar {cmd : Cmd} (hp : p.type = .staticLibrary) (hk : cmd.kind = .ar) (ho : cmd.out = p.outPath)
      (hi : ∀ o ∈ cmd.ins, p.isObject fits target o) (hl : cmd.libs = []) :
      Issues env fits gs p target cmd

/-- `do_compile` may skip the source. -/
def Skips (env : Env) (fits : Str → Str → Prop) (p : Project) (target : Str) (cmd : Cmd)
    (w : World) : Prop :=
  w.target = target ∧ ∃ c l f, pkgConfig env p.pkgdepends = some (c, l) ∧ p.hasSource fits f ∧
    cmd = compileCmd (p.pchName target) target (p.flagText c) f ∧
    Stands w.fs w.makefileTime w.newestTime (mkdepname (objdir target) f) cmd.out

/-- `link` or `staticlib` may keep the output. -/
def Keeps (env : Env) (fits : Str → Str → Prop) (gs : List Project) (p : Project) (target : Str)
    (cmd : Cmd) (w : World) : Prop :=
  p.Issues env fits gs target cmd ∧ cmd.out = p.outPath ∧
    ∃ f, w.fs cmd.out = some f ∧ w.makefileTime ≤ f.mtime ∧ w.newestTime ≤ f.mtime

/-- What `compile()` may do. -/
def rules (env : Env) (fits : Str → Str → Prop) (gs : List Project) (p : Project) (target : Str) :
    Rules :=
  ⟨p.Issues env fits gs target, p.Skips env fits target, p.Keeps env fits gs target, True⟩

end Project

variable {env : Env} {R : Rules} {fits : Str → Str → Prop} {gs : List Project} {p : Project}

/-! ### What `glob` answers -/

theorem World.glob_land (pr : Proc) (w : World) : (w.land pr).glob = w.glob := by
  rw [World.land]; split <;> rfl

theorem World.glob_finish (pid : ℕ) (w : World) : (w.finish pid).glob = w.glob := by
  rw [World.finish]
  split
  · rfl
  · exact World.glob_land _ _

theorem Move.lists (henv : env.Lists fits) {w w' : World} (h : Move env R w w') :
    w.Lists fits → w'.Lists fits := by
  intro hw
  cases h with
  | @act k a ha =>
    cases a with
    | exit pid => rw [World.Lists, World.act, World.glob_finish]; exact hw
    | relist g => exact henv k g ha
    | tick d => exact hw
    | edit p data => exact hw
    | restore p f => exact hw
  | finish pid => rw [World.Lists, World.glob_finish]; exact hw
  | reap hpr hz he => exact hw
  | @start cmd h =>
    rw [World.fork]
    cases env.fork w.nfork cmd w.fs with
    | none => exact hw
    | some f => exact hw
  | aside _ _ _ => exact hw
  | say h => exact hw

theorem Path.lists (henv : env.Lists fits) {w w' : World} (h : Path env R w w') :
    w.Lists fits → w'.Lists fits :=
  Moves.keeps (I := fun w => w.Lists fits) (fun _ _ => Move.lists henv) h

/-! ### The build object keeps the name of its header -/

theorem harvest_pchname (ok : Bool) (code : ℕ) (o : Str) (b : Build) :
    (harvest ok code o b).pchname = b.pchname := by
  rw [harvest]; split <;> [rfl; (split <;> rfl)]

theorem addCompileJob_pchname (env : Env) (cmd : Cmd) (s : St) :
    (addCompileJob env cmd s).b.pchname = s.b.pchname := by
  have hp := pollSlots_keeps harvest_pchname env cmd s.b.jobs s
  rw [addCompileJob]
  rcases hq : pollSlots env cmd s.b.jobs s with ⟨_ | _, jobs, t⟩
  · rw [hq] at hp
    rw [← hp]
    dsimp only
    rw [stealSlot]
    cases t.b.jobs[env.frand t.w.nrand % t.b.jobs.length]? with
    | none => rfl
    | some j => exact harvest_pchname ..
  · rw [hq] at hp
    exact hp

theorem doCompile_pchname (env : Env) (cflags fname : Str) (s : St) :
    (doCompile env cflags fname s).b.pchname = s.b.pchname := by
  rw [doCompile]
  dsimp only [countSource]
  rcases needsRebuild _ _ _ _ _ _ with ⟨_ | _, newest⟩
  · rfl
  · exact addCompileJob_pchname ..

theorem buildPch_pchname (env : Env) (cmd : Cmd) (s : St) :
    (buildPch env cmd s).b.pchname = s.b.pchname := by
  rw [buildPch]; dsimp only; split <;> [rfl; (split <;> rfl)]

theorem makePch_pchname (env : Env) (pch cflags : Str) (cpp : Bool) (s : St) :
    (makePch env pch cflags cpp s).b.pchname = mkpchname (objdir s.w.target) pch :=
  makePch_keeps (P := fun t => t.b.pchname = mkpchname (objdir s.w.target) pch) (fun _ _ => rfl)
    fun t ht => (buildPch_pchname env _ t).trans ht

theorem Project.header_pchname (env : Env) (p : Project) (cflags : Str) (w : World) :
    (p.header env cflags w).b.pchname = p.pchName w.target := by
  rw [Project.header, Project.pchStep, Project.pchName]
  cases p.files.find? isHeader with
  | none => rfl
  | some h => exact makePch_pchname ..

/-! ### `compile()` -/

theorem path_compileAll {cflags pch target : Str} (src : Str → Prop)
    (hexec : ∀ f, src f → R.exec (compileCmd pch target cflags f))
    (hskip : ∀ f w, src f → w.target = target → Stands w.fs w.makefileTime w.newestTime
      (mkdepname (objdir target) f) (mkobjname (objdir target) f) →
      R.skip (compileCmd pch target cflags f) w) :
    ∀ (fs : List Str) (s : St), (∀ f ∈ fs, src f) → s.b.pchname = pch → s.w.target = target →
      Path env R s.w (compileAll env cflags fs s).w
  | [], _, _, _, _ => .refl
  | f :: fs, s, hf, hp, ht => by
    obtain ⟨hf, hfs⟩ := List.forall_mem_cons.mp hf
    have hstep : Path env R s.w (doCompile env cflags f s).w := by
      refine path_doCompile ?_ fun w hw hst => ?_
      · rw [hp, ht]; exact hexec f hf
      · rw [hp, ht]; rw [ht] at hst; exact hskip f w hf (hw.target.trans ht) hst
    exact hstep.trans (path_compileAll src hexec hskip fs (doCompile env cflags f s) hfs
      ((doCompile_pchname ..).trans hp) ((doCompile_target ..).trans ht))

theorem path_header {cflags : Str} {w : World}
    (hexec : ∀ h, p.files.find? isHeader = some h → R.exec (pchCmd w.target cflags p.makingCpp h)) :
    Path env R (newBuild env w).w (p.header env cflags w).w := by
  rw [Project.header, Project.pchStep]
  cases hf : p.files.find? isHeader with
  | none => exact .refl
  | some h => exact path_makePch (s := newBuild env w) (hexec h hf)

/-- The first move of `compile()`. -/
theorem Path.build (hR : R.build) {w v : World} (h : Path env R (newBuild env w).w v) :
    Path env R w v :=
  .head (.say (show R.says w (.build w.snap) from ⟨rfl, hR⟩)) h

theorem expand_source {w : World} (hw : w.Lists fits) {pat f : Str} (h : f ∈ expand w pat) :
    f = pat ∨ fits pat f := by
  unfold expand at h
  split at h
  · exact Or.inl (List.mem_singleton.mp h)
  · exact Or.inr (hw pat f h)

theorem visited_source (henv : env.Lists fits) (cflags : Str) : ∀ (ps : List Str) (s : St),
    s.w.Lists fits → ∀ f ∈ visited env cflags ps s, ∃ pat ∈ ps, f = pat ∨ fits pat f
  | [], _, _, f, h => by simp [visited] at h
  | pat :: ps, s, hw, f, h => by
    rcases List.mem_append.mp h with h | h
    · exact ⟨pat, List.mem_cons_self .., expand_source hw h⟩
    · have hpath : Path env .all s.w (compilePattern env cflags s pat).w := by
        rw [compilePattern_eq]
        exact path_compileAll (fun _ => True) (fun _ _ => trivial) (fun _ _ _ _ _ => trivial) _ s
          (fun _ _ => trivial) rfl rfl
      obtain ⟨q, hq, hf⟩ := visited_source henv cflags ps _ (hpath.lists henv hw) f h
      exact ⟨q, List.mem_cons_of_mem _ hq, hf⟩

theorem Project.sources_source (henv : env.Lists fits) {cflags : Str} {w : World}
    (hw : w.Lists fits) : ∀ f ∈ p.sources env cflags w, p.hasSource fits f := by
  have hpath : Path env .all w (p.header env cflags w).w := (path_header fun _ _ => trivial).build trivial
  exact visited_source henv cflags _ _ (hpath.lists henv hw)

/-- The state in which the output of the project is decided upon. -/
def Project.ready (env : Env) (p : Project) (cflags : Str) (w : World) : St :=
  decision env (p.after env cflags (p.sources env cflags w).length w)

theorem drain_pchname (env : Env) (js : List Job) (s : St) :
    (drain env js s).2.b.pchname = s.b.pchname := by
  induction js generalizing s with
  | nil => rfl
  | cons j js ih =>
    rw [drain]
    cases j.cmd.isActive with
    | false => exact ih s
    | true => exact (ih _).trans (harvest_pchname ..)

theorem decision_pchname (env : Env) (s : St) : (decision env s).b.pchname = s.b.pchname :=
  drain_pchname env _ _

theorem compileAll_pchname (env : Env) (cflags : Str) (fs : List Str) (s : St) :
    (compileAll env cflags fs s).b.pchname = s.b.pchname := by
  induction fs generalizing s with
  | nil => rfl
  | cons f fs ih => exact (ih _).trans (doCompile_pchname ..)

theorem Project.ready_pchname (env : Env) (p : Project) (cflags : Str) (w : World) :
    (p.ready env cflags w).b.pchname = p.pchName w.target := by
  rw [Project.ready, decision_pchname, Project.after, compileAll_pchname, p.header_pchname]

theorem decision_held (env : Env) (s : St) : (decision env s).b.held ≤ s.b.held :=
  (completeJobs_held env { s with w := s.w.yield env }).2

/-- `linklist` holds objects of the project's sources. -/
theorem Project.ready_objects (henv : env.Lists fits) {cflags : Str} {w : World} (hw : w.Lists fits) :
    ∀ o ∈ (p.ready env cflags w).b.linklist, p.isObject fits w.target o := by
  intro o ho
  obtain ⟨hz, ht⟩ := p.header_held env cflags w
  have hle : (p.ready env cflags w).b.held ≤ _ := (decision_held env _).trans
    (compileAll_held env cflags _ _)
  rw [hz, add_zero, ht, List.take_length] at hle
  have hmem : o ∈ (p.ready env cflags w).b.held :=
    Multiset.mem_add.mpr (Or.inl (Multiset.mem_coe.mpr ho))
  obtain ⟨f, hf, rfl⟩ := List.mem_map.mp (Multiset.mem_coe.mp (Multiset.mem_of_le hle hmem))
  exact ⟨f, sources_source henv hw f hf, rfl⟩

/-- The header and the sources move the world along any rules that allow the project's commands and
    the decisions of `needs_rebuild`. -/
theorem path_after (henv : env.Lists fits) {w : World} (hw : w.Lists fits) {c : Str} {l : List Str}
    (hpkg : pkgConfig env p.pkgdepends = some (c, l))
    (hexec : ∀ cmd, p.Issues env fits gs w.target cmd → World.hasDep cmd.kind = true → R.exec cmd)
    (hskip : ∀ cmd v, p.Skips env fits w.target cmd v → R.skip cmd v) (k : ℕ) :
    Path env R (newBuild env w).w (p.after env (p.flagText c) k w).w := by
  have hhead : Path env R (newBuild env w).w (p.header env (p.flagText c) w).w :=
    path_header fun h hh => hexec _ (.pch hpkg hh) rfl
  obtain ⟨-, ht⟩ := p.header_held env (p.flagText c) w
  refine hhead.trans (path_compileAll (p.hasSource fits) (fun f hf => hexec _ (.compile hpkg hf) rfl)
    (fun f v hf hv hst => hskip _ v ⟨hv, c, l, f, hpkg, hf, rfl, hst⟩) _ _ (fun f hf => ?_)
    (p.header_pchname ..) ht)
  exact Project.sources_source henv hw f (List.mem_of_mem_take hf)

/-- `compile()` moves the world along any rules that allow the project's commands and decisions. -/
theorem path_compile (henv : env.Lists fits) {w : World} (hw : w.Lists fits) (hbuild : R.build)
    (hexec : ∀ cmd, p.Issues env fits gs w.target cmd → R.exec cmd)
    (hskip : ∀ cmd v, p.Skips env fits w.target cmd v → R.skip cmd v)
    (hkept : ∀ c l, pkgConfig env p.pkgdepends = some (c, l) → ∀ cmd,
      p.Issues env fits gs w.target cmd → cmd.out = p.outPath →
      cmd.ins = (p.ready env (p.flagText c) w).b.linklist →
      (p.ready env (p.flagText c) w).b.nfailed = 0 →
      upToDate (p.ready env (p.flagText c) w) cmd.out = true →
      R.kept cmd (p.ready env (p.flagText c) w).w) :
    Path env R w (p.compile env gs w).2.w := by
  cases hpkg : pkgConfig env p.pkgdepends with
  | none =>
    rw [Project.compile]
    dsimp only
    rw [hpkg]
    exact Path.build hbuild .refl
  | some cl =>
    obtain ⟨c, l⟩ := cl
    rw [p.compile_eq env gs w hpkg]
    have hobj : ∀ o ∈ (p.ready env (p.flagText c) w).b.linklist, p.isObject fits w.target o :=
      Project.ready_objects henv hw
    have hafter : Path env R w
        (p.after env (p.flagText c) (p.sources env (p.flagText c) w).length w).w :=
      (path_after henv hw hpkg (fun cmd h _ => hexec cmd h) hskip _).build hbuild
    refine hafter.trans ?_
    replace hkept := hkept c l hpkg
    unfold Project.ready at hkept hobj
    generalize p.after env (p.flagText c) (p.sources env (p.flagText c) w).length w = s at hkept hobj
    rw [Project.outputStep]
    split
    · exact .refl
    · cases htype : p.type with
      | program =>
        have ho : outName p.outTarget = p.outPath := by simp only [Project.outPath, htype]
        have hi : ∀ libs, p.Issues env fits gs w.target
            (linkCmd p.outTarget (p.flagText c) libs (p.libDepends gs) (decision env s)) :=
          fun libs => .link htype rfl ho hobj rfl
        exact path_produce (hexec _ (hi _)) fun hn hup => hkept _ (hi _) ho rfl hn hup
      | staticLibrary =>
        have ho : libName p.outTarget = p.outPath := by simp only [Project.outPath, htype]
        have hi : p.Issues env fits gs w.target (arCmd p.outTarget (decision env s)) :=
          .ar htype rfl ho hobj rfl
        exact path_produce (hexec _ hi) fun hn hup => hkept _ hi ho rfl hn hup
      | sharedLibrary => exact .refl

theorem upToDate_fresh {s : St} {out : Str} (h : upToDate s out = true) :
    s.b.linklist.length = s.b.nskipped ∧
      ∃ f, s.w.fs out = some f ∧ s.w.makefileTime ≤ f.mtime ∧ s.w.newestTime ≤ f.mtime := by
  simp only [upToDate, Bool.and_eq_true, beq_iff_eq, Bool.not_eq_true'] at h
  exact ⟨h.1.1, isOlder_false.mp h.2⟩

/-- `compile()` keeps to the rules of its project. -/
theorem path_compile_rules (henv : env.Lists fits) {w : World} (hw : w.Lists fits) :
    Path env (p.rules env fits gs w.target) w (p.compile env gs w).2.w :=
  path_compile henv hw trivial (fun _ h => h) (fun _ _ h => h)
    fun _ _ _ _ hi ho _ _ hup => ⟨hi, ho, (upToDate_fresh hup).2⟩

end Cake
