import Cake.Files
import Cake.Verdicts

/-! Between two builds no child is left.

    Where every fork succeeds, a child of the build object is in one of its slots (`Staffed`), and
    `complete_jobs` empties them; the other commands are waited for at once. So `compile()` leaves the
    process table as empty as it was.

        child ──▶ slot ──wait──▶ reaped -/

namespace Cake

variable {env : Env} {w w' : World} {pre js jobs : List Job} {j : Job} {s : St} {cmd : Cmd}

/-- No fork fails. -/
def Env.Forks (env : Env) : Prop := ∀ k cmd fs, ∃ f, env.fork k cmd fs = some f

theorem World.PidsOk.path {R : Rules} (hp : Path env R w w') (h : w.PidsOk) : w'.PidsOk :=
  Moves.keeps (I := World.PidsOk) (fun _ _ hm h => h.move hm) hp h

/-! ### A command that is waited for at once -/

/-- The child whose status a blocking wait returns has exited. -/
theorem waitOne_zombie {pid : ℕ} {c : Cmd} {f : Fate} (hp : w.PidsOk)
    (hc : (pid, c, f) ∈ w.children) : ∃ pr ∈ (w.finish pid).procs, pr.pid = pid ∧ pr.cmd = c ∧
      pr.fate = f ∧ pr.zombie = true ∧ w.waitOne true pid =
        (((pid : ℤ), f.status.word), (w.finish pid).reap pr (.reaped pr)) := by
  have hsame := World.same_finish pid w
  obtain ⟨q, hq, hcore⟩ := List.mem_map.mp (hsame.children ▸ hc)
  simp only [Proc.core, Prod.mk.injEq] at hcore
  obtain ⟨hpid, hcmd, hfate⟩ := hcore
  have hz : q.zombie = true := by
    rw [World.procs_finish] at hq
    obtain ⟨q₀, -, rfl⟩ := List.mem_map.mp hq
    by_cases h : q₀.pid = pid
    · simp [h]
    · simp [h] at hpid
  have hfind : (w.finish pid).procs.find? (fun pr => pr.pid == pid) = some q := by
    cases hf : (w.finish pid).procs.find? (fun pr => pr.pid == pid) with
    | none => exact absurd (List.find?_eq_none.mp hf q hq) (by simp [hpid])
    | some q' =>
      have hpid' : q'.pid = pid := by simpa using List.find?_some hf
      rw [(hp.same hsame).unique (List.mem_of_find?_eq_some hf) hq (hpid'.trans hpid.symm)]
  refine ⟨q, hq, hpid, hcmd, hfate, hz, ?_⟩
  simp only [World.waitOne, if_true, hfind, hz, hpid, hfate]

/-- `ExecuteCommand` starts its child and returns when that child has exited, with its exit code, and
    leaves the other children where they were. -/
theorem execute_waits (R : Rules) {f : Fate} (hp : w.PidsOk)
    (hf : env.fork w.nfork cmd w.fs = some f) :
    ∃ v pr, Path env R (w.fork env cmd).2 v ∧ pr ∈ v.procs ∧ pr.cmd = cmd ∧ pr.fate = f ∧
      pr.zombie = true ∧ (v.reap pr (.reaped pr)).children = w.children ∧
      executeCommand env cmd w = (true, wexitstatus f.status.word, v.reap pr (.reaped pr)) := by
  rcases hfork : w.fork env cmd with ⟨⟨pid, fate⟩, u⟩
  obtain ⟨-, -, -, -, rfl, ⟨hn, -⟩ | ⟨f', hf', rfl, hch⟩⟩ := World.fork_cases env cmd w hfork
  · rw [hf] at hn; cases hn
  obtain rfl : f = f' := Option.some.inj (hf.symm.trans hf')
  have hu : (w.fork env cmd).2 = u := congrArg Prod.snd hfork
  have hchy : (u.yield env).children = w.children ++ [(w.nfork + 1, cmd, f)] :=
    (World.same_yield env u).children.trans hch
  have hpids : (u.yield env).PidsOk := (hu ▸ hp.fork env cmd).same (World.same_yield env u)
  obtain ⟨pr, hpr, hpid, hcmd, hfate, hz, hwait⟩ := waitOne_zombie hpids
    (show (w.nfork + 1, cmd, f) ∈ _ by rw [hchy]; simp)
  refine ⟨(u.yield env).finish (w.nfork + 1), pr, (path_yield env R u).tail (.finish _), hpr, hcmd,
    hfate, hz, ?_, ?_⟩
  · rw [World.children_reap, (World.same_finish _ _).children, hchy, hpid, List.filter_append]
    have hold : ∀ x ∈ w.children, x.1 ≠ w.nfork + 1 := fun x hx => by
      have := hp.bound x hx; omega
    simpa [List.filter_eq_self] using hold
  · have hact : ((((w.nfork + 1 : ℕ) : ℤ) != 0) = true) := by rw [bne_iff_ne]; omega
    have hwp : u.waitpid env true ((w.nfork + 1 : ℕ) : ℤ) = ((((w.nfork + 1 : ℕ) : ℤ), f.status.word),
        ((u.yield env).finish (w.nfork + 1)).reap pr (.reaped pr)) := by
      rw [World.waitpid, if_neg (by omega), Int.toNat_natCast]
      exact hwait
    simp only [executeCommand, Command.begin, hfork, Command.wait, Command.isActive, hact,
      Bool.not_true, Bool.false_eq_true, if_false, hwp, if_true, hf]

/-- The moves of `ExecuteCommand`, from the start of the command on. -/
theorem execute_forked {R : Rules} {f : Fate} (hp : w.PidsOk) (hR : R.exec cmd)
    (hf : env.fork w.nfork cmd w.fs = some f) :
    ∃ v pr, Path env R w v ∧ pr ∈ v.procs ∧ pr.cmd = cmd ∧ pr.fate = f ∧ pr.zombie = true ∧
      (v.reap pr (.reaped pr)).children = w.children ∧
      executeCommand env cmd w = (true, wexitstatus f.status.word, v.reap pr (.reaped pr)) := by
  obtain ⟨v, pr, hpath, hrest⟩ := execute_waits R hp hf
  exact ⟨v, pr, .head (.start hR) hpath, hrest⟩

/-! ### Every child is in a slot -/

/-- Every child was there before, or a slot is busy with it. -/
structure Manned (old : List (ℕ × Cmd × Fate)) (w : World) (jobs : List Job) : Prop where
  pids : w.PidsOk
  slot : ∀ x ∈ w.children, x ∈ old ∨ ∃ j ∈ jobs, j.cmd.pid = x.1

structure Staffed (w : World) (jobs : List Job) : Prop where
  pids : w.PidsOk
  slot : ∀ x ∈ w.children, ∃ j ∈ jobs, j.cmd.pid = x.1

theorem staffed_iff : Staffed w jobs ↔ Manned [] w jobs := by
  constructor
  · intro h
    exact ⟨h.pids, fun x hx => Or.inr (h.slot x hx)⟩
  · intro h
    exact ⟨h.pids, fun x hx => (h.slot x hx).resolve_left List.not_mem_nil⟩

variable {old : List (ℕ × Cmd × Fate)}

theorem Manned.shrink (h : Manned old w jobs) (hp : w'.PidsOk)
    (hc : ∀ x ∈ w'.children, x ∈ w.children) : Manned old w' jobs :=
  ⟨hp, fun x hx => h.slot x (hc x hx)⟩

/-- A slot whose pid is no child's is not needed. -/
theorem Manned.drop (h : Manned old w (pre ++ j :: js)) (hj : ∀ x ∈ w.children, j.cmd.pid ≠ x.1) :
    Manned old w (pre ++ js) := by
  refine ⟨h.pids, fun x hx => (h.slot x hx).imp_right ?_⟩
  rintro ⟨i, hi, hpid⟩
  rcases List.mem_cons.mp (List.perm_middle.mem_iff.mp hi) with rfl | hi
  · exact absurd hpid (hj x hx)
  · exact ⟨i, hi, hpid⟩

theorem Manned.add (h : Manned old w (pre ++ js)) (j : Job) : Manned old w (pre ++ j :: js) := by
  refine ⟨h.pids, fun x hx => (h.slot x hx).imp_right ?_⟩
  rintro ⟨i, hi, hpid⟩
  exact ⟨i, List.perm_middle.mem_iff.mpr (List.mem_cons_of_mem _ hi), hpid⟩

/-- `waitpid` takes at most one child away; when it blocks or answers with the pid it was asked for,
    there is no such child afterwards. -/
theorem waitpid_gone {block : Bool} {pid : ℤ} {r : ℤ} {status : ℕ}
    (hw : w.waitpid env block pid = ((r, status), w')) :
    (∀ x ∈ w'.children, x ∈ w.children) ∧
      (r = pid ∨ block = true → pid ≠ 0 → ∀ x ∈ w'.children, pid ≠ x.1) := by
  have hy := (World.same_yield env w).children
  rw [World.waitpid] at hw
  generalize w.yield env = v at hw hy
  have hsub : ∀ {k : ℕ}, World.Reaped k v w' → ∀ x ∈ w'.children, x ∈ w.children := fun hr x hx => by
    rw [hr.children, hy] at hx; exact (List.mem_filter.mp hx).1
  split at hw
  · rename_i hpid
    subst hpid
    refine ⟨?_, fun _ _ x _ => by omega⟩
    rcases World.any_cases _ _ _ hw with ⟨-, rfl⟩ | ⟨-, -, hs⟩ | ⟨k, c, f, -, -, hr, -⟩
    · intro x hx; rw [← hy]; exact hx
    · intro x hx; rw [← hy, ← hs.children]; exact hx
    · exact hsub hr
  · obtain ⟨-, ⟨c, f, -, -, -, hr⟩ | ⟨hs, hno⟩⟩ := World.own_cases _ _ _ hw
    · refine ⟨hsub hr, fun _ _ x hx hpid => ?_⟩
      rw [hr.children] at hx
      have := (List.mem_filter.mp hx).2
      simp [hpid] at this
    · refine ⟨fun x hx => by rw [← hy, ← hs.children]; exact hx, fun hor hne x hx hpid => ?_⟩
      rcases hno with ⟨-, hno⟩ | ⟨hb, hr⟩
      · rw [hs.children] at hx
        exact hno x hx (by omega)
      · rcases hor with hor | hor
        · exact hne (by omega)
        · rw [hb] at hor; cases hor

theorem pid_ne_zero {c : Command} (h : c.isActive = true) : c.pid ≠ 0 := by
  simpa [Command.isActive] using h

theorem Manned.query {c : Command} {done : Bool} (h : Manned old w (pre ++ j :: js))
    (hact : j.cmd.isActive = true) (hq : j.cmd.queryComplete env w = (done, c, w')) :
    (done = true → Manned old w' (pre ++ js)) ∧ (done = false → Manned old w' (pre ++ j :: js)) := by
  have hpids := h.pids.path (path_query (R := .all) hq)
  obtain ⟨r, status, hw, ⟨hr, rfl, rfl⟩ | ⟨hr, rfl, rfl⟩⟩ := Command.query_busy hact hq
  · obtain ⟨hsub, hgone⟩ := waitpid_gone hw
    exact ⟨fun _ => (h.shrink hpids hsub).drop (hgone (Or.inl hr) (pid_ne_zero hact)), by simp⟩
  · exact ⟨by simp, fun _ => h.shrink hpids (waitpid_gone hw).1⟩

theorem Manned.wait {c : Command} {ok : Bool} (h : Manned old w (pre ++ j :: js))
    (hact : j.cmd.isActive = true) (hq : j.cmd.wait env w = (ok, c, w')) :
    Manned old w' (pre ++ js) := by
  have hpids := h.pids.path (path_wait (R := .all) hq)
  obtain ⟨r, status, hw, -⟩ := Command.wait_busy hact hq
  obtain ⟨hsub, hgone⟩ := waitpid_gone hw
  exact (h.shrink hpids hsub).drop (hgone (Or.inr rfl) (pid_ne_zero hact))

theorem Manned.start (env : Env) (h : Manned old s.w (pre ++ js)) :
    Manned old (startJob env cmd s).2.w (pre ++ (startJob env cmd s).1 :: js) := by
  rw [startJob_eq]
  have hpids := h.pids.fork env cmd
  dsimp only
  rw [Command.begin]
  rcases hf : s.w.fork env cmd with ⟨⟨pid, fate⟩, v⟩
  rw [hf] at hpids
  obtain ⟨-, -, -, -, -, ⟨-, -, hch⟩ | ⟨f, -, rfl, hch⟩⟩ := World.fork_cases env cmd s.w hf
  · exact (h.shrink hpids fun x hx => hch ▸ hx).add _
  · refine ⟨hpids, fun x hx => ?_⟩
    dsimp only at hx
    rw [hch] at hx
    rcases List.mem_append.mp hx with hx | hx
    · exact (h.add _).slot x hx
    · exact Or.inr ⟨_, List.mem_append_right _ (List.mem_cons_self ..), by rw [List.mem_singleton.mp hx]⟩

/-- Every way of working through the slots keeps the children in them. -/
theorem Manned.discipline (env : Env) (old : List (ℕ × Cmd × Fate)) :
    Discipline env (fun _ jobs s => Manned old s.w jobs) where
  dropFree h hj := h.drop fun x hx => by
    have := h.pids.bound x hx
    rw [pid_of_free hj]; omega
  addFree h _ := h.add _
  start h _ := h.start env
  query h hact hq := h.query hact hq
  wait h hact hq := h.wait hact hq
  same h hw := h.shrink (h.pids.same hw) fun x hx => hw.children ▸ hx
  setJobs h _ := h
  count h := h
  skip h := ⟨⟨h.pids.nodup, h.pids.bound⟩, h.slot⟩

/-- A command that is waited for at once: a slot for as long as it runs. -/
theorem Manned.execute {ok : Bool} {code : ℕ} (h : Manned old w jobs)
    (hq : executeCommand env cmd w = (ok, code, w')) : Manned old w' jobs := by
  obtain ⟨c, v, c', hb, hw, -⟩ := executeCommand_cases hq
  have hstart : Manned old (startJob env cmd ⟨(newBuild env w).b, w⟩).2.w
      ([] ++ (startJob env cmd ⟨(newBuild env w).b, w⟩).1 :: jobs) := Manned.start env h
  rw [startJob_eq] at hstart
  simp only [hb] at hstart
  exact Manned.wait (j := ⟨c, cmd.out⟩) hstart (Command.begin_active hb) hw

theorem Manned.buildPch (h : Manned old s.w jobs) : Manned old (buildPch env cmd s).w jobs := by
  rw [buildPch_world]
  exact h.execute rfl

theorem Manned.buildOutput (h : Manned old s.w jobs) : Manned old (buildOutput env cmd s).2.w jobs := by
  rw [buildOutput_world]
  exact h.execute rfl

theorem Manned.makePch (pch cflags : Str) (cpp : Bool) (h : Manned old s.w jobs) :
    Manned old (makePch env pch cflags cpp s).w jobs := by
  obtain ⟨⟨hnodup, hbound⟩, hslot⟩ : Manned old (s.w.yield env) jobs :=
    h.shrink (h.pids.same (World.same_yield env s.w)) fun x hx => (World.same_yield env s.w).children ▸ hx
  exact makePch_keeps (P := fun t => Manned old t.w jobs) (fun _ _ => ⟨⟨hnodup, hbound⟩, hslot⟩)
    fun _ ht => ht.buildPch

/-- When no slot is busy only the old children are left. -/
theorem Manned.only_old (h : Manned old w jobs) (hfree : ∀ j ∈ jobs, j.cmd.isActive = false) :
    ∀ x ∈ w.children, x ∈ old := by
  intro x hx
  rcases h.slot x hx with hold | ⟨j, hj, hpid⟩
  · exact hold
  · have hpos := (h.pids.bound x hx).1
    rw [pid_of_free (hfree j hj)] at hpid
    omega

/-! ### `compile()` -/

theorem doCompile_length (env : Env) (cflags fname : Str) (s : St) :
    (doCompile env cflags fname s).b.jobs.length = s.b.jobs.length := settle_length ..

theorem doCompile_ne_nil (env : Env) (cflags fname : Str) (h : s.b.jobs ≠ []) :
    (doCompile env cflags fname s).b.jobs ≠ [] := by
  rw [← List.length_pos_iff, doCompile_length, List.length_pos_iff]
  exact h

/-- What is kept by the rules for one slot is kept by all the sources. -/
theorem Discipline.compileAll {Q : ℕ → List Job → St → Prop} (D : Discipline env Q) {n : ℕ}
    (cflags : Str) (fs : List Str) (s : St) (h : Q n s.b.jobs s) (hne : s.b.jobs ≠ []) :
    Q n (compileAll env cflags fs s).b.jobs (compileAll env cflags fs s) := by
  induction fs generalizing s with
  | nil => exact h
  | cons f fs ih =>
    exact ih (Cake.doCompile env cflags f s) (D.doCompile cflags f h hne)
      (doCompile_ne_nil env cflags f hne)

theorem header_jobs (env : Env) (p : Project) (cflags : Str) (w : World) :
    (p.header env cflags w).b.jobs = (newBuild env w).b.jobs := by
  rw [Project.header, Project.pchStep]
  cases p.files.find? isHeader with
  | none => rfl
  | some h => exact makePch_jobs ..

theorem newBuild_idle (env : Env) (w : World) : ∀ j ∈ (newBuild env w).b.jobs, j.cmd.isActive = false :=
  fun j hj => by
    rw [List.eq_of_mem_replicate hj]
    rfl

theorem newBuild_ne_nil (env : Env) (w : World) : (newBuild env w).b.jobs ≠ [] := by
  rw [← List.length_pos_iff]
  simp [newBuild]

theorem header_busy (env : Env) (p : Project) (cflags : Str) (w : World) :
    (p.header env cflags w).b.jobs ≠ [] := by
  rw [header_jobs]
  exact newBuild_ne_nil env w

/-- What holds of a new build object and survives the header holds after the sources. -/
theorem Project.after_keeps {Q : ℕ → List Job → St → Prop} (D : Discipline env Q) (p : Project)
    (cflags : Str) (w : World) (hnew : Q 0 (newBuild env w).b.jobs (newBuild env w))
    (hpch : ∀ h, Q 0 (newBuild env w).b.jobs (makePch env h cflags p.makingCpp (newBuild env w)))
    (k : ℕ) : Q 0 (p.after env cflags k w).b.jobs (p.after env cflags k w) := by
  have hhead : Q 0 (p.header env cflags w).b.jobs (p.header env cflags w) := by
    rw [header_jobs, Project.header, Project.pchStep]
    cases p.files.find? isHeader with
    | none => exact hnew
    | some h => exact hpch h
  exact D.compileAll cflags ((p.sources env cflags w).take k) _ hhead (header_busy env p cflags w)

/-- It holds when the output is decided upon, and then no slot is busy. -/
theorem Project.ready_keeps {Q : ℕ → List Job → St → Prop} (D : Discipline env Q) (p : Project)
    (cflags : Str) (w : World) (hnew : Q 0 (newBuild env w).b.jobs (newBuild env w))
    (hpch : ∀ h, Q 0 (newBuild env w).b.jobs (makePch env h cflags p.makingCpp (newBuild env w))) :
    Q 0 (p.ready env cflags w).b.jobs (p.ready env cflags w) ∧
      ∀ j ∈ (p.ready env cflags w).b.jobs, j.cmd.isActive = false :=
  D.completeJobs (D.same (p.after_keeps D cflags w hnew hpch _) (World.same_yield env _))

/-- No child is in the table. -/
structure Alone (w : World) : Prop where
  pids : w.PidsOk
  procs : w.procs = []

theorem alone_of_procs (h : w.procs = []) : Alone w := by
  have hc : w.children = [] := by rw [World.children, h, List.map_nil]
  exact ⟨⟨by rw [hc]; exact List.nodup_nil, by simp [hc]⟩, h⟩

theorem Alone.same (h : Alone w) (hs : w.Same w') : Alone w' := by
  refine ⟨h.pids.same hs, ?_⟩
  have hc := hs.children
  rw [World.children, World.children, h.procs] at hc
  exact List.map_eq_nil_iff.mp hc

theorem Staffed.alone (h : Staffed w jobs) (hfree : ∀ j ∈ jobs, j.cmd.isActive = false) : Alone w := by
  have hc : w.children = [] := by
    rw [List.eq_nil_iff_forall_not_mem]
    intro x hx
    exact absurd ((staffed_iff.mp h).only_old hfree x hx) List.not_mem_nil
  exact ⟨h.pids, List.map_eq_nil_iff.mp hc⟩

theorem Manned.newBuild (env : Env) (h : w.PidsOk) :
    Manned w.children (newBuild env w).w (newBuild env w).b.jobs :=
  ⟨⟨h.nodup, h.bound⟩, fun _ hx => Or.inl hx⟩

/-- When the output is decided upon, every compiler has been waited for. -/
theorem Manned.ready (h : w.PidsOk) (p : Project) (cflags : Str) :
    Manned w.children (p.ready env cflags w).w (p.ready env cflags w).b.jobs ∧
      ∀ j ∈ (p.ready env cflags w).b.jobs, j.cmd.isActive = false :=
  p.ready_keeps (Manned.discipline env w.children) cflags w (.newBuild env h)
    fun pch => (Manned.newBuild env h).makePch pch cflags p.makingCpp

/-- What holds of every command that may be started holds of all that the build has started. -/
theorem Path.execs {R : Rules} {P : Cmd × Option Fate → Prop}
    (hP : ∀ k cmd fs, R.exec cmd → P (cmd, env.fork k cmd fs)) (hp : Path env R w w')
    (h : ∀ e ∈ execs w.log, P e) : ∀ e ∈ Cake.execs w'.log, P e := by
  refine Moves.keeps (I := fun w => ∀ e ∈ Cake.execs w.log, P e) (fun u v hm hu => ?_) hp h
  rcases hm.log_cases with heq | ⟨e, heq, he⟩
  · rwa [heq]
  · rw [heq]
    cases e with
    | exec cmd fate =>
      obtain ⟨hcmd, rfl⟩ := he
      exact List.forall_mem_cons.mpr ⟨hP _ _ _ hcmd, hu⟩
    | build v => exact fun x hx => absurd hx List.not_mem_nil
    | _ => exact hu

/-- The moves of the build up to the decision about its output. -/
theorem Project.path_ready (env : Env) (p : Project) (cflags : Str) (w : World) :
    Path env .all (newBuild env w).w (p.ready env cflags w).w := by
  have hhead : Path env .all (newBuild env w).w (p.header env cflags w).w := by
    rw [Project.header, Project.pchStep]
    cases p.files.find? isHeader with
    | none => exact .refl
    | some h => exact path_makePch trivial
  have hafter : Path env .all (p.header env cflags w).w
      (p.after env cflags (p.sources env cflags w).length w).w :=
    path_compileAll (fun _ => True) (fun _ _ => trivial) (fun _ _ _ _ _ => trivial) _ _
      (fun _ _ => trivial) rfl rfl
  exact (hhead.trans hafter).trans (path_decision _)

theorem Project.ready_forked (hforks : env.Forks) (p : Project) (cflags : Str) (w : World) :
    Forked (p.ready env cflags w).w.log :=
  (p.path_ready env cflags w).execs (fun k cmd fs _ => by
    obtain ⟨f, hf⟩ := hforks k cmd fs
    rw [hf]
    exact Option.some_ne_none f) fun _ he => absurd he List.not_mem_nil

/-- What the counters say of a build whose compiles are over. -/
structure Reckoned (s : St) : Prop where
  failed : s.b.nfailed = 0 ↔ ∀ e ∈ execs s.w.log, okFate e.2 = true
  linklist : (s.b.linklist : Multiset Str) = (skips s.w.log : Multiset Str) +
    (((started s.w.log).filter (fun t => okFate t.2)).map Prod.fst : List Str)
  skipped : s.b.nskipped = (skips s.w.log).length

/-- A command that was started is a compile or was waited for at once. -/
theorem all_ok_iff {log : List Ev} : (∀ e ∈ execs log, okFate e.2 = true) ↔
    (∀ t ∈ started log, okFate t.2 = true) ∧ ∀ e ∈ execs log, otherBad e = false := by
  constructor
  · intro h
    refine ⟨fun t ht => ?_, fun e he => by simp [otherBad, h e he]⟩
    obtain ⟨e, he, rfl⟩ := List.mem_map.mp ht
    exact h e (List.mem_filter.mp he).1
  · rintro ⟨hc, ho⟩ e he
    by_cases hk : e.1.kind = .compile
    · exact hc _ (List.mem_map.mpr ⟨e, List.mem_filter.mpr ⟨he, by simp [hk]⟩, rfl⟩)
    · simpa [otherBad, hk] using ho e he

theorem Acct.reckoned {l : Ledger Task} (h : Acct 0 0 s l) : Reckoned s := by
  obtain ⟨hrun, htot, hsound, hlink, -, hfail, -, hskip, -⟩ := h
  have hset : l.good + l.bad = (started s.w.log : Multiset Task) := by
    rw [← htot, Ledger.total, hrun, zero_add]
  have hgood := hsound.good_eq
  have hbad := hsound.bad_eq
  rw [hset, Multiset.filter_coe] at hgood hbad
  refine ⟨?_, ?_, hskip⟩
  · rw [all_ok_iff, hfail, Nat.add_eq_zero_iff, hbad, Multiset.coe_card, List.length_eq_zero_iff,
      List.filter_eq_nil_iff, List.countP_eq_zero]
    simp
  · rw [hlink, hgood, Multiset.map_coe]
    simp

/-- On a trusted log the counters can be read when the output is decided upon. -/
theorem Project.reckoned (hp : w.PidsOk) (p : Project) (cflags : Str)
    (ht : Trusted (p.ready env cflags w).w.log) : Reckoned (p.ready env cflags w) := by
  obtain ⟨hb, hfree⟩ := p.ready_keeps (Books.discipline env) cflags w (books_newBuild env hp)
    fun h => (books_newBuild env hp).makePch env h cflags p.makingCpp
  obtain ⟨-, -, l, ha⟩ := hb ht
  have htasks : (p.ready env cflags w).b.jobs.filterMap Job.task = [] := by
    rw [List.filterMap_eq_nil_iff]
    exact fun j hj => by simp [Job.task, hfree j hj]
  rw [htasks] at ha
  exact ha.reckoned

/-- When nothing has failed, the counters say that there were no recompiles exactly when there were
    none. -/
theorem Reckoned.no_recompiles (h : Reckoned s) (hn : s.b.nfailed = 0) :
    s.b.linklist.length = s.b.nskipped ↔ started s.w.log = [] := by
  have hall := (all_ok_iff.mp (h.failed.mp hn)).1
  have hcard := congrArg Multiset.card h.linklist
  rw [List.filter_eq_self.mpr hall] at hcard
  simp only [Multiset.coe_card, Multiset.card_add, List.length_map] at hcard
  rw [hcard, h.skipped, ← List.length_eq_zero_iff]
  omega

/-- A build whose forks all succeed has counted the compiles it has started. If nothing failed and the
    counters say that there were no recompiles, there were none, and `linklist` holds the objects of
    the skipped sources. -/
theorem nothing_compiled (hforks : env.Forks) (hp : w.PidsOk) (p : Project) (cflags : Str)
    (hn : (p.ready env cflags w).b.nfailed = 0)
    (hl : (p.ready env cflags w).b.linklist.length = (p.ready env cflags w).b.nskipped) :
    started (p.ready env cflags w).w.log = [] ∧
      (p.ready env cflags w).b.linklist.Perm (skips (p.ready env cflags w).w.log) := by
  have hr := p.reckoned hp cflags (Or.inr (p.ready_forked hforks cflags w))
  have hst := (hr.no_recompiles hn).mp hl
  have hlink := hr.linklist
  rw [hst, List.filter_nil, List.map_nil, Multiset.coe_nil, add_zero] at hlink
  exact ⟨hst, Multiset.coe_eq_coe.mp hlink⟩

theorem produce_jobs (env : Env) (mkCmd : St → Cmd) (s : St) :
    (produce env mkCmd s).2.b.jobs = (decision env s).b.jobs := by
  rw [produce, decision]
  split
  · rfl
  · split
    · rfl
    · exact buildOutput_jobs ..

theorem Manned.produce {mkCmd : St → Cmd} (h : Manned old (decision env s).w jobs) :
    Manned old (produce env mkCmd s).2.w jobs := by
  rw [Cake.produce]
  rw [decision] at h
  split
  · exact h
  · split
    · exact ⟨⟨h.pids.nodup, h.pids.bound⟩, h.slot⟩
    · exact h.buildOutput

/-- The commands `compile()` builds for the project's output. -/
structure Project.MakesOutput (p : Project) (mkCmd : St → Cmd) : Prop where
  kind : ∀ s, (mkCmd s).kind = .link ∨ (mkCmd s).kind = .ar
  out : ∀ s, (mkCmd s).out = p.outPath
  ins : ∀ s, (mkCmd s).ins = s.b.linklist
  argv : ∀ s, (mkCmd s).argv.Nodup ∧ ∀ o ∈ s.b.linklist, o ∈ (mkCmd s).argv

/-- The last step of `compile()` for a project that has an output. -/
theorem Project.compile_produce {p : Project} {c : Str} {l : List Str}
    (hpkg : pkgConfig env p.pkgdepends = some (c, l)) (hout : p.outTarget ≠ [])
    (htype : p.type ≠ .sharedLibrary) (gs : List Project) (w : World) :
    ∃ mkCmd, p.MakesOutput mkCmd ∧ p.compile env gs w = produce env mkCmd
      (p.after env (p.flagText c) (p.sources env (p.flagText c) w).length w) := by
  rw [p.compile_eq env gs w hpkg, Project.outputStep, if_neg (by simpa using hout)]
  cases ht : p.type with
  | program =>
    refine ⟨_, ⟨fun _ => Or.inl rfl, fun _ => ?_, fun _ => rfl, fun _ => ?_⟩, rfl⟩
    · rw [Project.outPath, ht]; rfl
    · exact ⟨linkArgs_nodup .., fun o => linkArgs_mem⟩
  | staticLibrary =>
    refine ⟨_, ⟨fun _ => Or.inr rfl, fun _ => ?_, fun _ => rfl, fun _ => ?_⟩, rfl⟩
    · rw [Project.outPath, ht]; rfl
    · exact ⟨arArgs_nodup .., fun o => arArgs_mem⟩
  | sharedLibrary => exact absurd ht htype

/-- A project without an output: `compile()` returns after the sources. -/
theorem Project.compile_unnamed {p : Project} {c : Str} {l : List Str}
    (hpkg : pkgConfig env p.pkgdepends = some (c, l))
    (hno : ¬ (p.outTarget ≠ [] ∧ p.type ≠ .sharedLibrary)) (gs : List Project) (w : World) :
    p.compile env gs w =
      (false, p.after env (p.flagText c) (p.sources env (p.flagText c) w).length w) := by
  rw [p.compile_eq env gs w hpkg, Project.outputStep]
  split
  · rfl
  · rename_i hout
    cases ht : p.type with
    | sharedLibrary => rfl
    | program => exact absurd ⟨by simpa using hout, by simp [ht]⟩ hno
    | staticLibrary => exact absurd ⟨by simpa using hout, by simp [ht]⟩ hno

/-- `compile()` of a project that has an output waits for all the children it has started. -/
theorem Manned.compile (h : w.PidsOk) {p : Project} (hout : p.outTarget ≠ [])
    (htype : p.type ≠ .sharedLibrary) (gs : List Project) :
    Manned w.children (p.compile env gs w).2.w (p.compile env gs w).2.b.jobs ∧
      ∀ j ∈ (p.compile env gs w).2.b.jobs, j.cmd.isActive = false := by
  cases hpkg : pkgConfig env p.pkgdepends with
  | none =>
    rw [Project.compile]
    simp only [hpkg]
    exact ⟨⟨⟨h.nodup, h.bound⟩, fun x hx => Or.inl hx⟩, newBuild_idle env w⟩
  | some cl =>
    obtain ⟨c, l⟩ := cl
    obtain ⟨mkCmd, -, heq⟩ := p.compile_produce hpkg hout htype gs w
    obtain ⟨hm, hfree⟩ := Manned.ready h p (p.flagText c)
    rw [Project.ready] at hm hfree
    rw [heq, produce_jobs]
    exact ⟨hm.produce, hfree⟩

theorem Alone.compile (h : Alone w) {p : Project} (hout : p.outTarget ≠ [])
    (htype : p.type ≠ .sharedLibrary) (gs : List Project) : Alone (p.compile env gs w).2.w := by
  obtain ⟨hm, hfree⟩ := Manned.compile h.pids hout htype gs
  rw [World.children, h.procs, List.map_nil] at hm
  exact (staffed_iff.mpr hm).alone hfree

/-- The header is waited for at once. -/
theorem Alone.header (h : Alone w) (p : Project) (cflags : Str) : Alone (p.header env cflags w).w := by
  have hm : Manned w.children (p.header env cflags w).w (newBuild env w).b.jobs := by
    rw [Project.header, Project.pchStep]
    cases p.files.find? isHeader with
    | none => exact .newBuild env h.pids
    | some hd => exact (Manned.newBuild env h.pids).makePch hd cflags p.makingCpp
  rw [World.children, h.procs, List.map_nil] at hm
  exact (staffed_iff.mpr hm).alone (newBuild_idle env w)

end Cake
