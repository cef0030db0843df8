import Cake.Parallel

/-! How many children there are at a time.

    `inFlight` reads off the log how many of the commands that were started have not been reaped. A
    compile is started when a slot is free, so fewer compiles are in flight than there are slots; the
    precompiled header, the linker and the archiver are started when nothing is.

        header  │ compile compile … │ link     header │ compile …
        alone   │ at most n         │ alone    alone  │ -/

namespace Cake

variable {env : Env} {R : Rules} {w w' : World} {pre js jobs : List Job} {j : Job} {s : St} {cmd : Cmd}
  {p : Project} {n : ℕ}

/-- The children that have been started and not been reaped. -/
def inFlight : List Ev → ℕ
  | [] => 0
  | .exec _ (some _) :: log => inFlight log + 1
  | .reaped _ :: log => inFlight log - 1
  | .stolen _ :: log => inFlight log - 1
  | _ :: log => inFlight log

/-- A compile is started while fewer than `n` children are in flight, any other command while none is. -/
def Loaded (n : ℕ) (e : Ev) (earlier : List Ev) : Prop :=
  match e with
  | .exec cmd _ => if cmd.kind = .compile then inFlight earlier < n else inFlight earlier = 0
  | _ => True

/-! ### The log and the process table -/

/-- The log accounts for the children in the table. -/
structure Tally (w : World) : Prop where
  pids : w.PidsOk
  count : inFlight w.log = w.procs.length

theorem length_children (w : World) : w.children.length = w.procs.length := List.length_map ..

theorem inFlight_finish (pid : ℕ) (w : World) : inFlight (w.finish pid).log = inFlight w.log := by
  rcases w.log_finish pid with heq | ⟨pr, -, -, -, heq⟩
  · rw [heq]
  · rw [heq]
    rfl

theorem inFlight_act (w : World) (a : Act) : inFlight (w.act a).log = inFlight w.log := by
  cases a with
  | exit pid => exact inFlight_finish pid w
  | _ => rfl

theorem Tally.act (h : Tally w) (a : Act) : Tally (w.act a) := by
  refine ⟨h.pids.same (w.same_act a), ?_⟩
  rw [inFlight_act, h.count, ← length_children, ← length_children, (w.same_act a).children]

/-- One child leaves the table. -/
theorem length_reap {k : ℕ} : ∀ {l : List Proc}, (l.map Proc.pid).Nodup → k ∈ l.map Proc.pid →
    (l.filter fun q => q.pid ≠ k).length + 1 = l.length
  | [], _, hk => absurd hk List.not_mem_nil
  | q :: l, hnodup, hk => by
    rw [List.map_cons, List.nodup_cons] at hnodup
    by_cases hq : q.pid = k
    · have hrest : l.filter (fun q => q.pid ≠ k) = l := by
        rw [List.filter_eq_self]
        intro r hr
        rw [decide_eq_true_eq]
        rintro rfl
        exact hnodup.1 (hq ▸ List.mem_map_of_mem hr)
      rw [List.filter_cons_of_neg (by simp [hq]), hrest, List.length_cons]
    · rw [List.filter_cons_of_pos (by simp [hq]), List.length_cons, List.length_cons,
        length_reap hnodup.2 ((List.mem_cons.mp hk).resolve_left (Ne.symm hq))]

theorem pids_nodup (h : w.PidsOk) : (w.procs.map Proc.pid).Nodup := by
  have hnodup := h.nodup
  rw [World.children, List.map_map] at hnodup
  exact hnodup

theorem Tally.reap (h : Tally w) {pr : Proc} {e : Ev} (hpr : pr ∈ w.procs)
    (he : e = .reaped pr ∨ e = .stolen pr) (hp : (w.reap pr e).PidsOk) : Tally (w.reap pr e) := by
  have hlen := length_reap (pids_nodup h.pids) (List.mem_map_of_mem hpr)
  refine ⟨hp, ?_⟩
  have hcount : inFlight (w.reap pr e).log = inFlight w.log - 1 := by
    rcases he with rfl | rfl <;> rfl
  rw [hcount, h.count, ← hlen]
  rfl

theorem Tally.move (hm : Move env R w w') (h : Tally w) : Tally w' := by
  have hp := h.pids.move hm
  cases hm with
  | act _ => exact h.act _
  | finish pid =>
    refine ⟨hp, ?_⟩
    rw [inFlight_finish, h.count, ← length_children, ← length_children, (World.same_finish pid w).children]
  | reap hpr _ he => exact h.reap hpr he hp
  | @start cmd _ =>
    refine ⟨hp, ?_⟩
    rw [World.fork]
    cases env.fork w.nfork cmd w.fs with
    | none => exact h.count
    | some f => simp [inFlight, h.count]
  | aside _ _ _ => exact ⟨hp, h.count⟩
  | @say e he =>
    refine ⟨hp, ?_⟩
    cases e with
    | run v => exact he.elim
    | exec c g => exact he.elim
    | reaped pr => exact he.elim
    | stolen pr => exact he.elim
    | _ => exact h.count

theorem Tally.path (hp : Path env R w w') : Tally w → Tally w' :=
  Moves.keeps (fun _ _ hm h => Tally.move hm h) hp

/-! ### The slots -/

/-- Every child is in a slot, and no command so far was started while too many were running. -/
structure Load (n : ℕ) (jobs : List Job) (w : World) : Prop where
  manned : Manned [] w jobs
  tally : Tally w
  every : Logs.Every (Loaded n) w.log

/-- There are not more children than slots. -/
theorem Manned.few (h : Manned [] w jobs) : w.procs.length ≤ jobs.length := by
  have hsub : w.children.map (fun x => (x.1 : ℤ)) ⊆ jobs.map fun j => j.cmd.pid := by
    intro k hk
    obtain ⟨x, hx, rfl⟩ := List.mem_map.mp hk
    obtain ⟨j, hj, hpid⟩ := (h.slot x hx).resolve_left List.not_mem_nil
    exact List.mem_map.mpr ⟨j, hj, hpid⟩
  have hnodup : (w.children.map fun x => (x.1 : ℤ)).Nodup := by
    have hmap := h.pids.nodup.map (f := Nat.cast (R := ℤ)) Nat.cast_injective
    rwa [List.map_map] at hmap
  have hle := (List.subperm_of_subset hnodup hsub).length_le
  rwa [List.length_map, List.length_map, length_children] at hle

/-- Moves that start no command. -/
def waiting : Rules := ⟨fun _ => False, fun _ _ => True, fun _ _ => True, True⟩

theorem Load.wait {jobs' : List Job} (h : Load n jobs w) (hp : Path env waiting w w')
    (hm : Manned [] w' jobs') : Load n jobs' w' := by
  refine ⟨hm, h.tally.path hp, Moves.keeps (I := fun v : World => Logs.Every (Loaded n) v.log)
    (fun u v hm hu => hm.every (fun e he => ?_) hu) hp h.every⟩
  cases e with
  | exec cmd fate => exact he.1.elim
  | _ => trivial

theorem every_fork (h : Logs.Every (Loaded n) w.log) (hload : ∀ fate, Loaded n (.exec cmd fate) w.log) :
    Logs.Every (Loaded n) (w.fork env cmd).2.log := by
  rw [World.fork]
  cases env.fork w.nfork cmd w.fs with
  | none => exact h.cons (hload _)
  | some f => exact h.cons (hload _)

/-- A compile is started in a free slot. -/
theorem Load.start (env : Env) (hk : cmd.kind = .compile) (h : Load n (pre ++ js) s.w)
    (hlen : (pre ++ js).length < n) :
    Load n (pre ++ (startJob env cmd s).1 :: js) (startJob env cmd s).2.w := by
  refine ⟨h.manned.start env, h.tally.path (path_startJob (R := .all) trivial s), ?_⟩
  rw [startJob_eq]
  refine every_fork h.every fun fate => ?_
  rw [Loaded, if_pos hk, h.tally.count]
  exact h.manned.few.trans_lt hlen

theorem Load.poll (hk : cmd.kind = .compile) : ∀ (js pre : List Job) (s : St), Load n (pre ++ js) s.w →
    (pre ++ js).length ≤ n →
    Load n (pre ++ (pollSlots env cmd js s).2.1) (pollSlots env cmd js s).2.2.w
  | [], _, _, h, _ => h
  | j :: js, pre, s, h, hlen => by
    have hless : (pre ++ js).length < n := by simp at hlen ⊢; omega
    rw [pollSlots]
    cases hact : j.cmd.isActive with
    | false =>
      simp only [Bool.false_eq_true, if_false]
      have hfree := (Manned.discipline env []).dropFree (n := 0) h.manned hact
      exact Load.start env hk ⟨hfree, h.tally, h.every⟩ hless
    | true =>
      simp only [if_true]
      rcases hq : j.cmd.queryComplete env s.w with ⟨_ | _, c, w⟩
      · have hrec := Load.poll hk js (pre ++ [j]) { s with w := w }
          (by simpa using h.wait (path_query hq) ((h.manned.query hact hq).2 rfl)) (by simpa using hlen)
        simpa using hrec
      · exact Load.start env (s := ⟨harvest true c.exitcode j.objname s.b, w⟩) hk
          (h.wait (path_query hq) ((h.manned.query hact hq).1 rfl)) hless

/-- A poll that finds no slot leaves the slots as they were. -/
theorem pollSlots_kept (env : Env) (cmd : Cmd) : ∀ (js : List Job) (s : St),
    (pollSlots env cmd js s).1 = false → (pollSlots env cmd js s).2.1 = js
  | [], _, _ => rfl
  | j :: js, s, h => by
    rw [pollSlots] at h ⊢
    cases hact : j.cmd.isActive with
    | false => simp [hact] at h
    | true =>
      simp only [hact, if_true] at h ⊢
      rcases hq : j.cmd.queryComplete env s.w with ⟨_ | _, c, w⟩
      · rw [hq] at h
        exact congrArg (j :: ·) (pollSlots_kept env cmd js { s with w := w } h)
      · simp [hq] at h

/-- Every slot is busy: the job of one of them is waited for, and its slot is free then. -/
theorem Load.steal (hk : cmd.kind = .compile) (h : Load n s.b.jobs s.w) (hlen : s.b.jobs.length ≤ n)
    (r : ℕ) : Load n (stealSlot env cmd r s).b.jobs (stealSlot env cmd r s).w := by
  rw [stealSlot]
  by_cases hr : r < s.b.jobs.length
  · rw [List.getElem?_eq_getElem hr]
    have hsplit : s.b.jobs = s.b.jobs.take r ++ s.b.jobs[r] :: s.b.jobs.drop (r + 1) := by
      rw [List.cons_getElem_drop_succ, List.take_append_drop]
    have hless : (s.b.jobs.take r ++ s.b.jobs.drop (r + 1)).length < n := by
      rw [List.length_append, List.length_take, List.length_drop]
      omega
    rw [hsplit] at h
    dsimp only
    rcases hq : s.b.jobs[r].cmd.wait env s.w with ⟨ok, c, w⟩
    have hfree : Load n (s.b.jobs.take r ++ s.b.jobs.drop (r + 1)) w := by
      cases hact : s.b.jobs[r].cmd.isActive with
      | true => exact h.wait (path_wait hq) (h.manned.wait hact hq)
      | false =>
        have hdrop := (Manned.discipline env []).dropFree (n := 0) (s := s) h.manned hact
        rw [Command.wait, hact] at hq
        simp only [Bool.not_false, if_true, Prod.mk.injEq] at hq
        exact hq.2.2 ▸ ⟨hdrop, h.tally, h.every⟩
    have hs := Load.start env hk (s := ⟨harvest ok c.exitcode s.b.jobs[r].objname s.b, w⟩) hfree hless
    rw [startJob_eq] at hs ⊢
    dsimp only
    rw [harvest_jobs, List.set_eq_take_append_cons_drop, if_pos hr]
    exact hs
  · rw [List.getElem?_eq_none (by omega)]
    exact h

theorem Load.addCompileJob (hk : cmd.kind = .compile) (h : Load n s.b.jobs s.w)
    (hlen : s.b.jobs.length ≤ n) :
    Load n (addCompileJob env cmd s).b.jobs (addCompileJob env cmd s).w := by
  have hp : Load n (pollSlots env cmd s.b.jobs s).2.1 (pollSlots env cmd s.b.jobs s).2.2.w :=
    Load.poll hk s.b.jobs [] s h hlen
  have hjobs := pollSlots_jobs env cmd s.b.jobs s
  have hkept := pollSlots_kept env cmd s.b.jobs s
  rw [Cake.addCompileJob]
  rcases hq : pollSlots env cmd s.b.jobs s with ⟨_ | _, jobs, t⟩
  · rw [hq] at hp hjobs hkept
    obtain rfl : jobs = s.b.jobs := hkept rfl
    refine Load.steal (s := ⟨t.b, { t.w with nrand := t.w.nrand + 1 }⟩) hk ?_ (hjobs ▸ hlen) _
    have hpath : Path env waiting t.w { t.w with nrand := t.w.nrand + 1 } :=
      .single (.aside t.w.nyield (t.w.nrand + 1) le_rfl)
    exact hjobs ▸ hp.wait hpath ⟨⟨hp.manned.pids.nodup, hp.manned.pids.bound⟩, hp.manned.slot⟩
  · rw [hq] at hp
    exact hp

/-! ### The sources -/

/-- What is noted, but for the commands and their ends, changes nothing. -/
theorem Load.note {e : Ev} (h : Load n jobs w) (hprocs : w'.procs = w.procs) (hfork : w'.nfork = w.nfork)
    (hlog : w'.log = e :: w.log) (hcount : inFlight (e :: w.log) = inFlight w.log)
    (he : Loaded n e w.log) : Load n jobs w' := by
  have hc : w'.children = w.children := by rw [World.children, hprocs, World.children]
  have hpids : w'.PidsOk := ⟨hc ▸ h.tally.pids.nodup, by rw [hc, hfork]; exact h.tally.pids.bound⟩
  refine ⟨⟨hpids, by rw [hc]; exact h.manned.slot⟩, ⟨hpids, ?_⟩, by rw [hlog]; exact h.every.cons he⟩
  rw [hlog, hcount, hprocs, h.tally.count]

theorem Load.aside (h : Load n jobs w) (m : ℕ) :
    Load n jobs { w with newestTime := m } :=
  ⟨⟨⟨h.manned.pids.nodup, h.manned.pids.bound⟩, h.manned.slot⟩,
    ⟨⟨h.tally.pids.nodup, h.tally.pids.bound⟩, h.tally.count⟩, h.every⟩

theorem Load.yield (env : Env) (h : Load n jobs w) : Load n jobs (w.yield env) :=
  have hs := World.same_yield env w
  h.wait (path_yield env waiting w) (h.manned.shrink (h.tally.pids.same hs) fun _ hx => hs.children ▸ hx)

theorem Load.doCompile (cflags fname : Str) (h : Load n s.b.jobs s.w) (hlen : s.b.jobs.length ≤ n) :
    Load n (doCompile env cflags fname s).b.jobs (doCompile env cflags fname s).w := by
  have hy := h.yield env
  rw [Cake.doCompile]
  dsimp only [countSource]
  rcases hn : needsRebuild _ _ _ _ _ _ with ⟨rebuild, newest⟩
  have hlook : Load n s.b.jobs { s.w.yield env with newestTime := newest } :=
    hy.aside newest
  cases rebuild with
  | true => exact Load.addCompileJob (s := ⟨_, _⟩) rfl hlook hlen
  | false => exact hlook.note rfl rfl rfl rfl trivial

theorem Load.compileAll (cflags : Str) : ∀ (fs : List Str) (s : St), Load n s.b.jobs s.w →
    s.b.jobs.length ≤ n →
    Load n (compileAll env cflags fs s).b.jobs (compileAll env cflags fs s).w
  | [], _, h, _ => h
  | f :: fs, s, h, hlen => by
    have hlen' : (Cake.doCompile env cflags f s).b.jobs.length ≤ n := by
      rw [doCompile_length]
      exact hlen
    exact Load.compileAll cflags fs _ (h.doCompile cflags f hlen) hlen'

/-- `complete_jobs` leaves no child. -/
theorem Load.completeJobs (h : Load n s.b.jobs s.w) : Load n [] (completeJobs env s).w := by
  obtain ⟨hm, hfree⟩ := (Manned.discipline env []).completeJobs (n := 0) h.manned
  exact h.wait (path_completeJobs s) ⟨hm.pids, fun x hx => Or.inl (hm.only_old hfree x hx)⟩

/-! ### A command that is waited for at once -/

theorem Load.idle (h : Load n [] w) : inFlight w.log = 0 := by
  have hfew := h.manned.few
  rw [h.tally.count]
  exact Nat.le_zero.mp hfew

theorem Load.execute {ok : Bool} {code : ℕ} (hk : cmd.kind ≠ .compile) (h : Load n [] w)
    (hq : executeCommand env cmd w = (ok, code, w')) : Load n [] w' := by
  refine ⟨h.manned.execute hq, h.tally.path (path_execute (R := .all) trivial hq), ?_⟩
  obtain ⟨c, v, c', hb, hw, -⟩ := executeCommand_cases hq
  have hv : (w.fork env cmd).2 = v := congrArg Prod.snd hb
  have hstart : Logs.Every (Loaded n) v.log := by
    rw [← hv]
    refine every_fork h.every fun fate => ?_
    rw [Loaded, if_neg hk]
    exact h.idle
  refine Moves.keeps (I := fun u : World => Logs.Every (Loaded n) u.log)
    (fun u u' hm hu => hm.every (fun e he => ?_) hu) (path_wait (R := waiting) hw) hstart
  cases e with
  | exec cmd fate => exact he.1.elim
  | _ => trivial

theorem Load.makePch (pch cflags : Str) (cpp : Bool) (h : Load n [] s.w) :
    Load n [] (makePch env pch cflags cpp s).w := by
  refine makePch_keeps (P := fun t => Load n [] t.w) (fun m _ => ?_) fun t ht => ?_
  · exact (h.yield env).aside m
  · rw [buildPch_world]
    exact ht.execute (by simp [pchCmd]) rfl

/-! ### `compile()` -/

theorem Load.decision (h : Load n s.b.jobs s.w) : Load n [] (decision env s).w :=
  Load.completeJobs (s := { s with w := s.w.yield env }) (h.yield env)

theorem Load.produce {mkCmd : St → Cmd} (hmk : p.MakesOutput mkCmd) (h : Load n s.b.jobs s.w) :
    Load n [] (produce env mkCmd s).2.w := by
  have hd : Load n [] (Cake.decision env s).w := h.decision
  rw [Cake.produce]
  rw [Cake.decision] at hd
  split
  · exact hd
  · split
    · exact hd.note rfl rfl rfl rfl trivial
    · rw [buildOutput_world]
      refine hd.execute (fun hk => ?_) rfl
      rcases hmk.kind (Cake.completeJobs env { s with w := s.w.yield env }) with hkind | hkind
      · rw [hkind] at hk
        cases hk
      · rw [hkind] at hk
        cases hk

theorem Load.newBuild (env : Env) (h : Load n [] w) : Load n [] (newBuild env w).w :=
  h.note rfl rfl rfl rfl trivial

/-- A slot that is free needs no child. -/
theorem Load.manage (h : Load n [] w) (jobs : List Job) : Load n jobs w :=
  ⟨⟨h.manned.pids, fun x hx => Or.inl ((h.manned.only_old (by simp)) x hx)⟩, h.tally, h.every⟩

theorem Load.header (p : Project) (cflags : Str) (h : Load n [] w) :
    Load n [] (p.header env cflags w).w := by
  rw [Project.header, Project.pchStep]
  cases p.files.find? isHeader with
  | none => exact h.newBuild env
  | some x => exact Load.makePch x cflags _ (h.newBuild env)

theorem Load.compile (hout : p.HasOutput) (gs : List Project) (h : Load (max env.cpus 1) [] w) :
    Load (max env.cpus 1) [] (p.compile env gs w).2.w := by
  cases hpkg : pkgConfig env p.pkgdepends with
  | none =>
    rw [p.compile_none hpkg]
    exact h.newBuild env
  | some cl =>
    obtain ⟨c, l⟩ := cl
    obtain ⟨mkCmd, hmk, heq⟩ := p.compile_produce hpkg hout.1 hout.2 gs w
    rw [heq]
    refine Load.produce hmk (Load.compileAll _ _ _ ((h.header p _).manage _) ?_)
    rw [header_jobs]
    exact (List.length_replicate ..).le

/-! ### Runs -/

theorem Load.acts (h : Load n [] w) (as : List Act) : Load n [] (as.foldl World.act w) := by
  induction as generalizing w with
  | nil => exact h
  | cons a as ih =>
    refine ih ⟨h.manned.shrink (h.tally.pids.same (w.same_act a)) fun x hx => (w.same_act a).children ▸ hx,
      h.tally.act a, w.act_every a (fun _ _ => trivial) (fun _ _ => trivial) h.every⟩

theorem Load.exec (r : Run) (hout : ∀ p ∈ r.projects, p.HasOutput) (h : Load (max env.cpus 1) [] w) :
    Load (max env.cpus 1) [] (r.exec env w) := by
  refine mainLoop_induct env r.pre r.projects (P := fun _ v => Load (max env.cpus 1) [] v) ?_ ?_
  · exact (h.acts r.before).note rfl rfl rfl rfl trivial
  · intro i p v hp hv
    rw [mainStep]
    split
    · exact (hv.compile (hout p (List.mem_of_getElem? hp)) r.projects).note rfl rfl rfl rfl trivial
    · exact hv

theorem Load.history (rs : List Run) (hout : ∀ r ∈ rs, ∀ p ∈ r.projects, p.HasOutput)
    (h : Load (max env.cpus 1) [] w) : Load (max env.cpus 1) [] (history env rs w) := by
  induction rs generalizing w with
  | nil => exact h
  | cons r rs ih =>
    obtain ⟨hr, hrs⟩ := List.forall_mem_cons.mp hout
    exact ih hrs (h.exec r hr)

/-- In every history of runs of projects that have outputs, at most as many children are in flight as
    there are processors, and a precompiled header, a link and an archive have the machine to
    themselves. -/
theorem load_bounded (env : Env) (rs : List Run) (w : World) (hprocs : w.procs = []) (hlog : w.log = [])
    (hout : ∀ r ∈ rs, ∀ p ∈ r.projects, p.HasOutput) :
    Logs.Every (Loaded (max env.cpus 1)) (history env rs w).log ∧ (history env rs w).procs = [] := by
  have halone : Alone w := alone_of_procs hprocs
  have hc : w.children = [] := by rw [World.children, hprocs, List.map_nil]
  have hstart : Load (max env.cpus 1) [] w := by
    refine ⟨⟨halone.pids, by simp [hc]⟩, ⟨halone.pids, by rw [hlog, hprocs]; rfl⟩, ?_⟩
    rw [hlog]
    exact Logs.every_nil
  have hend := hstart.history rs hout
  exact ⟨hend.every, List.length_eq_zero_iff.mp (Nat.le_zero.mp hend.manned.few)⟩

/-- Two runs on two processors, the second under `-r`. -/
theorem load_bounded_two :
    Logs.Every (Loaded 2) (history (Env.quiet 2) [utilThenProg, { utilThenProg with rebuild := true }]
      sourcesOnly).log :=
  (load_bounded (Env.quiet 2) _ sourcesOnly rfl rfl (by decide)).1

end Cake
