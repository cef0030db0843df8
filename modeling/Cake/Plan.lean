import Cake.SecondRun

/-! What a build sets out to make.

    While compilers run, files appear under `obj/`. `needs_rebuild` looks at the part it is asked about,
    at its dependency file and at what that lists; when none of these is written by an earlier command of
    the build, the answers are those that the files gave before the build began. The commands of the
    parts are then known in advance, whatever the schedule and the number of slots, and so is
    `newest_time`.

        before the build      part 1 ──look──▶ make    part 2 ──look──▶ keep    …
        during the build      part 1 ──────start…exit──────▶
                                         part 2 ──the same look──▶ -/

namespace Cake

variable {env : Env} {R : Rules} {w w' : World} {s : St} {v : World}

/-! ### What moves `newest_time` -/

theorem newest_land (pr : Proc) (w : World) : (w.land pr).newestTime = w.newestTime := by
  rw [World.land]
  split <;> rfl

theorem newest_finish (pid : ℕ) (w : World) : (w.finish pid).newestTime = w.newestTime := by
  rcases w.finish_cases pid with heq | ⟨pr, -, -, -, heq⟩
  · rw [heq]
  · rw [heq]
    exact newest_land pr { w with procs := w.marked pid }

theorem newest_act (w : World) (a : Act) : (w.act a).newestTime = w.newestTime := by
  cases a with
  | exit pid => exact newest_finish pid w
  | _ => rfl

theorem newest_acts : ∀ (as : List Act) (w : World), (as.foldl World.act w).newestTime = w.newestTime
  | [], _ => rfl
  | a :: as, w => (newest_acts as (w.act a)).trans (newest_act w a)

theorem newest_yield (env : Env) (w : World) : (w.yield env).newestTime = w.newestTime :=
  newest_acts (env.sched w.nyield) { w with nyield := w.nyield + 1 }

theorem newest_fork (env : Env) (cmd : Cmd) (w : World) :
    (w.fork env cmd).2.newestTime = w.newestTime := by
  rw [World.fork]
  cases env.fork w.nfork cmd w.fs <;> rfl

theorem newest_waitOne (block : Bool) (pid : ℕ) (w : World) :
    (w.waitOne block pid).2.newestTime = w.newestTime := by
  have hfinish : (if block then w.finish pid else w).newestTime = w.newestTime := by
    split
    · exact newest_finish pid w
    · rfl
  rw [World.waitOne]
  generalize (if block then w.finish pid else w) = u at hfinish
  split
  · exact hfinish
  · split <;> exact hfinish

theorem newest_waitAny (block : Bool) (n : ℕ) (w : World) :
    (w.waitAny block n).2.newestTime = w.newestTime := by
  rw [World.waitAny]
  cases w.procs with
  | nil => rfl
  | cons p ps =>
    dsimp only
    have hfinish : (if block && ((p :: ps).filter (·.zombie)).isEmpty then
        w.finish ((p :: ps).getD (n % (ps.length + 1)) p).pid else w).newestTime = w.newestTime := by
      split
      · exact newest_finish _ w
      · rfl
    generalize (if block && ((p :: ps).filter (·.zombie)).isEmpty then
      w.finish ((p :: ps).getD (n % (ps.length + 1)) p).pid else w) = u at hfinish
    split <;> exact hfinish

theorem newest_waitpid {block : Bool} {pid : ℤ} {r : ℤ × ℕ} (h : w.waitpid env block pid = (r, w')) :
    w'.newestTime = w.newestTime := by
  have hw : (w.waitpid env block pid).2 = w' := congrArg Prod.snd h
  rw [← hw, World.waitpid, ← newest_yield env w]
  split
  · exact newest_waitAny ..
  · exact newest_waitOne ..

theorem newest_query {c c' : Command} {done : Bool} (h : c.queryComplete env w = (done, c', w')) :
    w'.newestTime = w.newestTime := by
  obtain rfl | ⟨r, status, hw⟩ := Command.query_world h
  · rfl
  · exact newest_waitpid hw

theorem newest_wait {c c' : Command} {ok : Bool} (h : c.wait env w = (ok, c', w')) :
    w'.newestTime = w.newestTime := by
  obtain rfl | ⟨r, status, hw⟩ := Command.wait_world h
  · rfl
  · exact newest_waitpid hw

theorem newest_startJob (env : Env) (cmd : Cmd) (s : St) :
    (startJob env cmd s).2.w.newestTime = s.w.newestTime := by
  rw [startJob_eq]
  exact newest_fork env cmd s.w

theorem newest_execute {cmd : Cmd} {ok : Bool} {code : ℕ}
    (h : executeCommand env cmd w = (ok, code, w')) : w'.newestTime = w.newestTime := by
  obtain ⟨c, u, c', hb, hw, -⟩ := executeCommand_cases h
  have hu : (w.fork env cmd).2 = u := congrArg Prod.snd hb
  exact (newest_wait hw).trans (hu ▸ newest_fork env cmd w)

theorem newest_pollSlots (env : Env) (cmd : Cmd) : ∀ (js : List Job) (s : St),
    (pollSlots env cmd js s).2.2.w.newestTime = s.w.newestTime
  | [], _ => rfl
  | j :: js, s => by
    rw [pollSlots]
    cases j.cmd.isActive with
    | false => exact newest_startJob env cmd s
    | true =>
      simp only [if_true]
      rcases hq : j.cmd.queryComplete env s.w with ⟨_ | _, c, u⟩
      · exact (newest_pollSlots env cmd js { s with w := u }).trans (newest_query hq)
      · exact (newest_startJob env cmd ⟨_, u⟩).trans (newest_query hq)

theorem newest_stealSlot (env : Env) (cmd : Cmd) (r : ℕ) (s : St) :
    (stealSlot env cmd r s).w.newestTime = s.w.newestTime := by
  rw [stealSlot]
  cases s.b.jobs[r]? with
  | none => rfl
  | some j =>
    dsimp only
    rcases hw : j.cmd.wait env s.w with ⟨ok, c, u⟩
    exact (newest_startJob env cmd ⟨_, u⟩).trans (newest_wait hw)

theorem newest_addCompileJob (env : Env) (cmd : Cmd) (s : St) :
    (addCompileJob env cmd s).w.newestTime = s.w.newestTime := by
  have hp := newest_pollSlots env cmd s.b.jobs s
  rw [addCompileJob]
  rcases hq : pollSlots env cmd s.b.jobs s with ⟨_ | _, jobs, t⟩
  · rw [hq] at hp
    exact (newest_stealSlot env cmd (env.frand t.w.nrand % t.b.jobs.length)
      { t with w := { t.w with nrand := t.w.nrand + 1 } }).trans hp
  · rw [hq] at hp
    exact hp

theorem newest_drain (env : Env) : ∀ (js : List Job) (s : St),
    (drain env js s).2.w.newestTime = s.w.newestTime
  | [], _ => rfl
  | j :: js, s => by
    rw [drain]
    cases j.cmd.isActive with
    | false => exact newest_drain env js s
    | true =>
      simp only [if_true]
      rcases hw : j.cmd.wait env s.w with ⟨ok, c, u⟩
      exact (newest_drain env js ⟨_, u⟩).trans (newest_wait hw)

/-- From the last source to the decision about the output nothing is compared. -/
theorem newest_decision (env : Env) (s : St) : (decision env s).w.newestTime = s.w.newestTime :=
  (newest_drain env s.b.jobs ⟨s.b, s.w.yield env⟩).trans (newest_yield env s.w)

theorem produce_newest (env : Env) (mkCmd : St → Cmd) (s : St) :
    (produce env mkCmd s).2.w.newestTime = (decision env s).w.newestTime := by
  rw [produce]
  rw [← decision]
  split
  · rfl
  · split
    · rfl
    · rw [buildOutput_world]
      exact newest_execute rfl

/-! ### One look -/

/-- What `make_pch` and `do_compile` find out about a part: whether it has to be made, and
    `newest_time` afterwards. -/
def Part.look (w : World) (n : ℕ) (x : Part) : Bool × ℕ :=
  if x.header && !existsFile w.fs x.product then (true, n)
  else needsRebuild w.rebuild w.fs w.makefileTime n x.dep x.product

/-- The part has to be made, as the files stand. -/
def Part.stale (w : World) (x : Part) : Bool := (x.look w 0).1

/-- `newest_time` after the parts have been looked at one after the other. -/
def seenAfter (w : World) (n : ℕ) (xs : List Part) : ℕ := xs.foldl (fun n x => (x.look w n).2) n

/-- Whether a part has to be made does not depend on what has been seen before. -/
theorem look_stale (w : World) (n : ℕ) (x : Part) : (x.look w n).1 = x.stale w := by
  rw [Part.stale, Part.look, Part.look]
  split
  · rfl
  · refine Bool.eq_iff_iff.mpr ?_
    rw [← Bool.not_eq_false, ← Bool.not_eq_false, kept_iff, kept_iff]

theorem look_newest (w : World) (n : ℕ) (x : Part) : n ≤ (x.look w n).2 := by
  rw [Part.look]
  split
  · exact le_rfl
  · exact needsRebuild_newest ..

/-- The files a look goes by; under `-r` there are none. -/
def Part.reads (w : World) (x : Part) : List Str :=
  if w.rebuild then [] else x.product :: x.dep :: x.prerequisites w.fs

/-- Under `-r` everything has to be made. -/
theorem look_rebuild (hr : w.rebuild = true) (n : ℕ) (x : Part) : x.look w n = (true, n) := by
  rw [Part.look, needsRebuild, hr]
  split <;> rfl

/-- The files the command of a part writes. -/
def Part.writes (x : Part) : List Str := [x.product, gccDepName x.product]

/-- Two looks at the same files find the same. -/
theorem look_congr {x : Part} (hr : w'.rebuild = w.rebuild) (hm : w'.makefileTime = w.makefileTime)
    (hfs : ∀ o ∈ x.reads w, w'.fs o = w.fs o) (n : ℕ) : x.look w' n = x.look w n := by
  by_cases hforced : w.rebuild = true
  · rw [look_rebuild hforced, look_rebuild (hr.trans hforced)]
  rw [Part.reads, if_neg hforced] at hfs
  have hproduct := hfs x.product List.mem_cons_self
  have hlisted : listed w'.fs x.dep = listed w.fs x.dep := by
    rw [listed, listed, readFile, readFile, hfs x.dep (List.mem_cons_of_mem _ List.mem_cons_self)]
  have hscan : ∀ (ts : List Str) (n : ℕ), (∀ t ∈ ts, w'.fs t = w.fs t) →
      scanDeps w'.fs w.makefileTime x.product n ts = scanDeps w.fs w.makefileTime x.product n ts := by
    intro ts
    induction ts with
    | nil => exact fun _ _ => rfl
    | cons t ts ih =>
      intro n hts
      obtain ⟨ht, hts⟩ := List.forall_mem_cons.mp hts
      rw [scanDeps, scanDeps, fileIsNewer, fileIsNewer, existsFile, existsFile, isChanged, isChanged,
        hproduct, ht]
      split
      · rfl
      · exact ih _ hts
  rw [Part.look, Part.look, existsFile, existsFile, hproduct, needsRebuild, needsRebuild, hr, hm, hlisted]
  cases hl : listed w.fs x.dep with
  | none => rfl
  | some ts =>
    have hprereqs : x.prerequisites w.fs = ts := by rw [Part.prerequisites, hl]; rfl
    rw [hprereqs] at hfs
    dsimp only
    rw [hscan ts n fun t ht => hfs t (List.mem_cons_of_mem _ (List.mem_cons_of_mem _ ht))]

theorem look_current (hr : w.rebuild = false) (hx : x.Current w.fs w.makefileTime) (n : ℕ) :
    x.look w n = (false, newestAfter w.fs n [x]) := by
  have hpres := hx.complete.present
  rw [Part.look, if_neg, hr]
  · exact (needsRebuild_part hpres).mpr ⟨hx, rfl⟩
  · intro hmissing
    rw [Bool.and_eq_true] at hmissing
    rw [existsFile, hpres hmissing.1] at hmissing
    exact absurd hmissing.2 (by decide)

/-! ### The looks of a build -/

theorem doCompile_newest (env : Env) (cflags fname : Str) (s : St) :
    (doCompile env cflags fname s).w.newestTime =
      ((sourcePart s.w.target fname).look (s.w.yield env) s.w.newestTime).2 := by
  have ht := (path_yield env .all s.w).later.target
  rw [← newest_yield env s.w, ← ht, doCompile, Part.look, if_neg (by simp [sourcePart])]
  dsimp only [countSource, sourcePart, compileCmd]
  rcases hr : needsRebuild _ _ _ _ _ _ with ⟨_ | _, newest⟩
  · rfl
  · exact newest_addCompileJob ..

theorem asksRebuild_look (env : Env) (fname : Str) (s : St) :
    asksRebuild env fname s = ((sourcePart s.w.target fname).look (s.w.yield env) s.w.newestTime).1 := by
  have ht := (path_yield env .all s.w).later.target
  rw [← newest_yield env s.w, ← ht, asksRebuild, Part.look, if_neg (by simp [sourcePart])]
  rfl

/-- `make_pch` starts its command by what one look finds. -/
theorem makePch_eq (env : Env) (pch cflags : Str) (cpp : Bool) (s : St) :
    let w := s.w.yield env
    let cmd := pchCmd s.w.target cflags cpp pch
    let found := (headerPart s.w.target pch).look w w.newestTime
    let t : St := ⟨{ s.b with pchname := cmd.out }, { w with newestTime := found.2 }⟩
    makePch env pch cflags cpp s = if found.1 then buildPch env cmd t else t := by
  intro w cmd found t
  have ht : w.target = s.w.target := (path_yield env .all s.w).later.target
  rw [makePch]
  dsimp only
  cases hex : existsFile w.fs (mkpchname (objdir s.w.target) pch) with
  | false =>
    have hfound : found = (true, w.newestTime) := if_pos (by simp [headerPart, hex])
    rw [if_neg (Bool.eq_false_iff.mp (show existsFile w.fs cmd.out = false from hex))]
    simp only [t, hfound, if_true]
    rfl
  | true =>
    have hfound : found = needsRebuild w.rebuild w.fs w.makefileTime w.newestTime
        (mkdepname (objdir w.target) pch) cmd.out := by
      rw [ht]
      exact if_neg (by simp [headerPart, hex])
    rw [if_pos (show existsFile w.fs cmd.out = true from hex)]
    simp only [t, hfound]
    rfl

/-- It starts its command or nothing. -/
theorem makePch_look (env : Env) (pch cflags : Str) (cpp : Bool) (s : St) :
    let found := (headerPart s.w.target pch).look (s.w.yield env) s.w.newestTime
    let t := makePch env pch cflags cpp s
    t.w.newestTime = found.2 ∧
      (found.1 = true ∧ ForkLog env (pchCmd s.w.target cflags cpp pch) s.w t.w ∨
        found.1 = false ∧ execs t.w.log = execs s.w.log) := by
  intro found t
  have hy := World.same_yield env s.w
  have heq := makePch_eq env pch cflags cpp s
  dsimp only at heq
  rw [newest_yield] at heq
  dsimp only [t]
  rw [heq]
  -- the command, from any state the look may leave
  have hbuild : ∀ u : St, s.w.SameLog u.w →
      (buildPch env (pchCmd s.w.target cflags cpp pch) u).w.newestTime = u.w.newestTime ∧
        ForkLog env (pchCmd s.w.target cflags cpp pch) s.w
          (buildPch env (pchCmd s.w.target cflags cpp pch) u).w := fun u hu => by
    refine ⟨?_, ForkLog.after hu (buildPch_log env _ u)⟩
    rw [buildPch_world]
    exact newest_execute rfl
  by_cases hf : found.1 = true
  · rw [if_pos hf]
    obtain ⟨hn, hlog⟩ := hbuild ⟨_, { s.w.yield env with newestTime := found.2 }⟩
      (hy.log.trans ⟨rfl, rfl, rfl, id⟩)
    exact ⟨hn, .inl ⟨hf, hlog⟩⟩
  · rw [if_neg hf]
    exact ⟨rfl, .inr ⟨Bool.eq_false_iff.mpr hf, hy.execs⟩⟩

/-! ### Worlds that differ in written files -/

/-- The files the command writes. -/
def Cmd.writes (cmd : Cmd) (o : Str) : Bool :=
  decide (cmd.out = o) || (World.hasDep cmd.kind && decide (gccDepName cmd.out = o))

/-- `link` and `staticlib` write nothing but their output. -/
theorem output_writes {cmd : Cmd} (hk : cmd.kind = .link ∨ cmd.kind = .ar) {o : Str}
    (h : cmd.writes o = true) : o = cmd.out := by
  rcases hk with hk | hk
  all_goals simpa [Cmd.writes, hk, World.hasDep, eq_comm] using h

/-- Commands that write files of `Z` alone. -/
def writing (Z : Str → Prop) : Rules :=
  ⟨fun cmd => ∀ o, cmd.writes o = true → Z o, fun _ _ => True, fun _ _ => True, True⟩

/-- A world that came from `v` by the work of such commands. -/
structure Near (v : World) (Z : Str → Prop) (w : World) : Prop where
  pids : w.PidsOk
  procs : ∀ pr ∈ w.procs, ∀ o, pr.writes o = true → Z o
  fs : ∀ o, ¬ Z o → w.fs o = v.fs o
  glob : w.glob = v.glob
  target : w.target = v.target
  makefileTime : w.makefileTime = v.makefileTime
  rebuild : w.rebuild = v.rebuild

variable {Z Z' : Str → Prop}

theorem Near.refl (h : v.procs = []) : Near v Z v :=
  ⟨(alone_of_procs h).pids, fun _ hpr => absurd (h ▸ hpr) List.not_mem_nil, fun _ _ => rfl, rfl, rfl, rfl,
    rfl⟩

theorem Near.mono (h : Near v Z w) (hZ : ∀ o, Z o → Z' o) : Near v Z' w :=
  ⟨h.pids, fun pr hpr o ho => hZ o (h.procs pr hpr o ho), fun o ho => h.fs o fun hz => ho (hZ o hz), h.glob,
    h.target, h.makefileTime, h.rebuild⟩

theorem Near.move (hcalm : env.Calm) (hm : Move env (writing Z) w w') (h : Near v Z w) : Near v Z w' where
  pids := h.pids.move hm
  procs := by
    intro q hq o ho
    rcases hm.child h.pids hq with hq | ⟨q₀, hq₀, rfl, -⟩ | ⟨cmd, f, hcmd, -, rfl, -⟩
    · exact h.procs q hq o ho
    · exact h.procs q₀ hq₀ o ho
    · exact hcmd o ho
  fs := by
    intro o ho
    rcases hm.ends hcalm h.pids with ⟨hfs, -⟩ | ⟨pr, hpr, hfs, -⟩
    · rw [hfs]
      exact h.fs o ho
    · rw [hfs, World.land_other (Bool.eq_false_iff.mpr fun hw => ho (h.procs pr hpr o hw))]
      exact h.fs o ho
  glob := (hm.glob hcalm).trans h.glob
  target := hm.later.target.trans h.target
  makefileTime := hm.later.makefileTime.trans h.makefileTime
  rebuild := hm.later.rebuild.trans h.rebuild

theorem Near.path (hcalm : env.Calm) (hp : Path env (writing Z) w w') (h : Near v Z w) : Near v Z w' :=
  Moves.keeps (I := Near v Z) (fun _ _ hm => Near.move hcalm hm) hp h

/-- A part that the commands leave alone looks as it did. -/
theorem Near.look (h : Near v Z w) {x : Part} (hx : ∀ o ∈ x.reads v, ¬ Z o) (n : ℕ) :
    x.look w n = x.look v n :=
  look_congr h.rebuild h.makefileTime (fun o ho => h.fs o (hx o ho)) n

/-! ### The plan of a project -/

/-- The files written when the part has been dealt with. -/
def Part.adds (v : World) (Z : Str → Prop) (x : Part) (o : Str) : Prop :=
  Z o ∨ x.stale v = true ∧ o ∈ x.writes

/-- The files written when all the parts have been. -/
def addedBy (v : World) (Z : Str → Prop) (xs : List Part) : Str → Prop := xs.foldl (Part.adds v) Z

/-- No part is looked at after a file that the look reads may have been written. -/
def Undisturbed (v : World) : (Str → Prop) → List Part → Prop
  | _, [] => True
  | Z, x :: xs => (∀ o ∈ x.reads v, ¬ Z o) ∧ Undisturbed v (x.adds v Z) xs

/-- The parts of a project, each with the command that makes it. -/
def Project.plan (v : World) (target cflags : Str) (p : Project) : List (Part × Cmd) :=
  (p.files.find? isHeader).toList.map (fun h => (headerPart target h, pchCmd target cflags p.makingCpp h)) ++
    (p.fnames v).map fun f => (sourcePart target f, compileCmd (p.pchName target) target cflags f)

/-- The objects of the sources, in the order of the sources. -/
def Project.objects (v : World) (p : Project) : List Str := (p.fnames v).map (mkobjname (objdir v.target))

theorem plan_parts (v : World) (target cflags : Str) (p : Project) :
    (p.plan v target cflags).map Prod.fst = p.parts v target := by
  simp only [Project.plan, Project.parts, List.map_append, List.map_map, Function.comp_def]

/-- The commands of the parts that have to be made. -/
def staleCmds (v : World) (ts : List (Part × Cmd)) : List Cmd :=
  (ts.filter fun t => t.1.stale v).map Prod.snd

theorem staleCmds_append (v : World) (ts us : List (Part × Cmd)) :
    staleCmds v (ts ++ us) = staleCmds v ts ++ staleCmds v us := by
  rw [staleCmds, List.filter_append, List.map_append]
  rfl

theorem staleCmds_made {x : Part} (h : x.stale v = true) (cmd : Cmd) : staleCmds v [(x, cmd)] = [cmd] := by
  simp [staleCmds, h]

theorem staleCmds_kept {x : Part} (h : x.stale v = false) (cmd : Cmd) : staleCmds v [(x, cmd)] = [] := by
  simp [staleCmds, h]

/-- The build has come so far: it has started `cmds`, which write files of `Z` alone, and the newest
    file it has seen is of `n`. -/
structure Planned (v : World) (Z : Str → Prop) (n : ℕ) (cmds : List Cmd) (w : World) : Prop where
  near : Near v Z w
  newest : w.newestTime = n
  execs : (execs w.log).map Prod.fst = cmds.reverse

variable {cmds : List Cmd} {n : ℕ} {p : Project} {xs ys : List Part}

theorem Planned.cast {n n' : ℕ} {cmds' : List Cmd} (h : Planned v Z n cmds w) (hZ : Z' = Z) (hn : n' = n)
    (hcmds : cmds' = cmds) : Planned v Z' n' cmds' w := by
  rw [hZ, hn, hcmds]
  exact h

/-- A source is compiled by rules that allow its command when it has to be compiled. -/
theorem path_asked {cflags fname : Str} (hexec : asksRebuild env fname s = true →
    R.exec (compileCmd s.b.pchname s.w.target cflags fname)) (hskip : ∀ cmd w, R.skip cmd w) :
    Path env R s.w (doCompile env cflags fname s).w := by
  by_cases hasks : asksRebuild env fname s = true
  · exact path_doCompile (hexec hasks) fun w _ _ => hskip _ w
  · have hy := path_yield env R s.w
    have hle := needsRebuild_newest (s.w.yield env).rebuild (s.w.yield env).fs
      (s.w.yield env).makefileTime (s.w.yield env).newestTime
      (mkdepname (objdir (s.w.yield env).target) fname)
      (compileCmd s.b.pchname (s.w.yield env).target cflags fname).out
    have hp := hy.tail (.aside (s.w.yield env).nyield (s.w.yield env).nrand hle)
    rw [asksRebuild] at hasks
    rw [doCompile]
    dsimp only [countSource, compileCmd] at hasks hp ⊢
    rcases hr : needsRebuild _ _ _ _ _ _ with ⟨_ | _, newest⟩
    · rw [hr] at hp
      exact hp.tail (.say ⟨rfl, hskip _ _⟩)
    · rw [hr] at hasks
      exact absurd rfl hasks

theorem writes_part {cmd : Cmd} {x : Part} (ho : cmd.out = x.product) {o : Str}
    (h : cmd.writes o = true) : o ∈ x.writes := by
  rw [Cmd.writes, Bool.or_eq_true, Bool.and_eq_true, decide_eq_true_eq, decide_eq_true_eq, ho] at h
  rw [Part.writes, List.mem_cons, List.mem_singleton]
  exact h.imp Eq.symm fun h => h.2.symm

/-- A command that is started for a part that has to be made keeps to the rules. -/
theorem writing_part {cmd : Cmd} {x : Part} (ho : cmd.out = x.product) (hx : x.stale v = true) :
    (writing (x.adds v Z)).exec cmd :=
  fun _ h => Or.inr ⟨hx, writes_part ho h⟩

theorem Planned.doCompile (hcalm : env.Calm) {pch : Str} (cflags fname : Str) (hne : s.b.jobs ≠ [])
    (hpch : s.b.pchname = pch) (h : Planned v Z n cmds s.w)
    (hx : ∀ o ∈ (sourcePart v.target fname).reads v, ¬ Z o) :
    Planned v ((sourcePart v.target fname).adds v Z) ((sourcePart v.target fname).look v n).2
      (cmds ++ staleCmds v [(sourcePart v.target fname, compileCmd pch v.target cflags fname)])
      (doCompile env cflags fname s).w := by
  obtain ⟨hnear, rfl, hexecs⟩ := h
  have hlook : (sourcePart v.target fname).look (s.w.yield env) s.w.newestTime =
      (sourcePart v.target fname).look v s.w.newestTime :=
    (hnear.path hcalm (path_yield env _ s.w)).look hx _
  have hasks : asksRebuild env fname s = (sourcePart v.target fname).stale v := by
    rw [asksRebuild_look, hnear.target, hlook, look_stale]
  refine ⟨(hnear.mono fun o => Or.inl).path hcalm (path_asked (fun ha => ?_) fun _ _ => trivial), ?_, ?_⟩
  · rw [hnear.target]
    exact writing_part rfl (hasks ▸ ha)
  · rw [doCompile_newest, hnear.target, hlook]
  · rcases doCompile_log env cflags fname s hne with ⟨ha, hlog⟩ | ⟨ha, he, -⟩
    · obtain ⟨fs, he⟩ := hlog.execs
      rw [staleCmds_made (hasks ▸ ha), List.reverse_append, he, List.map_cons, hexecs, hpch, hnear.target]
      rfl
    · rw [staleCmds_kept (hasks ▸ ha), List.append_nil, he, hexecs]

theorem Planned.compileAll (hcalm : env.Calm) {pch : Str} (cflags : Str) : ∀ (fs : List Str) {Z : Str → Prop}
    {n : ℕ} {cmds : List Cmd} (s : St), s.b.jobs ≠ [] → s.b.pchname = pch → Planned v Z n cmds s.w →
    Undisturbed v Z (fs.map (sourcePart v.target)) →
    Planned v (addedBy v Z (fs.map (sourcePart v.target))) (seenAfter v n (fs.map (sourcePart v.target)))
      (cmds ++ staleCmds v (fs.map fun f => (sourcePart v.target f, compileCmd pch v.target cflags f)))
      (compileAll env cflags fs s).w
  | [], Z, n, cmds, s, _, _, h, _ => h.cast rfl rfl (List.append_nil cmds)
  | f :: fs, Z, n, cmds, s, hne, hpch, h, hclear => by
    have hstep := h.doCompile hcalm cflags f hne hpch hclear.1
    have hrest := Planned.compileAll hcalm cflags fs (Cake.doCompile env cflags f s)
      (doCompile_ne_nil env cflags f hne) ((doCompile_pchname ..).trans hpch) hstep hclear.2
    refine hrest.cast rfl rfl ?_
    rw [List.append_assoc, ← staleCmds_append]
    rfl

theorem undisturbed_append : ∀ (xs : List Part) {Z : Str → Prop},
    Undisturbed v Z (xs ++ ys) ↔ Undisturbed v Z xs ∧ Undisturbed v (addedBy v Z xs) ys
  | [], Z => ⟨fun h => ⟨trivial, h⟩, fun h => h.2⟩
  | x :: xs, Z => by
    rw [List.cons_append, Undisturbed, Undisturbed, undisturbed_append xs, and_assoc]
    rfl

/-- A file may have been written by then when it was in `Z` or a part that had to be made writes it. -/
theorem addedBy_iff {o : Str} : ∀ {xs : List Part} {Z : Str → Prop},
    addedBy v Z xs o ↔ Z o ∨ ∃ x ∈ xs, x.stale v = true ∧ o ∈ x.writes
  | [], Z => by simp [addedBy]
  | x :: xs, Z => by
    rw [addedBy, List.foldl_cons, ← addedBy, addedBy_iff, Part.adds, List.exists_mem_cons_iff, or_assoc]

theorem undisturbed_iff : ∀ {xs : List Part} {Z : Str → Prop}, Undisturbed v Z xs ↔
    (∀ x ∈ xs, ∀ o ∈ x.reads v, ¬ Z o) ∧
      xs.Pairwise fun x y => x.stale v = true → ∀ o ∈ x.writes, o ∉ y.reads v
  | [], Z => by simp [Undisturbed]
  | x :: xs, Z => by
    rw [Undisturbed, undisturbed_iff, List.forall_mem_cons, List.pairwise_cons]
    constructor
    · rintro ⟨hx, hxs, hpairs⟩
      exact ⟨⟨hx, fun y hy o ho hz => hxs y hy o ho (Or.inl hz)⟩,
        fun y hy hs o hw hr => hxs y hy o hr (Or.inr ⟨hs, hw⟩), hpairs⟩
    · rintro ⟨⟨hx, hxs⟩, hwrites, hpairs⟩
      refine ⟨hx, fun y hy o ho hz => ?_, hpairs⟩
      rcases hz with hz | ⟨hs, hw⟩
      · exact hxs y hy o ho hz
      · exact hwrites y hy hs o hw ho

/-- More files may be written when no look reads them. -/
theorem Undisturbed.widen {W : Str → Prop} (h : Undisturbed v Z xs) (hZ : ∀ o, Z' o → Z o ∨ W o)
    (hW : ∀ x ∈ xs, ∀ o ∈ x.reads v, ¬ W o) : Undisturbed v Z' xs := by
  obtain ⟨hread, hpairs⟩ := undisturbed_iff.mp h
  refine undisturbed_iff.mpr ⟨fun x hx o ho hz => ?_, hpairs⟩
  exact (hZ o hz).elim (hread x hx o ho) (hW x hx o ho)

theorem addedBy_append (v : World) (Z : Str → Prop) (xs ys : List Part) :
    addedBy v Z (xs ++ ys) = addedBy v (addedBy v Z xs) ys := List.foldl_append ..

theorem seenAfter_append (w : World) (n : ℕ) (xs ys : List Part) :
    seenAfter w n (xs ++ ys) = seenAfter w (seenAfter w n xs) ys := List.foldl_append ..

theorem Near.say (h : Near v Z w) (e : Ev) : Near v Z (w.say e) :=
  ⟨⟨h.pids.nodup, h.pids.bound⟩, h.procs, h.fs, h.glob, h.target, h.makefileTime, h.rebuild⟩

/-- A header is made by rules that allow its command when it has to be made. -/
theorem path_headerAsked {hd cflags : Str} {cpp : Bool}
    (hexec : ((headerPart s.w.target hd).look (s.w.yield env) s.w.newestTime).1 = true →
      R.exec (pchCmd s.w.target cflags cpp hd)) : Path env R s.w (makePch env hd cflags cpp s).w := by
  by_cases hfound : ((headerPart s.w.target hd).look (s.w.yield env) s.w.newestTime).1 = true
  · exact path_makePch (hexec hfound)
  · have heq := makePch_eq env hd cflags cpp s
    dsimp only at heq
    rw [newest_yield, if_neg hfound] at heq
    rw [heq]
    refine (path_yield env R s.w).tail (.aside (s.w.yield env).nyield (s.w.yield env).nrand ?_)
    rw [newest_yield]
    exact look_newest ..

theorem Planned.makePch (hcalm : env.Calm) (hd cflags : Str) (cpp : Bool) (h : Planned v Z n cmds s.w)
    (hx : ∀ o ∈ (headerPart v.target hd).reads v, ¬ Z o) :
    Planned v ((headerPart v.target hd).adds v Z) ((headerPart v.target hd).look v n).2
      (cmds ++ staleCmds v [(headerPart v.target hd, pchCmd v.target cflags cpp hd)])
      (makePch env hd cflags cpp s).w := by
  obtain ⟨hnear, rfl, hexecs⟩ := h
  have hlook : (headerPart v.target hd).look (s.w.yield env) s.w.newestTime =
      (headerPart v.target hd).look v s.w.newestTime :=
    (hnear.path hcalm (path_yield env _ s.w)).look hx _
  obtain ⟨hnewest, hlog⟩ := makePch_look env hd cflags cpp s
  rw [hnear.target, hlook] at hnewest hlog
  rw [look_stale] at hlog
  refine ⟨(hnear.mono fun o => Or.inl).path hcalm (path_headerAsked fun hfound => ?_), hnewest, ?_⟩
  · rw [hnear.target, hlook, look_stale] at hfound
    rw [hnear.target]
    exact writing_part rfl hfound
  · rcases hlog with ⟨hstale, hlog⟩ | ⟨hstale, hlog⟩
    · obtain ⟨fs, he⟩ := hlog.execs
      rw [staleCmds_made hstale, List.reverse_append, he, List.map_cons, hexecs]
      rfl
    · rw [staleCmds_kept hstale, List.append_nil, hlog, hexecs]

/-- The header of the build. -/
theorem Planned.header (hcalm : env.Calm) (p : Project) (cflags : Str) (h : Near v Z w)
    (hn : w.newestTime = n)
    (hclear : Undisturbed v Z ((p.files.find? isHeader).toList.map (headerPart v.target))) :
    Planned v (addedBy v Z ((p.files.find? isHeader).toList.map (headerPart v.target)))
      (seenAfter v n ((p.files.find? isHeader).toList.map (headerPart v.target)))
      (staleCmds v ((p.files.find? isHeader).toList.map fun hd =>
        (headerPart v.target hd, pchCmd v.target cflags p.makingCpp hd)))
      (p.header env cflags w).w := by
  have hnew : Planned v Z n [] (newBuild env w).w := ⟨h.say _, hn, rfl⟩
  rw [Project.header, Project.pchStep]
  cases hfind : p.files.find? isHeader with
  | none => exact hnew
  | some hd =>
    rw [hfind] at hclear
    exact hnew.makePch hcalm hd cflags p.makingCpp hclear.1

/-- When the output is decided upon, the commands of the parts that had to be made have been started and
    no others. -/
theorem Planned.ready (hcalm : env.Calm) (p : Project) (cflags : Str) (h : Near v Z w)
    (hn : w.newestTime = n) (hclear : Undisturbed v Z (p.parts v v.target)) :
    Planned v (addedBy v Z (p.parts v v.target)) (seenAfter v n (p.parts v v.target))
      (staleCmds v (p.plan v v.target cflags)) (p.ready env cflags w).w := by
  rw [Project.parts, undisturbed_append] at hclear
  have hnames : p.sources env cflags w = p.fnames v := by
    rw [p.sources_calm hcalm, Project.fnames_glob h.glob]
  have hpch : (p.header env cflags w).b.pchname = p.pchName v.target := by
    rw [p.header_pchname, h.target]
  have hlog := ready_log env p cflags w
  have hready : p.ready env cflags w =
      decision env (Cake.compileAll env cflags (p.fnames v) (p.header env cflags w)) := by
    rw [Project.ready, Project.after, List.take_length, hnames]
  obtain ⟨hnear, hnewest, hexecs⟩ := (Planned.header hcalm p cflags h hn hclear.1).compileAll hcalm cflags
    (p.fnames v) (p.header env cflags w) (header_busy env p cflags w) hpch hclear.2
  rw [Project.parts, addedBy_append, seenAfter_append, Project.plan, staleCmds_append]
  refine ⟨?_, ?_, ?_⟩
  · rw [hready]
    exact hnear.path hcalm (path_decision _)
  · rw [hready, newest_decision]
    exact hnewest
  · rw [hlog.execs, hnames]
    exact hexecs

end Cake
