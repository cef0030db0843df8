import Cake.Lib.Moves
import Cake.Lib.Logs
import Cake.BuildBooks

/-! The steps a build takes in the world.

    Every function of a build moves the world along `Move`: outside activity, a child that exits or
    is reaped, a command that is started, and notes in the log. `Rules` says which commands a build
    may start and which sources and outputs it may leave as they are; the decisions of the code are
    the proofs of these rules. What holds of the world in every state of every run is then checked on
    six moves.

        function of the code ──path lemma──▶ Move … Move ──Moves.keeps──▶ invariant -/

namespace Cake

open Relation

/-- What may be done: start a command, skip a source, keep an output, make a new build object. -/
structure Rules where
  exec : Cmd → Prop
  skip : Cmd → World → Prop
  kept : Cmd → World → Prop
  build : Prop

/-- Only the commands are restricted. -/
def Rules.execs (P : Cmd → Prop) : Rules := ⟨P, fun _ _ => True, fun _ _ => True, True⟩

/-- Anything may be done. -/
def Rules.all : Rules := .execs fun _ => True

/-- What a build may note in the log. -/
def Rules.says (R : Rules) (w : World) : Ev → Prop
  | .build v => v = w.snap ∧ R.build
  | .echild => True
  | .skip cmd v => v = w.snap ∧ R.skip cmd w
  | .kept cmd v => v = w.snap ∧ R.kept cmd w
  | _ => False

inductive Move (env : Env) (R : Rules) (w : World) : World → Prop
  | act {k : ℕ} {a : Act} (ha : a ∈ env.sched k) : Move env R w (w.act a)
  | finish (pid : ℕ) : Move env R w (w.finish pid)
  | reap {pr : Proc} {e : Ev} (hpr : pr ∈ w.procs) (hz : pr.zombie = true)
      (he : e = .reaped pr ∨ e = .stolen pr) : Move env R w (w.reap pr e)
  | start {cmd : Cmd} (h : R.exec cmd) : Move env R w (w.fork env cmd).2
  | aside (nyield nrand : ℕ) {newest : ℕ} (hn : w.newestTime ≤ newest) :
      Move env R w { w with nyield := nyield, nrand := nrand, newestTime := newest }
  | say {e : Ev} (h : R.says w e) : Move env R w (w.say e)

abbrev Path (env : Env) (R : Rules) : World → World → Prop := ReflTransGen (Move env R)

variable {env : Env} {R : Rules}

/-- A path by some rules is a path by wider ones. -/
theorem Path.widen {R' : Rules} {w w' : World} (hexec : ∀ cmd, R.exec cmd → R'.exec cmd)
    (hsay : ∀ w e, R.says w e → R'.says w e) (hp : Path env R w w') : Path env R' w w' := by
  refine ReflTransGen.mono (fun u u' hm => ?_) _ _ hp
  cases hm with
  | act ha => exact .act ha
  | finish pid => exact .finish pid
  | reap hpr hz he => exact .reap hpr hz he
  | start h => exact .start (hexec _ h)
  | aside k r hn => exact .aside k r hn
  | say h => exact .say (hsay _ _ h)

/-! ### What time does -/

/-- The settings of a run stay, the clock, the fork counter and `newest_time` do not go back, and the
    log grows. -/
structure Later (w w' : World) : Prop where
  target : w'.target = w.target
  rebuild : w'.rebuild = w.rebuild
  makefileTime : w'.makefileTime = w.makefileTime
  newestTime : w.newestTime ≤ w'.newestTime
  clock : w.clock ≤ w'.clock
  nfork : w.nfork ≤ w'.nfork
  log : ∃ new, w'.log = new ++ w.log

theorem Later.refl (w : World) : Later w w := ⟨rfl, rfl, rfl, le_rfl, le_rfl, le_rfl, [], rfl⟩

theorem Later.trans {u v w : World} (h : Later u v) (k : Later v w) : Later u w := by
  obtain ⟨a, ha⟩ := h.log
  obtain ⟨b, hb⟩ := k.log
  exact ⟨k.target.trans h.target, k.rebuild.trans h.rebuild, k.makefileTime.trans h.makefileTime,
    h.newestTime.trans k.newestTime, h.clock.trans k.clock, h.nfork.trans k.nfork,
    b ++ a, by rw [hb, ha, List.append_assoc]⟩

theorem World.later_land (pr : Proc) (w : World) : Later w (w.land pr) := by
  rw [World.land]
  split
  · exact .refl w
  · exact ⟨rfl, rfl, rfl, le_rfl, le_rfl, le_rfl, [], rfl⟩
  · exact ⟨rfl, rfl, rfl, le_rfl, le_rfl, le_rfl, [_], rfl⟩

theorem World.later_finish (pid : ℕ) (w : World) : Later w (w.finish pid) := by
  rw [World.finish]
  split
  · exact .refl w
  · obtain ⟨h₁, h₂, h₃, h₄, h₅, h₆, h₇⟩ := World.later_land ‹Proc› { w with procs := w.marked pid }
    exact ⟨h₁, h₂, h₃, h₄, h₅, h₆, h₇⟩

theorem World.later_act (w : World) (a : Act) : Later w (w.act a) := by
  cases a with
  | exit pid => exact w.later_finish pid
  | tick d => exact ⟨rfl, rfl, rfl, le_rfl, Nat.le_add_right .., le_rfl, [], rfl⟩
  | edit p data => exact ⟨rfl, rfl, rfl, le_rfl, le_rfl, le_rfl, [_], rfl⟩
  | restore p f => exact ⟨rfl, rfl, rfl, le_rfl, le_rfl, le_rfl, [], rfl⟩
  | relist g => exact ⟨rfl, rfl, rfl, le_rfl, le_rfl, le_rfl, [], rfl⟩

theorem World.later_fork (env : Env) (cmd : Cmd) (w : World) : Later w (w.fork env cmd).2 := by
  rw [World.fork]
  cases env.fork w.nfork cmd w.fs with
  | none => exact ⟨rfl, rfl, rfl, le_rfl, le_rfl, Nat.le_succ _, [_], rfl⟩
  | some f => exact ⟨rfl, rfl, rfl, le_rfl, le_rfl, Nat.le_succ _, [_], rfl⟩

theorem Move.later {w w' : World} (h : Move env R w w') : Later w w' := by
  cases h with
  | act _ => exact w.later_act _
  | finish pid => exact w.later_finish pid
  | reap _ _ _ => exact ⟨rfl, rfl, rfl, le_rfl, le_rfl, le_rfl, [_], rfl⟩
  | start _ => exact w.later_fork env _
  | aside _ _ hn => exact ⟨rfl, rfl, rfl, hn, le_rfl, le_rfl, [], rfl⟩
  | say _ => exact ⟨rfl, rfl, rfl, le_rfl, le_rfl, le_rfl, [_], rfl⟩

theorem Path.later {w w' : World} (h : Path env R w w') : Later w w' :=
  Moves.compares Later.refl (fun _ _ _ => Later.trans) (fun _ _ => Move.later) h

/-! ### What a move writes to the log -/

/-- The events of a move from `w` to `w'`. -/
def Noted (env : Env) (R : Rules) (w w' : World) : Ev → Prop
  | .run _ | .leave _ _ => False
  | .build v => v = w.snap ∧ R.build
  | .echild => True
  | .exec cmd fate => R.exec cmd ∧ fate = env.fork w.nfork cmd w.fs
  | .wrote pr v => pr ∈ w.procs ∧ pr.zombie = false ∧ pr.fate.outcome = .written ∧ v = w'.snap
  | .reaped pr | .stolen pr => pr ∈ w.procs ∧ pr.zombie = true
  | .edit _ now => now = w.clock
  | .skip cmd v => v = w.snap ∧ R.skip cmd w
  | .kept cmd v => v = w.snap ∧ R.kept cmd w

theorem World.log_finish (pid : ℕ) (w : World) : (w.finish pid).log = w.log ∨
    ∃ pr ∈ w.procs, pr.zombie = false ∧ pr.fate.outcome = .written ∧
      (w.finish pid).log = .wrote pr (w.finish pid).snap :: w.log := by
  rw [World.finish]
  cases hf : w.procs.find? (fun pr => pr.pid == pid && !pr.zombie) with
  | none => exact Or.inl rfl
  | some pr =>
    have hz : pr.zombie = false := by
      have := List.find?_some hf
      simp only [Bool.and_eq_true, Bool.not_eq_true'] at this
      exact this.2
    dsimp only
    rw [World.land]
    split
    · exact Or.inl rfl
    · exact Or.inl rfl
    · rename_i ho
      exact Or.inr ⟨pr, List.mem_of_find?_eq_some hf, hz, ho, rfl⟩

/-- A move adds at most one event to the log. -/
theorem Move.log_cases {w w' : World} (h : Move env R w w') :
    w'.log = w.log ∨ ∃ e, w'.log = e :: w.log ∧ Noted env R w w' e := by
  have finish : ∀ pid, w' = w.finish pid →
      w'.log = w.log ∨ ∃ e, w'.log = e :: w.log ∧ Noted env R w w' e := by
    rintro pid rfl
    rcases w.log_finish pid with h | ⟨pr, hpr, hz, ho, h⟩
    · exact Or.inl h
    · exact Or.inr ⟨_, h, hpr, hz, ho, rfl⟩
  cases h with
  | @act k a ha =>
    cases a with
    | exit pid => exact finish pid rfl
    | edit p data => exact Or.inr ⟨_, rfl, rfl⟩
    | tick d => exact Or.inl rfl
    | restore p f => exact Or.inl rfl
    | relist g => exact Or.inl rfl
  | finish pid => exact finish pid rfl
  | reap hpr hz he =>
    rcases he with rfl | rfl
    · exact Or.inr ⟨_, rfl, hpr, hz⟩
    · exact Or.inr ⟨_, rfl, hpr, hz⟩
  | @start cmd h =>
    rw [World.fork]
    cases hf : env.fork w.nfork cmd w.fs with
    | none => exact Or.inr ⟨_, rfl, h, hf.symm⟩
    | some f => exact Or.inr ⟨_, rfl, h, hf.symm⟩
  | aside _ _ _ => exact Or.inl rfl
  | @say e h =>
    refine Or.inr ⟨e, rfl, ?_⟩
    cases e <;> first | exact h | exact h.elim

/-- A property of all events is kept by a move when it holds of the event the move adds. -/
theorem Move.every {P : Ev → List Ev → Prop} {w w' : World} (h : Move env R w w')
    (hP : ∀ e, Noted env R w w' e → P e w.log) (hw : Logs.Every P w.log) : Logs.Every P w'.log := by
  rcases h.log_cases with heq | ⟨e, heq, he⟩
  · rwa [heq]
  · rw [heq]
    exact hw.cons (hP e he)

/-- An act adds an edit or the end of a child. -/
theorem World.act_every {P : Ev → List Ev → Prop} {w : World} (a : Act)
    (hedit : ∀ p now, P (.edit p now) w.log) (hwrote : ∀ pr v, P (.wrote pr v) w.log)
    (hw : Logs.Every P w.log) : Logs.Every P (w.act a).log := by
  cases a with
  | exit pid =>
    rcases w.log_finish pid with heq | ⟨pr, -, -, -, heq⟩
    · rw [World.act, heq]; exact hw
    · rw [World.act, heq]; exact hw.cons (hwrote _ _)
  | edit p data => exact hw.cons (hedit _ _)
  | tick d => exact hw
  | restore p f => exact hw
  | relist g => exact hw

/-! ### System calls -/

theorem path_acts {k : ℕ} (as : List Act) (h : ∀ a ∈ as, a ∈ env.sched k) (w : World) :
    Path env R w (as.foldl World.act w) :=
  Moves.fold as w fun _ a ha => .single (.act (h a ha))

theorem path_yield (env : Env) (R : Rules) (w : World) : Path env R w (w.yield env) :=
  .head (.aside (w.nyield + 1) w.nrand le_rfl) (path_acts _ (fun _ h => h) _)

theorem path_waitOne {block : Bool} {pid : ℕ} {w w' : World} {r : ℤ × ℕ}
    (h : w.waitOne block pid = (r, w')) : Path env R w w' := by
  have hf : Path env R w (if block then w.finish pid else w) := by
    split
    · exact .single (.finish pid)
    · exact .refl
  unfold World.waitOne at h
  dsimp only at h
  generalize (if block then w.finish pid else w) = v at h hf
  cases hfind : v.procs.find? (fun pr => pr.pid == pid) with
  | none =>
    simp only [hfind, Prod.mk.injEq] at h
    exact h.2 ▸ hf
  | some pr =>
    cases hz : pr.zombie with
    | true =>
      simp only [hfind, hz, if_true, Prod.mk.injEq] at h
      exact h.2 ▸ hf.tail (.reap (List.mem_of_find?_eq_some hfind) hz (Or.inl rfl))
    | false =>
      simp only [hfind, hz, Bool.false_eq_true, if_false, Prod.mk.injEq] at h
      exact h.2 ▸ hf

theorem path_waitAny {block : Bool} {n : ℕ} {w w' : World} {r : ℤ × ℕ}
    (h : w.waitAny block n = (r, w')) : Path env R w w' := by
  unfold World.waitAny at h
  cases hp : w.procs with
  | nil =>
    simp only [hp, Prod.mk.injEq] at h
    exact h.2 ▸ .single (.say trivial)
  | cons p ps =>
    simp only [hp] at h
    have hf : Path env R w (if block && ((p :: ps).filter (·.zombie)).isEmpty then
        w.finish ((p :: ps).getD (n % (ps.length + 1)) p).pid else w) := by
      split
      · exact .single (.finish _)
      · exact .refl
    generalize (if block && ((p :: ps).filter (·.zombie)).isEmpty then
      w.finish ((p :: ps).getD (n % (ps.length + 1)) p).pid else w) = v at h hf
    cases hg : (v.procs.filter (·.zombie))[n % (v.procs.filter (·.zombie)).length]? with
    | none =>
      simp only [hg, Prod.mk.injEq] at h
      exact h.2 ▸ hf
    | some pr =>
      simp only [hg, Prod.mk.injEq] at h
      obtain ⟨hpr, hz⟩ := List.mem_filter.mp (List.mem_of_getElem? hg)
      exact h.2 ▸ hf.tail (.reap hpr hz (Or.inr rfl))

theorem path_waitpid {block : Bool} {pid : ℤ} {w w' : World} {r : ℤ × ℕ}
    (h : w.waitpid env block pid = (r, w')) : Path env R w w' := by
  refine (path_yield env R w).trans ?_
  unfold World.waitpid at h
  dsimp only at h
  split at h
  · exact path_waitAny h
  · exact path_waitOne h

theorem path_begin {cmd : Cmd} {c : Command} {w w' : World} (hR : R.exec cmd)
    (h : Command.begin env cmd w = (c, w')) : Path env R w w' := by
  have hw : (w.fork env cmd).2 = w' := congrArg Prod.snd h
  exact hw ▸ .single (.start hR)

theorem path_query {c c' : Command} {ok : Bool} {w w' : World}
    (h : c.queryComplete env w = (ok, c', w')) : Path env R w w' := by
  obtain rfl | ⟨r, status, hw⟩ := Command.query_world h
  · exact .refl
  · exact path_waitpid hw

theorem path_wait {c c' : Command} {ok : Bool} {w w' : World} (h : c.wait env w = (ok, c', w')) :
    Path env R w w' := by
  obtain rfl | ⟨r, status, hw⟩ := Command.wait_world h
  · exact .refl
  · exact path_waitpid hw

theorem path_execute {cmd : Cmd} {ok : Bool} {code : ℕ} {w w' : World} (hR : R.exec cmd)
    (h : executeCommand env cmd w = (ok, code, w')) : Path env R w w' := by
  obtain ⟨c, v, c', hb, hw, -⟩ := executeCommand_cases h
  exact (path_begin hR hb).trans (path_wait hw)

/-! ### The pool -/

theorem path_startJob {cmd : Cmd} (hR : R.exec cmd) (s : St) :
    Path env R s.w (startJob env cmd s).2.w := by
  rw [startJob_eq]
  exact path_begin hR rfl

theorem path_pollSlots {cmd : Cmd} (hR : R.exec cmd) : ∀ (js : List Job) (s : St),
    Path env R s.w (pollSlots env cmd js s).2.2.w
  | [], _ => .refl
  | j :: js, s => by
    rw [pollSlots]
    cases j.cmd.isActive with
    | false => exact path_startJob hR s
    | true =>
      simp only [if_true]
      rcases hq : j.cmd.queryComplete env s.w with ⟨_ | _, c, w⟩
      · exact (path_query hq).trans (path_pollSlots hR js { s with w := w })
      · exact (path_query hq).trans (path_startJob hR ⟨_, w⟩)

theorem path_stealSlot {cmd : Cmd} (hR : R.exec cmd) (r : ℕ) (s : St) :
    Path env R s.w (stealSlot env cmd r s).w := by
  rw [stealSlot]
  cases s.b.jobs[r]? with
  | none => exact .refl
  | some j =>
    dsimp only
    rcases hw : j.cmd.wait env s.w with ⟨ok, c, w⟩
    exact (path_wait hw).trans (path_startJob hR ⟨_, w⟩)

theorem path_addCompileJob {cmd : Cmd} (hR : R.exec cmd) (s : St) :
    Path env R s.w (addCompileJob env cmd s).w := by
  have hp : Path env R s.w (pollSlots env cmd s.b.jobs s).2.2.w := path_pollSlots hR s.b.jobs s
  rw [addCompileJob]
  rcases hq : pollSlots env cmd s.b.jobs s with ⟨_ | _, jobs, t⟩
  · rw [hq] at hp
    exact (hp.tail (.aside t.w.nyield (t.w.nrand + 1) le_rfl)).trans (path_stealSlot hR _ ⟨t.b, _⟩)
  · rw [hq] at hp
    exact hp

theorem path_drain : ∀ (js : List Job) (s : St), Path env R s.w (drain env js s).2.w
  | [], _ => .refl
  | j :: js, s => by
    rw [drain]
    cases j.cmd.isActive with
    | false => exact path_drain js s
    | true =>
      simp only [if_true]
      rcases hw : j.cmd.wait env s.w with ⟨ok, c, w⟩
      exact (path_wait hw).trans (path_drain js ⟨_, w⟩)

theorem path_completeJobs (s : St) : Path env R s.w (completeJobs env s).w := path_drain s.b.jobs s

/-! ### The methods of the build object -/

/-- A source is skipped or compiled. -/
theorem path_doCompile {cflags fname : Str} {s : St}
    (hR : R.exec (compileCmd s.b.pchname s.w.target cflags fname))
    (hskip : ∀ w, Later s.w w → Stands w.fs w.makefileTime w.newestTime
        (mkdepname (objdir s.w.target) fname) (mkobjname (objdir s.w.target) fname) →
      R.skip (compileCmd s.b.pchname s.w.target cflags fname) w) :
    Path env R s.w (doCompile env cflags fname s).w := by
  have hy := path_yield env R s.w
  rw [← hy.later.target] at hR hskip
  have hle := needsRebuild_newest (s.w.yield env).rebuild (s.w.yield env).fs
    (s.w.yield env).makefileTime (s.w.yield env).newestTime
    (mkdepname (objdir (s.w.yield env).target) fname)
    (compileCmd s.b.pchname (s.w.yield env).target cflags fname).out
  have hp := hy.tail (.aside (s.w.yield env).nyield (s.w.yield env).nrand hle)
  rw [doCompile]
  dsimp only [countSource]
  rcases hn : needsRebuild _ _ _ _ _ _ with ⟨_ | _, newest⟩
  · rw [hn] at hp
    have hst := (stands_of_needsRebuild hn).2
    have hsay : R.says _ (.skip _ _) := ⟨rfl, hskip _ (Path.later hp) hst⟩
    exact hp.tail (.say hsay)
  · rw [hn] at hp
    exact hp.trans (path_addCompileJob hR ⟨_, _⟩)

theorem path_buildPch {cmd : Cmd} (hR : R.exec cmd) (s : St) :
    Path env R s.w (buildPch env cmd s).w := by
  rw [buildPch_world]
  exact path_execute hR rfl

theorem path_makePch {pch cflags : Str} {cpp : Bool} {s : St}
    (hR : R.exec (pchCmd s.w.target cflags cpp pch)) :
    Path env R s.w (makePch env pch cflags cpp s).w := by
  refine makePch_keeps (P := fun t => Path env R s.w t.w) (fun n hn => ?_) fun t ht => ?_
  · exact (path_yield env R s.w).tail (.aside (s.w.yield env).nyield (s.w.yield env).nrand hn)
  · exact Relation.ReflTransGen.trans ht (path_buildPch hR t)

theorem path_buildOutput {cmd : Cmd} (hR : R.exec cmd) (s : St) :
    Path env R s.w (buildOutput env cmd s).2.w := by
  rw [buildOutput_world]
  exact path_execute hR rfl

/-- The state in which `link` and `staticlib` decide. -/
def decision (env : Env) (s : St) : St := completeJobs env { s with w := s.w.yield env }

theorem path_decision (s : St) : Path env R s.w (decision env s).w :=
  (path_yield env R s.w).trans (path_completeJobs ⟨s.b, s.w.yield env⟩)

/-- An output is kept or built. -/
theorem path_produce {mkCmd : St → Cmd} {s : St} (hR : R.exec (mkCmd (decision env s)))
    (hkept : (decision env s).b.nfailed = 0 →
      upToDate (decision env s) (mkCmd (decision env s)).out = true →
      R.kept (mkCmd (decision env s)) (decision env s).w) :
    Path env R s.w (produce env mkCmd s).2.w := by
  have hd : Path env R s.w (decision env s).w := path_decision s
  unfold produce
  dsimp only
  rw [← decision]
  split
  · exact hd
  · rename_i hn
    split
    · rename_i hup
      exact hd.tail (.say ⟨rfl, hkept (not_not.mp hn) hup⟩)
    · exact hd.trans (path_buildOutput hR _)

end Cake
