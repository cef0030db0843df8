import Cake.BuildBooks

/-! The job pool under any schedule.

    A build is fed a list of requests: a source that `needs_rebuild` lets stand, or a compile to run.
    The schedule (when children exit, what the polls see, which slot a full pool waits for) decides
    which slot a job gets and when it is counted. It does not decide what is counted: once the pool is
    drained, `linklist` is the skipped objects and the objects of the jobs that exited with 0, up to
    order. A failed fork leaves pid -1 in its slot, and `waitpid(-1)` is about any child: the same
    holds as long as no such call came back empty-handed or with a successful child. -/

namespace Cake

variable {env : Env}

/-- A `do_compile` call: what `needs_rebuild` answers, the `newest_time` it leaves, the command. -/
structure Request where
  rebuild : Bool
  newest : ℕ
  cmd : Cmd
  compile : cmd.kind = .compile

/-- A request for one source of the debug target. -/
def Request.ofSource (rebuild : Bool) (fname : String) : Request :=
  ⟨rebuild, 0, compileCmd [] "debug".toList [] fname.toList, rfl⟩

def request (env : Env) (s : St) (c : Request) : St :=
  let s := countSource { s with w := s.w.yield env }
  settle env c.rebuild c.cmd { s with w := { s.w with newestTime := c.newest } }

def requests (env : Env) (cs : List Request) (s : St) : St := cs.foldl (request env) s

/-- `do_compile` is a request with the answer of `needs_rebuild`. -/
theorem doCompile_eq_request (env : Env) (cflags fname : Str) (s : St) :
    ∃ c, doCompile env cflags fname s = request env s c :=
  ⟨⟨_, _, compileCmd s.b.pchname (s.w.yield env).target cflags fname, rfl⟩, rfl⟩

/-- The objects of the skipped sources. -/
def skippedOf (cs : List Request) : List Str := (cs.filter (fun c => !c.rebuild)).map (·.cmd.out)

/-- The objects of the compiled sources, in the order of their forks. -/
def compiledOf (cs : List Request) : List Str := (cs.filter (·.rebuild)).map (·.cmd.out)

/-- The objects whose job is forked and exits with 0; `k` numbers the first fork. -/
def winners (codes : ℕ → Option (Fin 256)) : ℕ → List Str → List Str
  | _, [] => []
  | k, o :: os =>
    if codes k = some exitZero then o :: winners codes (k + 1) os else winners codes (k + 1) os

/-- The busy slots. -/
def active (s : St) : List Job := s.b.jobs.filter (fun j => j.cmd.isActive)

/-- The jobs that were started and have left their slot. -/
def settled (s : St) : Multiset Task :=
  (started s.w.log : Multiset Task) - (s.b.jobs.filterMap Job.task : List Task)

/-- The child was started and exited normally with code 0. -/
def exitedZero {α : Type} (t : α × Option Fate) : Bool :=
  decide (t.2.map (·.status) = some (.exited exitZero))

/-! ### What the calls write to the log -/

/-- One more command was started. -/
structure ForkLog (env : Env) (cmd : Cmd) (w w' : World) : Prop where
  nfork : w'.nfork = w.nfork + 1
  execs : ∃ fs, execs w'.log = (cmd, env.fork w.nfork cmd fs) :: execs w.log
  skips : skips w'.log = skips w.log

theorem ForkLog.after {cmd : Cmd} {u v w : World} (h : u.SameLog v) (k : ForkLog env cmd v w) :
    ForkLog env cmd u w := by
  obtain ⟨fs, hfs⟩ := k.execs
  exact ⟨k.nfork.trans (by rw [h.nfork]), ⟨fs, by rw [hfs, h.execs, h.nfork]⟩, k.skips.trans h.skips⟩

theorem startJob_log (env : Env) (cmd : Cmd) (s : St) :
    ForkLog env cmd s.w (startJob env cmd s).2.w := by
  rw [startJob_eq]
  rw [Command.begin]
  rcases hw : s.w.fork env cmd with ⟨⟨pid, fate⟩, v⟩
  obtain ⟨hn, he, hs, -, rfl, -⟩ := World.fork_cases env cmd s.w hw
  exact ⟨hn, ⟨_, he⟩, hs⟩

theorem query_log {c c' : Command} {done : Bool} {w w' : World}
    (h : c.queryComplete env w = (done, c', w')) : w.SameLog w' := by
  obtain rfl | ⟨r, status, hw⟩ := Command.query_world h
  · exact (World.Same.refl _).log
  · exact World.waitpid_log hw

theorem wait_log {c c' : Command} {ok : Bool} {w w' : World} (h : c.wait env w = (ok, c', w')) :
    w.SameLog w' := by
  obtain rfl | ⟨r, status, hw⟩ := Command.wait_world h
  · exact (World.Same.refl _).log
  · exact World.waitpid_log hw

theorem pollSlots_log (env : Env) (cmd : Cmd) : ∀ (js : List Job) (s : St),
    ((pollSlots env cmd js s).1 = true → ForkLog env cmd s.w (pollSlots env cmd js s).2.2.w) ∧
    ((pollSlots env cmd js s).1 = false → s.w.SameLog (pollSlots env cmd js s).2.2.w)
  | [], s => by simpa [pollSlots] using (World.Same.refl s.w).log
  | j :: js, s => by
    rw [pollSlots]
    cases j.cmd.isActive with
    | false => exact ⟨fun _ => startJob_log env cmd s, by simp [startJob_eq]⟩
    | true =>
      simp only [if_true]
      rcases hq : j.cmd.queryComplete env s.w with ⟨_ | _, c, w⟩
      · obtain ⟨hfound, hnot⟩ := pollSlots_log env cmd js { s with w := w }
        exact ⟨fun h => (hfound h).after (query_log hq), fun h => (query_log hq).trans (hnot h)⟩
      · exact ⟨fun _ => (startJob_log env cmd ⟨_, w⟩).after (query_log hq), by simp [startJob_eq]⟩

theorem addCompileJob_log (env : Env) (cmd : Cmd) (s : St) (hne : s.b.jobs ≠ []) :
    ForkLog env cmd s.w (addCompileJob env cmd s).w := by
  have hp := pollSlots_log env cmd s.b.jobs s
  have hjobs := pollSlots_jobs env cmd s.b.jobs s
  rw [addCompileJob]
  rcases hq : pollSlots env cmd s.b.jobs s with ⟨_ | _, jobs, t⟩
  · rw [hq] at hp hjobs
    have hlt : env.frand t.w.nrand % t.b.jobs.length < t.b.jobs.length :=
      Nat.mod_lt _ (List.length_pos_iff.mpr (by rw [hjobs]; exact hne))
    refine ForkLog.after (v := { t.w with nrand := t.w.nrand + 1 })
      ((hp.2 rfl).trans (World.Same.log ⟨rfl, rfl, rfl, rfl, Iff.rfl⟩)) ?_
    dsimp only
    rw [stealSlot]
    rw [List.getElem?_eq_getElem hlt]
    dsimp only
    rcases hw : t.b.jobs[env.frand t.w.nrand % t.b.jobs.length].cmd.wait env
      { t.w with nrand := t.w.nrand + 1 } with ⟨ok, c, w⟩
    exact (startJob_log env cmd ⟨_, w⟩).after (wait_log hw)
  · rw [hq] at hp
    exact hp.1 rfl

theorem drain_log (env : Env) (js : List Job) (s : St) : s.w.SameLog (drain env js s).2.w := by
  induction js generalizing s with
  | nil => exact (World.Same.refl s.w).log
  | cons j js ih =>
    rw [drain]
    cases j.cmd.isActive with
    | false => exact ih s
    | true =>
      simp only [if_true]
      rcases hw : j.cmd.wait env s.w with ⟨ok, c, w⟩
      exact (wait_log hw).trans (ih ⟨_, w⟩)

theorem request_length (env : Env) (s : St) (c : Request) :
    (request env s c).b.jobs.length = s.b.jobs.length := settle_length env c.rebuild c.cmd _

theorem requests_append (env : Env) (cs : List Request) (c : Request) (s : St) :
    requests env (cs ++ [c]) s = request env (requests env cs s) c := by
  simp [requests]

/-! ### A sequence of requests -/

/-- Fork number `k` fails (`none`), or its child exits normally with `codes k`. -/
def ExitsWith (env : Env) (codes : ℕ → Option (Fin 256)) : Prop :=
  ∀ k cmd fs, (env.fork k cmd fs).map (·.status) = (codes k).map .exited

/-- A compile whose fork failed or whose child exits normally. -/
def NormalCompile (codes : ℕ → Option (Fin 256)) (e : Cmd × Option Fate) : Prop :=
  e.1.kind = .compile ∧ ∃ k, e.2.map (·.status) = (codes k).map .exited

/-- What a sequence of requests to a fresh build object leaves in the log. -/
structure Requested (codes : ℕ → Option (Fin 256)) (k : ℕ) (cs : List Request) (w : World) : Prop where
  nfork : w.nfork = k + (compiledOf cs).length
  skips : skips w.log = (skippedOf cs).reverse
  normal : ∀ e ∈ execs w.log, NormalCompile codes e
  count : (execs w.log).length = (compiledOf cs).length
  wins : ((started w.log).filter exitedZero).map Prod.fst = (winners codes k (compiledOf cs)).reverse

theorem Requested.same {codes : ℕ → Option (Fin 256)} {k : ℕ} {cs : List Request} {w w' : World}
    (h : Requested codes k cs w) (hw : w.SameLog w') : Requested codes k cs w' := by
  obtain ⟨h₁, h₂, h₃, h₄, h₅⟩ := h
  refine ⟨hw.nfork.trans h₁, hw.skips.trans h₂, ?_, ?_, ?_⟩ <;> simpa only [started, hw.execs]

theorem winners_append (codes : ℕ → Option (Fin 256)) (o : Str) : ∀ (k : ℕ) (os : List Str),
    winners codes k (os ++ [o]) =
      winners codes k os ++ if codes (k + os.length) = some 0 then [o] else []
  | k, [] => by simp [winners]
  | k, x :: os => by
    have hk : k + (x :: os).length = k + 1 + os.length := by simp only [List.length_cons]; omega
    rw [List.cons_append, winners, winners, winners_append codes o (k + 1) os, hk]
    split <;> simp

/-- One request adds one skip or one fork. -/
theorem Requested.request {codes : ℕ → Option (Fin 256)} {k : ℕ} {cs : List Request} {s : St}
    (h : Requested codes k cs s.w) (hf : ExitsWith env codes) (c : Request) (hne : s.b.jobs ≠ []) :
    Requested codes k (cs ++ [c]) (request env s c).w := by
  have hy : Requested codes k cs { s.w.yield env with newestTime := c.newest } :=
    (h.same (World.same_yield env s.w).log).same ⟨rfl, rfl, rfl, id⟩
  have hset : (Cake.request env s c).w = (settle env c.rebuild c.cmd
    ⟨(countSource s).b, { s.w.yield env with newestTime := c.newest }⟩).w := rfl
  rw [hset]
  generalize ({ s.w.yield env with newestTime := c.newest } : World) = v at hy
  obtain ⟨h₁, h₂, h₃, h₄, h₅⟩ := hy
  cases hc : c.rebuild with
  | false =>
    have hcomp : compiledOf (cs ++ [c]) = compiledOf cs := by simp [compiledOf, hc]
    have hskip : skippedOf (cs ++ [c]) = skippedOf cs ++ [c.cmd.out] := by simp [skippedOf, hc]
    refine ⟨by rw [hcomp]; exact h₁, ?_, h₃, by rw [hcomp]; exact h₄, by rw [hcomp]; exact h₅⟩
    rw [hskip, List.reverse_append, ← h₂]; rfl
  | true =>
    have hcomp : compiledOf (cs ++ [c]) = compiledOf cs ++ [c.cmd.out] := by simp [compiledOf, hc]
    have hskip : skippedOf (cs ++ [c]) = skippedOf cs := by simp [skippedOf, hc]
    obtain ⟨hn, ⟨fs, he⟩, hs⟩ := addCompileJob_log env c.cmd ⟨(countSource s).b, v⟩ hne
    have hstatus := hf v.nfork c.cmd fs
    dsimp only at hn he hs
    generalize env.fork v.nfork c.cmd fs = fate at he hstatus
    simp only [settle, Bool.not_true, Bool.false_eq_true, if_false]
    refine ⟨by rw [hn, h₁, hcomp]; simp; omega, by rw [hs, h₂, hskip], ?_, ?_, ?_⟩
    · rw [he]
      exact List.forall_mem_cons.mpr ⟨⟨c.compile, _, hstatus⟩, h₃⟩
    · rw [he, hcomp]; simp [h₄]
    · have hst : started (addCompileJob env c.cmd ⟨(countSource s).b, v⟩).w.log =
          (c.cmd.out, fate) :: started v.log := by simp [started, he, c.compile]
      have hwin : exitedZero (c.cmd.out, fate) = decide (codes v.nfork = some 0) := by
        rw [exitedZero, hstatus]
        cases codes v.nfork <;> simp
      rw [hst, hcomp, winners_append, ← h₁, List.reverse_append, ← h₅, List.filter_cons, hwin]
      by_cases h0 : codes v.nfork = some 0 <;> simp [h0]

theorem requested {codes : ℕ → Option (Fin 256)} (hf : ExitsWith env codes) {w : World} (hw : w.PidsOk)
    (cs : List Request) :
    Requested codes w.nfork cs (requests env cs (newBuild env w)).w ∧
      Books 0 (requests env cs (newBuild env w)).b.jobs (requests env cs (newBuild env w)) ∧
      (requests env cs (newBuild env w)).b.jobs.length = max env.cpus 1 := by
  induction cs using List.reverseRecOn with
  | nil =>
    refine ⟨⟨rfl, rfl, by simp [requests, newBuild, World.say, execs], rfl, rfl⟩,
      books_newBuild env hw, by simp [requests, newBuild]⟩
  | append_singleton cs c ih =>
    obtain ⟨hr, hb, hl⟩ := ih
    rw [requests_append]
    generalize requests env cs (newBuild env w) = s at hr hb hl
    have hne : s.b.jobs ≠ [] := by
      rw [← List.length_pos_iff, hl]; omega
    exact ⟨hr.request hf c hne,
      (Books.discipline env).settle c.compile _ ((Books.discipline env).next hb c.newest) hne,
      (request_length env s c).trans hl⟩

/-! ### What a normal log says about the ledger -/

theorem okFate_normal {f : Fate} {code : Fin 256} (h : f.status = .exited code) :
    okFate (some f) = decide (code = 0) := by
  simp only [okFate, Fate.ok, h, wexitstatus_exited]
  by_cases h0 : code = 0
  · simp [h0]
  · have : code.val ≠ 0 := fun hv => h0 (Fin.ext hv)
    simp [h0, this]

theorem started_normal {codes : ℕ → Option (Fin 256)} {log : List Ev}
    (h : ∀ e ∈ execs log, NormalCompile codes e) :
    (started log).length = (execs log).length ∧
      ∀ t ∈ started log, okFate t.2 = exitedZero t := by
  constructor
  · simp only [started, List.length_map]
    rw [List.filter_eq_self.mpr fun e he => by simp [(h e he).1]]
  · intro t ht
    obtain ⟨e, he, rfl⟩ := List.mem_map.mp ht
    obtain ⟨-, k, hst⟩ := h e (List.mem_filter.mp he).1
    obtain ⟨cmd, _ | f⟩ := e
    · simp [okFate, exitedZero]
    · obtain ⟨code, -, hst⟩ : ∃ c, codes k = some c ∧ f.status = .exited c := by
        cases hk : codes k <;> simp_all
      simp [okFate_normal hst, exitedZero, hst]

theorem countP_normal {codes : ℕ → Option (Fin 256)} {log : List Ev}
    (h : ∀ e ∈ execs log, NormalCompile codes e) :
    (execs log).countP pchGood = 0 ∧ (execs log).countP otherBad = 0 := by
  constructor <;> rw [List.countP_eq_zero] <;> intro e he
  · simp [pchGood, (h e he).1]
  · simp [otherBad, (h e he).1]

theorem active_card (s : St) : (s.b.jobs.filterMap Job.task).length = (active s).length := by
  rw [active]
  induction s.b.jobs with
  | nil => rfl
  | cons j js ih =>
    cases hj : j.cmd.isActive with
    | false => simp [Job.task, hj, ih]
    | true => simp [Job.task, hj, ih]

/-- On a normal log the books give every counter. -/
theorem Acct.read {codes : ℕ → Option (Fin 256)} {s : St} {l : Ledger Task}
    (h : Acct 0 (s.b.jobs.filterMap Job.task : List Task) s l)
    (hn : ∀ e ∈ execs s.w.log, NormalCompile codes e) :
    s.b.nprocessed = s.b.nskipped + s.b.ncompiled + s.b.nfailed + (active s).length ∧
    (s.b.linklist : Multiset Str) =
      (skips s.w.log : Multiset Str) + ((settled s).filter (exitedZero ·)).map Prod.fst ∧
    s.b.ncompiled = ((settled s).filter (exitedZero ·)).card ∧
    s.b.ncompiled + s.b.nfailed = (settled s).card := by
  obtain ⟨hrun, htot, hsound, hlink, hcomp, hfail, -, hskip, hproc⟩ := h
  obtain ⟨hlen, hok⟩ := started_normal hn
  obtain ⟨hp, ho⟩ := countP_normal hn
  have hset : l.good + l.bad = settled s := by rw [l.settled_eq, hrun, htot]; rfl
  have hgood : l.good = (settled s).filter (exitedZero ·) := by
    rw [hsound.good_eq, hset]
    refine Multiset.filter_congr fun t ht => ?_
    have : t ∈ started s.w.log := Multiset.mem_coe.mp (Multiset.mem_of_le tsub_le_self ht)
    rw [hok t this]
  have hcard : l.running.card + (l.good.card + l.bad.card) = (started s.w.log).length := by
    rw [← Multiset.coe_card, ← htot, Ledger.total, Multiset.card_add, Multiset.card_add]
  have hact : l.running.card = (active s).length := by
    rw [hrun, Multiset.coe_card, active_card]
  refine ⟨by omega, by rw [hlink, hgood], by rw [hcomp, hp, hgood, add_zero], ?_⟩
  rw [hcomp, hfail, hp, ho, ← hset, Multiset.card_add]; omega

/-- What holds between calls. -/
def Balanced (cs : List Request) (s : St) : Prop :=
  s.b.nprocessed = s.b.nskipped + s.b.ncompiled + s.b.nfailed + (active s).length ∧
  (s.b.linklist : Multiset Str) =
    (skippedOf cs : Multiset Str) + ((settled s).filter (exitedZero ·)).map Prod.fst

/-- What holds once the pool is drained: no schedule is left in it. -/
def Drained (codes : ℕ → Option (Fin 256)) (k : ℕ) (cs : List Request) (s : St) : Prop :=
  active s = [] ∧ s.b.linklist.Perm (skippedOf cs ++ winners codes k (compiledOf cs)) ∧
  s.b.ncompiled = (winners codes k (compiledOf cs)).length ∧
  s.b.nfailed = (compiledOf cs).length - (winners codes k (compiledOf cs)).length

variable {codes : ℕ → Option (Fin 256)} {w : World}

theorem balanced_of_trusted (hf : ExitsWith env codes) (hw : w.PidsOk) (cs : List Request)
    (ht : Trusted (requests env cs (newBuild env w)).w.log) :
    Balanced cs (requests env cs (newBuild env w)) := by
  obtain ⟨hr, hb, -⟩ := requested hf hw cs
  obtain ⟨-, -, l, ha⟩ := hb ht
  obtain ⟨hproc, hlink, -, -⟩ := ha.read hr.normal
  refine ⟨hproc, ?_⟩
  rw [hlink, hr.skips, Multiset.coe_reverse]

theorem drained_of_trusted (hf : ExitsWith env codes) (hw : w.PidsOk) (cs : List Request)
    (ht : Trusted (completeJobs env (requests env cs (newBuild env w))).w.log) :
    Drained codes w.nfork cs (completeJobs env (requests env cs (newBuild env w))) := by
  obtain ⟨hr, hb, -⟩ := requested hf hw cs
  obtain ⟨hbt, hfree⟩ := (Books.discipline env).completeJobs hb
  replace hr : Requested codes w.nfork cs
      (completeJobs env (requests env cs (newBuild env w))).w := hr.same (drain_log env _ _)
  generalize completeJobs env (requests env cs (newBuild env w)) = t at ht hbt hfree hr
  obtain ⟨-, -, l, ha⟩ := hbt ht
  obtain ⟨-, hlink, hcomp, hfail⟩ := ha.read hr.normal
  have hact : active t = [] := List.filter_eq_nil_iff.mpr fun j hj => by simp [hfree j hj]
  have hset : settled t = (started t.w.log : Multiset Task) := by
    have : t.b.jobs.filterMap Job.task = [] := by
      rw [← List.length_eq_zero_iff, active_card, hact]; rfl
    rw [settled, this, Multiset.coe_nil, tsub_zero]
  have hwon : ((settled t).filter (exitedZero ·)).map Prod.fst =
      (winners codes w.nfork (compiledOf cs) : Multiset Str) := by
    rw [hset, Multiset.filter_coe, Multiset.map_coe]
    simp only [Bool.decide_eq_true]
    rw [hr.wins, Multiset.coe_reverse]
  have hcard : ((settled t).filter (exitedZero ·)).card =
      (winners codes w.nfork (compiledOf cs)).length := by
    rw [← Multiset.card_map Prod.fst, hwon, Multiset.coe_card]
  refine ⟨hact, ?_, hcomp.trans hcard, ?_⟩
  · rw [← Multiset.coe_eq_coe, hlink, hwon, hr.skips, Multiset.coe_reverse, Multiset.coe_add]
  · rw [hset, Multiset.coe_card, (started_normal hr.normal).1, hr.count] at hfail
    rw [← hfail, hcomp, hcard, Nat.add_sub_cancel_left]

/-- The pool neither loses nor duplicates a compile: between calls every request is skipped, counted
    or in one of the slots; once drained, the result does not depend on the schedule. -/
theorem pool_keeps_every_job {codes : ℕ → Fin 256} (hf : ExitsWith env (fun k => some (codes k)))
    (hw : w.PidsOk) (cs : List Request) :
    (active (requests env cs (newBuild env w))).length ≤ max env.cpus 1 ∧
    Balanced cs (requests env cs (newBuild env w)) ∧
    Drained (fun k => some (codes k)) w.nfork cs
      (completeJobs env (requests env cs (newBuild env w))) := by
  obtain ⟨hr, -, hl⟩ := requested hf hw cs
  have trusted : ∀ {v : World}, Requested (fun k => some (codes k)) w.nfork cs v → Trusted v.log :=
    fun hv => Or.inr fun e he hno => by
      obtain ⟨-, k, hst⟩ := hv.normal e he
      simp [hno] at hst
  exact ⟨(List.length_filter_le _ _).trans hl.le, balanced_of_trusted hf hw cs (trusted hr),
    drained_of_trusted hf hw cs (trusted (hr.same (drain_log env _ _)))⟩

/-- One skipped source, three compiles of which the second fails, two slots. -/
theorem pool_keeps_every_job_run :
    let codes : ℕ → Fin 256 := fun k => if k = 1 then 3 else 0
    let env := Env.exits 2 (fun k => some (.exited (codes k)))
    let cs := [Request.ofSource true "a.c", .ofSource false "b.c", .ofSource true "c.c",
      .ofSource true "d.c"]
    ExitsWith env (fun k => some (codes k)) ∧ World.empty.PidsOk ∧
      (completeJobs env (requests env cs (newBuild env World.empty))).b.linklist.Perm
        (["b", "a", "d"].map (fun f => ("obj/debug/" ++ f ++ ".o").toList)) ∧
      (completeJobs env (requests env cs (newBuild env World.empty))).b.nfailed = 1 := by
  intro codes env cs
  have hf : ExitsWith env (fun k => some (codes k)) := fun _ _ _ => rfl
  obtain ⟨-, -, -, hp, -, hn⟩ := pool_keeps_every_job hf World.pidsOk_empty cs
  exact ⟨hf, World.pidsOk_empty, hp, hn⟩

/-- Forks may fail, in any pattern. As long as no `waitpid(-1)` came back empty-handed or with a
    successful child, a failed fork is counted as failed and every child is credited to its job. -/
theorem failed_forks_stay_alone (hf : ExitsWith env codes) (hw : w.PidsOk) (cs : List Request) :
    (Fair (requests env cs (newBuild env w)).w.log → Balanced cs (requests env cs (newBuild env w))) ∧
    (Fair (completeJobs env (requests env cs (newBuild env w))).w.log →
      Drained codes w.nfork cs (completeJobs env (requests env cs (newBuild env w)))) :=
  ⟨fun h => balanced_of_trusted hf hw cs (Or.inl h), fun h => drained_of_trusted hf hw cs (Or.inl h)⟩

/-- Two slots: the second fork fails, and while the third source waits for its slot the first child,
    which exits with `code`, is taken for the missing one. -/
def mixedCodes (code : Fin 256) (k : ℕ) : Option (Fin 256) :=
  if k = 0 then some code else if k = 1 then none else some exitZero

def mixedForks (code : Fin 256) : Env :=
  { Env.exits 2 (fun k => (mixedCodes code k).map .exited) with frand := fun _ => 1 }

def threeSources : List Request := [.ofSource true "a.c", .ofSource true "b.c", .ofSource true "c.c"]

theorem mixedForks_exits (code : Fin 256) : ExitsWith (mixedForks code) (mixedCodes code) :=
  fun k _ _ => by simp only [mixedForks, Env.exits, Option.map_map]; rfl

theorem failed_forks_stay_alone_run :
    Fair (completeJobs (mixedForks 3)
      (requests (mixedForks 3) threeSources (newBuild (mixedForks 3) World.empty))).w.log ∧
    Drained (mixedCodes 3) 0 threeSources (completeJobs (mixedForks 3)
      (requests (mixedForks 3) threeSources (newBuild (mixedForks 3) World.empty))) := by
  have hfair : Fair (completeJobs (mixedForks 3)
    (requests (mixedForks 3) threeSources (newBuild (mixedForks 3) World.empty))).w.log := by
    decide +kernel
  exact ⟨hfair,
    (failed_forks_stay_alone (mixedForks_exits 3) World.pidsOk_empty threeSources).2 hfair⟩

/-- One slot and no other child: the object of the failed fork is linked. Two slots as above, with a
    first child that exits with 0: its own job counts as failed. -/
theorem failed_fork_spreads :
    (let env := Env.exits 1 (fun _ => none)
     let cs := [Request.ofSource true "a.c"]
     let t := completeJobs env (requests env cs (newBuild env World.empty))
     t.b.linklist = ["obj/debug/a.o".toList] ∧ t.b.nfailed = 0 ∧ ¬ Drained (fun _ => none) 0 cs t) ∧
    (let t := completeJobs (mixedForks 0)
       (requests (mixedForks 0) threeSources (newBuild (mixedForks 0) World.empty))
     t.b.linklist = ["obj/debug/c.o".toList] ∧ t.b.nfailed = 2 ∧
       ¬ Drained (mixedCodes 0) 0 threeSources t) := by
  refine ⟨⟨by decide +kernel, by decide +kernel, fun h => ?_⟩,
    ⟨by decide +kernel, by decide +kernel, fun h => ?_⟩⟩
  · exact absurd h.2.1.length_eq (by decide +kernel)
  · exact absurd h.2.1.length_eq (by decide +kernel)

end Cake
