import Cake.Build
import Cake.Children

/-! What is kept by every way of working through the slots.

    `Q n jobs s` is a fact about a build with `n` sources in hand whose slots are `jobs`. When it
    survives the four things that can happen to one slot (it is dropped or added while free, it is given
    to a new job, it is polled, it is waited for), it survives the loops over the slots and so
    `do_compile` and `complete_jobs`, whatever the schedule.

        one slot: free · start · query · wait  ──▶  poll, steal, drain  ──▶  do_compile, complete_jobs -/

namespace Cake

variable {env : Env}

/-- The rules for one slot; `pre` and `js` are the slots before and after it. -/
structure Discipline (env : Env) (Q : ℕ → List Job → St → Prop) : Prop where
  dropFree : ∀ {n pre j js s}, Q n (pre ++ j :: js) s → j.cmd.isActive = false → Q n (pre ++ js) s
  addFree : ∀ {n pre j js s}, Q n (pre ++ js) s → j.cmd.pid = 0 → Q n (pre ++ j :: js) s
  start : ∀ {n pre js s cmd}, Q (n + 1) (pre ++ js) s → cmd.kind = .compile →
    Q n (pre ++ (startJob env cmd s).1 :: js) (startJob env cmd s).2
  query : ∀ {n pre j js s done c w}, Q n (pre ++ j :: js) s → j.cmd.isActive = true →
    j.cmd.queryComplete env s.w = (done, c, w) →
    (done = true → Q n (pre ++ js) ⟨harvest true c.exitcode j.objname s.b, w⟩) ∧
      (done = false → Q n (pre ++ j :: js) { s with w := w })
  wait : ∀ {n pre j js s ok c w}, Q n (pre ++ j :: js) s → j.cmd.isActive = true →
    j.cmd.wait env s.w = (ok, c, w) → Q n (pre ++ js) ⟨harvest ok c.exitcode j.objname s.b, w⟩
  same : ∀ {n jobs s w}, Q n jobs s → s.w.Same w → Q n jobs { s with w := w }
  setJobs : ∀ {n jobs s}, Q n jobs s → ∀ jobs', Q n jobs { s with b := { s.b with jobs := jobs' } }
  count : ∀ {n jobs s}, Q n jobs s → Q (n + 1) jobs (countSource s)
  skip : ∀ {n jobs s cmd}, Q (n + 1) jobs s → Q n jobs (settle env false cmd s)

/-! ### Slots -/

theorem pid_of_free {c : Command} (h : c.isActive = false) : c.pid = 0 := by
  simpa [Command.isActive] using h

theorem free_of_pid {c : Command} (h : c.pid = 0) : c.isActive = false := by
  simp [Command.isActive, h]

/-- `wait` leaves the slot free. -/
theorem wait_free {c c' : Command} {ok : Bool} {w w' : World} (hact : c.isActive = true)
    (h : c.wait env w = (ok, c', w')) : c'.isActive = false := by
  obtain ⟨r, status, -, hpid, -⟩ := Command.wait_busy hact h
  exact free_of_pid hpid

theorem startJob_eq (env : Env) (cmd : Cmd) (s : St) :
    startJob env cmd s = (⟨(Command.begin env cmd s.w).1, cmd.out⟩,
      { s with w := (Command.begin env cmd s.w).2 }) := rfl

theorem harvest_jobs (ok : Bool) (code : ℕ) (o : Str) (b : Build) :
    (harvest ok code o b).jobs = b.jobs := by
  rw [harvest]; split <;> [rfl; (split <;> rfl)]

/-- What counting a compile leaves alone, polling leaves alone. -/
theorem pollSlots_keeps {β : Type} {g : Build → β}
    (hg : ∀ ok code o b, g (harvest ok code o b) = g b) (env : Env) (cmd : Cmd) :
    ∀ (js : List Job) (s : St), g (pollSlots env cmd js s).2.2.b = g s.b
  | [], s => rfl
  | j :: js, s => by
    rw [pollSlots]
    cases j.cmd.isActive with
    | false => rfl
    | true =>
      simp only [if_true]
      rcases j.cmd.queryComplete env s.w with ⟨_ | _, c, w⟩
      · exact pollSlots_keeps hg env cmd js { s with w := w }
      · exact hg true c.exitcode j.objname s.b

theorem pollSlots_jobs (env : Env) (cmd : Cmd) (js : List Job) (s : St) :
    (pollSlots env cmd js s).2.2.b.jobs = s.b.jobs :=
  pollSlots_keeps harvest_jobs env cmd js s

/-! ### The slots stay as many as they were -/

theorem pollSlots_length (env : Env) (cmd : Cmd) : ∀ (js : List Job) (s : St),
    (pollSlots env cmd js s).2.1.length = js.length
  | [], s => rfl
  | j :: js, s => by
    rw [pollSlots]
    cases j.cmd.isActive with
    | false => rfl
    | true =>
      simp only [if_true]
      rcases j.cmd.queryComplete env s.w with ⟨_ | _, c, w⟩
      · exact congrArg (· + 1) (pollSlots_length env cmd js { s with w := w })
      · rfl

theorem addCompileJob_length (env : Env) (cmd : Cmd) (s : St) :
    (addCompileJob env cmd s).b.jobs.length = s.b.jobs.length := by
  have hlen := pollSlots_length env cmd s.b.jobs s
  have hjobs := pollSlots_jobs env cmd s.b.jobs s
  rw [addCompileJob]
  rcases hq : pollSlots env cmd s.b.jobs s with ⟨_ | _, jobs, t⟩
  · rw [hq] at hjobs
    dsimp only at hjobs ⊢
    rw [stealSlot]
    dsimp only
    cases t.b.jobs[env.frand t.w.nrand % t.b.jobs.length]? with
    | none => dsimp only; rw [hjobs]
    | some j => simp only [List.length_set, startJob_eq, harvest_jobs, hjobs]
  · rw [hq] at hlen
    exact hlen

theorem settle_length (env : Env) (rebuild : Bool) (cmd : Cmd) (s : St) :
    (settle env rebuild cmd s).b.jobs.length = s.b.jobs.length := by
  cases rebuild with
  | false => rfl
  | true => exact addCompileJob_length env cmd s

/-! ### The loops -/

namespace Discipline

variable {Q : ℕ → List Job → St → Prop} {n : ℕ} {s : St} {cmd : Cmd}

/-- The poll loop starts the job in some slot, or every slot stays busy. -/
theorem poll (D : Discipline env Q) (hk : cmd.kind = .compile) : ∀ (js pre : List Job) (s : St),
    Q (n + 1) (pre ++ js) s →
    ((pollSlots env cmd js s).1 = true →
      Q n (pre ++ (pollSlots env cmd js s).2.1) (pollSlots env cmd js s).2.2) ∧
    ((pollSlots env cmd js s).1 = false →
      (∀ j ∈ js, j.cmd.isActive = true) ∧ Q (n + 1) (pre ++ js) (pollSlots env cmd js s).2.2)
  | [], pre, s, h => by simpa [pollSlots] using h
  | j :: js, pre, s, h => by
    rw [pollSlots]
    cases hact : j.cmd.isActive with
    | false =>
      simp only [Bool.false_eq_true, if_false]
      exact ⟨fun _ => D.start (D.dropFree h hact) hk, by simp [startJob_eq]⟩
    | true =>
      simp only [if_true]
      rcases hq : j.cmd.queryComplete env s.w with ⟨_ | _, c, w⟩
      · have hrec := D.poll hk js (pre ++ [j]) { s with w := w }
          (by simpa using (D.query h hact hq).2 rfl)
        simpa [hact] using hrec
      · exact ⟨fun _ => D.start ((D.query h hact hq).1 rfl) hk, by simp [startJob_eq]⟩

/-- Waiting for the job of slot `r` and taking the slot. -/
theorem steal (D : Discipline env Q) (hk : cmd.kind = .compile) {r : ℕ}
    (h : Q (n + 1) s.b.jobs s) (hr : r < s.b.jobs.length)
    (hact : ∀ j ∈ s.b.jobs, j.cmd.isActive = true) :
    Q n (stealSlot env cmd r s).b.jobs (stealSlot env cmd r s) := by
  rw [stealSlot]
  rw [List.getElem?_eq_getElem hr]
  have hj := hact _ (List.getElem_mem hr)
  have hsplit : s.b.jobs = s.b.jobs.take r ++ s.b.jobs[r] :: s.b.jobs.drop (r + 1) := by
    rw [List.cons_getElem_drop_succ, List.take_append_drop]
  rw [hsplit] at h
  dsimp only
  rcases hq : s.b.jobs[r].cmd.wait env s.w with ⟨ok, c, w⟩
  have hs := D.setJobs (D.start (D.wait h hj hq) hk)
  rw [startJob_eq] at hs ⊢
  dsimp only
  rw [harvest_jobs, List.set_eq_take_append_cons_drop, if_pos hr]
  exact hs _

/-- `add_compile_job` turns the source in hand into a running task. -/
theorem addCompileJob (D : Discipline env Q) (hk : cmd.kind = .compile) (h : Q (n + 1) s.b.jobs s)
    (hne : s.b.jobs ≠ []) : Q n (addCompileJob env cmd s).b.jobs (addCompileJob env cmd s) := by
  have hp := D.poll hk s.b.jobs [] s h
  have hjobs := pollSlots_jobs env cmd s.b.jobs s
  rw [Cake.addCompileJob]
  rcases hq : pollSlots env cmd s.b.jobs s with ⟨_ | _, jobs, t⟩
  · rw [hq] at hp hjobs
    obtain ⟨hall, hb⟩ := hp.2 rfl
    have hb' : Q (n + 1) t.b.jobs { t with w := { t.w with nrand := t.w.nrand + 1 } } := by
      rw [hjobs]
      exact D.same hb ⟨rfl, rfl, rfl, rfl, Iff.rfl⟩
    refine D.steal hk hb' ?_ (by rw [hjobs]; exact hall)
    exact Nat.mod_lt _ (List.length_pos_iff.mpr (by rw [hjobs]; exact hne))
  · rw [hq] at hp
    exact D.setJobs (hp.1 rfl) jobs

/-- The drain loop leaves every slot free. -/
theorem drain (D : Discipline env Q) : ∀ (js pre : List Job) (s : St), Q n (pre ++ js) s →
    Q n (pre ++ (drain env js s).1) (drain env js s).2 ∧
      ∀ j ∈ (Cake.drain env js s).1, j.cmd.isActive = false
  | [], pre, s, h => by simpa [Cake.drain] using h
  | j :: js, pre, s, h => by
    rw [Cake.drain]
    cases hact : j.cmd.isActive with
    | false =>
      simp only [Bool.false_eq_true, if_false]
      obtain ⟨hb, hfree⟩ := D.drain js (pre ++ [j]) s (by simpa using h)
      exact ⟨by simpa using hb, List.forall_mem_cons.mpr ⟨hact, hfree⟩⟩
    | true =>
      simp only [if_true]
      rcases hq : j.cmd.wait env s.w with ⟨ok, c, w⟩
      have hc := wait_free hact hq
      have hb := D.addFree (j := ⟨c, j.objname⟩) (D.wait h hact hq) (pid_of_free hc)
      obtain ⟨hb, hfree⟩ := D.drain js (pre ++ [⟨c, j.objname⟩]) _ (by simpa using hb)
      exact ⟨by simpa using hb, List.forall_mem_cons.mpr ⟨hc, hfree⟩⟩

/-- `complete_jobs` settles every task. -/
theorem completeJobs (D : Discipline env Q) (h : Q n s.b.jobs s) :
    Q n (completeJobs env s).b.jobs (completeJobs env s) ∧
      ∀ j ∈ (Cake.completeJobs env s).b.jobs, j.cmd.isActive = false := by
  obtain ⟨hb, hfree⟩ := D.drain s.b.jobs [] s h
  exact ⟨D.setJobs hb _, hfree⟩

/-- The source in hand is skipped or started. -/
theorem settle (D : Discipline env Q) (hk : cmd.kind = .compile) (rebuild : Bool)
    (h : Q (n + 1) s.b.jobs s) (hne : s.b.jobs ≠ []) :
    Q n (settle env rebuild cmd s).b.jobs (settle env rebuild cmd s) := by
  cases rebuild with
  | false => exact D.skip h
  | true => exact D.addCompileJob hk h hne

/-- Taking the next source in hand, some time later. -/
theorem next (D : Discipline env Q) (h : Q n s.b.jobs s) (newest : ℕ) :
    Q (n + 1) s.b.jobs { countSource { s with w := s.w.yield env } with
      w := { s.w.yield env with newestTime := newest } } :=
  D.same (D.count (D.same h (World.same_yield env s.w))) ⟨rfl, rfl, rfl, rfl, Iff.rfl⟩

theorem doCompile (D : Discipline env Q) (cflags fname : Str) (h : Q n s.b.jobs s)
    (hne : s.b.jobs ≠ []) :
    Q n (doCompile env cflags fname s).b.jobs (doCompile env cflags fname s) :=
  D.settle rfl _ (D.next h _) hne

end Discipline

end Cake
