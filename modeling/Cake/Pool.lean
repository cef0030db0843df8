import Mathlib.Data.Int.Notation
import Cake.World

/-! Commands and the pool of compile jobs (`Command`, `build::add_compile_job`,
    `build::complete_jobs`).

    A slot holds a command and the object it is to write; the slot is free while the command's pid
    is 0. A new job takes the first slot that is free or whose child has exited; when every slot is
    busy a random one is waited for.

        free ──begin──▶ pid ──query_complete / wait──▶ free (counted) -/

namespace Cake

/-- `pid` is 0 for no child and -1 after a failed fork. `fate` is what will become of the child; the
    code never reads it. -/
structure Command where
  pid : ℤ
  exitcode : ℕ
  fate : Option Fate

namespace Command

def idle : Command := ⟨0, 0, none⟩

def isActive (c : Command) : Bool := c.pid != 0

def begin (env : Env) (cmd : Cmd) (w : World) : Command × World :=
  match w.fork env cmd with
  | ((pid, fate), w) => (⟨pid, 0, fate⟩, w)

def queryComplete (env : Env) (c : Command) (w : World) : Bool × Command × World :=
  if !c.isActive then (true, c, w)
  else match w.waitpid env false c.pid with
    | ((r, status), w) =>
      if r = c.pid then (true, { c with pid := 0, exitcode := wexitstatus status }, w)
      else (false, c, w)

def wait (env : Env) (c : Command) (w : World) : Bool × Command × World :=
  if !c.isActive then (true, c, w)
  else match w.waitpid env true c.pid with
    | ((r, status), w) =>
      if r = c.pid then (true, { c with pid := 0, exitcode := wexitstatus status }, w)
      else (false, { c with pid := 0 }, w)

end Command

/-- `ExecuteCommand`: the answer, the exit code and the world after it. -/
def executeCommand (env : Env) (cmd : Cmd) (w : World) : Bool × ℕ × World :=
  match Command.begin env cmd w with
  | (c, w) => match c.wait env w with
    | (ok, c, w) => (ok, c.exitcode, w)

structure Job where
  cmd : Command
  objname : Str

structure Build where
  jobs : List Job
  nprocessed : ℕ
  nskipped : ℕ
  ncompiled : ℕ
  nfailed : ℕ
  nlinked : ℕ
  linklist : List Str
  pchname : Str

/-- A build object and the world it works in. -/
structure St where
  b : Build
  w : World

/-- Counts a compile that is over: `ok` is what `wait` answered. -/
def harvest (ok : Bool) (exitcode : ℕ) (objname : Str) (b : Build) : Build :=
  if !ok then { b with nfailed := b.nfailed + 1 }
  else if exitcode ≠ 0 then { b with nfailed := b.nfailed + 1 }
  else { b with linklist := b.linklist ++ [objname], ncompiled := b.ncompiled + 1 }

/-- Starts the command in a slot. -/
def startJob (env : Env) (cmd : Cmd) (s : St) : Job × St :=
  match Command.begin env cmd s.w with
  | (c, w) => (⟨c, cmd.out⟩, { s with w := w })

/-- The loop of `add_compile_job` over the slots: was one found, the slots and the state after. -/
def pollSlots (env : Env) (cmd : Cmd) : List Job → St → Bool × List Job × St
  | [], s => (false, [], s)
  | j :: js, s =>
    if j.cmd.isActive then
      match j.cmd.queryComplete env s.w with
      | (true, c, w) =>
        match startJob env cmd ⟨harvest true c.exitcode j.objname s.b, w⟩ with
        | (j', s) => (true, j' :: js, s)
      | (false, _, w) =>
        match pollSlots env cmd js { s with w := w } with
        | (found, js', s) => (found, j :: js', s)
    else
      match startJob env cmd s with
      | (j', s) => (true, j' :: js, s)

/-- The rest of `add_compile_job`: wait for the job in slot `r` and take it. -/
def stealSlot (env : Env) (cmd : Cmd) (r : ℕ) (s : St) : St :=
  match s.b.jobs[r]? with
  | none => s
  | some j =>
    match j.cmd.wait env s.w with
    | (ok, c, w) =>
      match startJob env cmd ⟨harvest ok c.exitcode j.objname s.b, w⟩ with
      | (j', s) => { s with b := { s.b with jobs := s.b.jobs.set r j' } }

def addCompileJob (env : Env) (cmd : Cmd) (s : St) : St :=
  match pollSlots env cmd s.b.jobs s with
  | (true, jobs, s) => { s with b := { s.b with jobs := jobs } }
  | (false, _, s) =>
    stealSlot env cmd (env.frand s.w.nrand % s.b.jobs.length)
      { s with w := { s.w with nrand := s.w.nrand + 1 } }

/-- The loop of `complete_jobs`. -/
def drain (env : Env) : List Job → St → List Job × St
  | [], s => ([], s)
  | j :: js, s =>
    if j.cmd.isActive then
      match j.cmd.wait env s.w with
      | (ok, c, w) =>
        match drain env js ⟨harvest ok c.exitcode j.objname s.b, w⟩ with
        | (js', s) => (⟨c, j.objname⟩ :: js', s)
    else
      match drain env js s with
      | (js', s) => (j :: js', s)

def completeJobs (env : Env) (s : St) : St :=
  match drain env s.b.jobs s with
  | (jobs, s) => { s with b := { s.b with jobs := jobs } }

/-! ### What the calls come to -/

namespace Command

variable {env : Env} {c c' : Command} {done ok : Bool} {w w' : World}

theorem begin_cases {cmd : Cmd} (h : begin env cmd w = (c, w')) :
    ∃ pid fate, w.fork env cmd = ((pid, fate), w') ∧ c = ⟨pid, 0, fate⟩ := by
  rw [begin] at h
  rcases hf : w.fork env cmd with ⟨⟨pid, fate⟩, v⟩
  rw [hf] at h
  simp only [Prod.mk.injEq] at h
  obtain ⟨rfl, rfl⟩ := h
  exact ⟨pid, fate, rfl, rfl⟩

/-- A busy command that is asked is over when `waitpid` answers its pid. -/
theorem query_busy (hact : c.isActive = true) (h : c.queryComplete env w = (done, c', w')) :
    ∃ r status, w.waitpid env false c.pid = ((r, status), w') ∧
      (r = c.pid ∧ done = true ∧ c' = { c with pid := 0, exitcode := wexitstatus status } ∨
        r ≠ c.pid ∧ done = false ∧ c' = c) := by
  rw [queryComplete, hact] at h
  rcases hw : w.waitpid env false c.pid with ⟨⟨r, status⟩, v⟩
  rw [hw] at h
  by_cases hr : r = c.pid
  · simp only [Bool.not_true, Bool.false_eq_true, if_false, if_pos hr, Prod.mk.injEq] at h
    obtain ⟨rfl, rfl, rfl⟩ := h
    exact ⟨r, status, rfl, .inl ⟨hr, rfl, rfl⟩⟩
  · simp only [Bool.not_true, Bool.false_eq_true, if_false, if_neg hr, Prod.mk.injEq] at h
    obtain ⟨rfl, rfl, rfl⟩ := h
    exact ⟨r, status, rfl, .inr ⟨hr, rfl, rfl⟩⟩

/-- A busy command that is waited for is free afterwards, whatever `waitpid` answers. -/
theorem wait_busy (hact : c.isActive = true) (h : c.wait env w = (ok, c', w')) :
    ∃ r status, w.waitpid env true c.pid = ((r, status), w') ∧ c'.pid = 0 ∧
      (r = c.pid ∧ ok = true ∧ c'.exitcode = wexitstatus status ∨ r ≠ c.pid ∧ ok = false) := by
  rw [wait, hact] at h
  rcases hw : w.waitpid env true c.pid with ⟨⟨r, status⟩, v⟩
  rw [hw] at h
  by_cases hr : r = c.pid
  · simp only [Bool.not_true, Bool.false_eq_true, if_false, if_pos hr, Prod.mk.injEq] at h
    obtain ⟨rfl, rfl, rfl⟩ := h
    exact ⟨r, status, rfl, rfl, .inl ⟨hr, rfl, rfl⟩⟩
  · simp only [Bool.not_true, Bool.false_eq_true, if_false, if_neg hr, Prod.mk.injEq] at h
    obtain ⟨rfl, rfl, rfl⟩ := h
    exact ⟨r, status, rfl, rfl, .inr ⟨hr, rfl⟩⟩

theorem query_world (h : c.queryComplete env w = (done, c', w')) :
    w' = w ∨ ∃ r status, w.waitpid env false c.pid = ((r, status), w') := by
  cases hact : c.isActive with
  | false =>
    rw [queryComplete, hact] at h
    exact .inl (congrArg (fun q => q.2.2) h).symm
  | true =>
    obtain ⟨r, status, hw, -⟩ := query_busy hact h
    exact .inr ⟨r, status, hw⟩

theorem wait_world (h : c.wait env w = (ok, c', w')) :
    w' = w ∨ ∃ r status, w.waitpid env true c.pid = ((r, status), w') := by
  cases hact : c.isActive with
  | false =>
    rw [wait, hact] at h
    exact .inl (congrArg (fun q => q.2.2) h).symm
  | true =>
    obtain ⟨r, status, hw, -⟩ := wait_busy hact h
    exact .inr ⟨r, status, hw⟩

end Command

theorem executeCommand_cases {env : Env} {cmd : Cmd} {ok : Bool} {code : ℕ} {w w' : World}
    (h : executeCommand env cmd w = (ok, code, w')) :
    ∃ c v c', Command.begin env cmd w = (c, v) ∧ c.wait env v = (ok, c', w') ∧ c'.exitcode = code := by
  rw [executeCommand] at h
  rcases hb : Command.begin env cmd w with ⟨c, v⟩
  rcases hw : c.wait env v with ⟨ok', c', v'⟩
  simp only [hb, hw, Prod.mk.injEq] at h
  obtain ⟨rfl, rfl, rfl⟩ := h
  exact ⟨c, v, c', rfl, hw, rfl⟩

end Cake
