import Cake.Lib.Ledger
import Cake.Discipline
import Cake.Slots

/-! The build's books.

    The pool refines a ledger of compile tasks: the running tasks are the ones in busy slots, and the
    counters and `linklist` are read off the good and the bad ones. Polling, stealing a slot and
    draining are moves of the ledger (start a task, settle a task); the books stay honest as long as
    the log is `Fair`, which it always is when every fork succeeds.

        do_compile ──skip──▶ linklist, nskipped
             └──start──▶ running ──settle──▶ good: linklist, ncompiled
                                        └──▶ bad: nfailed -/

namespace Cake

/-- A started compile: its object and what will become of it. -/
abbrev Task := Str × Option Fate

def Job.task (j : Job) : Option Task :=
  if j.cmd.isActive then some (j.objname, j.cmd.fate) else none

/-- The compiles the present build object has started. -/
def started (log : List Ev) : List Task :=
  ((execs log).filter (fun e => e.1.kind = .compile)).map (fun e => (e.1.out, e.2))

def pchGood (e : Cmd × Option Fate) : Bool := e.1.kind = .pch && okFate e.2

def outputGood (e : Cmd × Option Fate) : Bool := (e.1.kind = .link || e.1.kind = .ar) && okFate e.2

/-- A failed command that was waited for at once. -/
def otherBad (e : Cmd × Option Fate) : Bool := e.1.kind ≠ .compile && !okFate e.2

/-- The counters agree with the ledger; `pending` is 1 while a source is in hand. -/
structure Acct (pending : ℕ) (running : Multiset Task) (s : St) (l : Ledger Task) : Prop where
  running : l.running = running
  total : l.total = started s.w.log
  sound : l.Sound (fun t => okFate t.2 = true)
  link : (s.b.linklist : Multiset Str) = (skips s.w.log : Multiset Str) + l.good.map Prod.fst
  compiled : s.b.ncompiled = l.good.card + (execs s.w.log).countP pchGood
  failed : s.b.nfailed = l.bad.card + (execs s.w.log).countP otherBad
  linked : s.b.nlinked = (execs s.w.log).countP outputGood
  skipped : s.b.nskipped = (skips s.w.log).length
  processed : s.b.nprocessed = (skips s.w.log).length + (started s.w.log).length + pending

/-- Every fork of the present build object succeeded. -/
def Forked (log : List Ev) : Prop := ∀ e ∈ execs log, e.2 ≠ none

/-- The log of a build whose forks all succeed, or whose failed forks did no harm. -/
def Trusted (log : List Ev) : Prop := Fair log ∨ Forked log

/-- On a trusted log, which is then a fair one, the slots are in order and the counters agree with
    some ledger. -/
def Books (pending : ℕ) (jobs : List Job) (s : St) : Prop :=
  Trusted s.w.log → Fair s.w.log ∧ Slots s.w jobs ∧
    ∃ l, Acct pending (jobs.filterMap Job.task : List Task) s l

theorem Trusted.of_log {w w' : World} (h : w.SameLog w') : Trusted w'.log → Trusted w.log := by
  rintro (hf | hf)
  · exact Or.inl (h.fair hf)
  · exact Or.inr (by rw [Forked, ← h.execs]; exact hf)

variable {env : Env} {n : ℕ} {pre js : List Job} {j : Job} {s : St}

/-- The tasks of the slots, one busy slot set apart. -/
theorem tasks_busy (h : j.cmd.isActive = true) :
    (((pre ++ j :: js).filterMap Job.task : List Task) : Multiset Task) =
      (j.objname, j.cmd.fate) ::ₘ ((pre ++ js).filterMap Job.task : List Task) := by
  rw [Multiset.cons_coe, Multiset.coe_eq_coe]
  refine (List.perm_middle.filterMap _).trans ?_
  rw [List.filterMap_cons, Job.task, if_pos h]

/-- A free slot has no task. -/
theorem tasks_free (h : j.cmd.isActive = false) :
    (((pre ++ j :: js).filterMap Job.task : List Task) : Multiset Task) =
      ((pre ++ js).filterMap Job.task : List Task) := by
  rw [Multiset.coe_eq_coe]
  refine (List.perm_middle.filterMap _).trans ?_
  rw [List.filterMap_cons, Job.task, h]; rfl

/-- The books do not depend on the rest of the world. -/
theorem Acct.world {running : Multiset Task} {l : Ledger Task} {w : World}
    (h : Acct n running s l) (hw : s.w.SameLog w) : Acct n running { s with w := w } l := by
  obtain ⟨h₁, h₂, h₃, h₄, h₅, h₆, h₇, h₈, h₉⟩ := h
  refine ⟨h₁, ?_, h₃, ?_, ?_, ?_, ?_, ?_, ?_⟩ <;>
    simpa only [started, hw.execs, hw.skips]

/-- The three-way test after every wait: a good end, or a failure seen in two places. -/
theorem verdict {α : Type} {ok good : Bool} {code : ℕ} (h : (ok = true ∧ code = 0) ↔ good = true)
    (fail win : α) :
    (if (!ok) = true then fail else if code ≠ 0 then fail else win) = if good then win else fail := by
  cases ok with
  | false => simpa using fun hg => absurd (h.mpr hg).1 (by simp)
  | true =>
    by_cases hc : code = 0
    · simp [hc, h.mp ⟨rfl, hc⟩]
    · simpa [hc] using fun hg => absurd (h.mpr hg).2 hc

/-- A running task is harvested. -/
theorem Acct.harvest {rest : Multiset Task} {l : Ledger Task} {t : Task} (ok : Bool) (code : ℕ)
    (h : Acct n (t ::ₘ rest) s l) (hok : (ok = true ∧ code = 0) ↔ okFate t.2 = true) :
    ∃ l', Acct n rest { s with b := harvest ok code t.1 s.b } l' := by
  obtain ⟨h₁, h₂, h₃, h₄, h₅, h₆, h₇, h₈, h₉⟩ := h
  cases hg : okFate t.2 with
  | true =>
    obtain ⟨rfl, rfl⟩ := hok.mpr hg
    refine ⟨l.settle rest t true, rfl, (Ledger.total_settle h₁ _).trans h₂,
      h₃.settle (by simp [hg]), ?_, ?_, ?_, ?_, ?_, ?_⟩
    · simp only [Cake.harvest, Bool.not_true, Bool.false_eq_true, if_false, ne_eq, not_true_eq_false,
        ← Multiset.coe_add, h₄, Ledger.settle, if_true, Multiset.map_cons, Multiset.coe_singleton]
      rw [add_assoc, add_comm _ ({t.1} : Multiset Str), Multiset.singleton_add]
    · simp [Cake.harvest, Ledger.settle, h₅]; omega
    · simpa [Cake.harvest, Ledger.settle] using h₆
    · simpa [Cake.harvest] using h₇
    · simpa [Cake.harvest] using h₈
    · simpa [Cake.harvest] using h₉
  | false =>
    have hb : Cake.harvest ok code t.1 s.b = { s.b with nfailed := s.b.nfailed + 1 } := by
      rw [Cake.harvest, verdict hok, hg]; rfl
    rw [hb]
    refine ⟨l.settle rest t false, rfl, (Ledger.total_settle h₁ _).trans h₂,
      h₃.settle (by simp [hg]), ?_, ?_, ?_, ?_, ?_, ?_⟩
    · simpa [Ledger.settle] using h₄
    · simpa [Ledger.settle] using h₅
    · simp [Ledger.settle, h₆]; omega
    · simpa using h₇
    · simpa using h₈
    · simpa using h₉

/-- A free slot may leave the list or join it. -/
theorem Books.dropFree (h : Books n (pre ++ j :: js) s) (hj : j.cmd.isActive = false) :
    Books n (pre ++ js) s := by
  intro hf
  obtain ⟨hf, hs, l, ha⟩ := h hf
  rw [tasks_free hj] at ha
  exact ⟨hf, hs.drop, l, ha⟩

theorem Books.addFree (h : Books n (pre ++ js) s) (hj : j.cmd.pid = 0) :
    Books n (pre ++ j :: js) s := by
  intro hf
  obtain ⟨hf, hs, l, ha⟩ := h hf
  exact ⟨hf, hs.insertFree hj, l, by rwa [tasks_free (free_of_pid hj)]⟩

/-- Outside activity leaves the books alone. -/
theorem Books.same {jobs : List Job} {w : World} (h : Books n jobs s) (hw : s.w.Same w) :
    Books n jobs { s with w := w } := by
  intro hf
  obtain ⟨hf, hs, l, ha⟩ := h (Trusted.of_log hw.log hf)
  exact ⟨hw.fair.mpr hf, hs.same hw, l, ha.world hw.log⟩

theorem Trusted.of_begin {cmd : Cmd} {c : Command} {w w' : World}
    (hb : Command.begin env cmd w = (c, w')) : Trusted w'.log → Trusted w.log := by
  obtain ⟨pid, fate, hw, -⟩ := Command.begin_cases hb
  obtain ⟨-, he, -, hf, -⟩ := World.fork_cases env cmd w hw
  exact Or.imp hf.mp fun hall e hm => hall e (by rw [he]; exact List.mem_cons_of_mem _ hm)

/-- A compile is started for the source in hand. -/
theorem Books.start (env : Env) {cmd : Cmd} (h : Books (n + 1) (pre ++ js) s)
    (hk : cmd.kind = .compile) :
    Books n (pre ++ (startJob env cmd s).1 :: js) (startJob env cmd s).2 := by
  rw [startJob_eq]
  rcases hb : Command.begin env cmd s.w with ⟨c, w⟩
  intro hf
  obtain ⟨hlog, hs, l, h₁, h₂, h₃, h₄, h₅, h₆, h₇, h₈, h₉⟩ := h (Trusted.of_begin hb hf)
  obtain ⟨hs', hact, he, hsk, hfair⟩ := hs.begin hb
  have hst : started w.log = (cmd.out, c.fate) :: started s.w.log := by simp [started, he, hk]
  refine ⟨hfair.mpr hlog, hs', l.start (cmd.out, c.fate), ?_, ?_, h₃.start _, ?_, ?_, ?_, ?_, ?_, ?_⟩
  · rw [tasks_busy hact, Ledger.start, h₁]
  · rw [Ledger.total_start, h₂, hst]; rfl
  · simpa only [hsk, Ledger.start] using h₄
  · simpa [he, pchGood, hk, Ledger.start] using h₅
  · simpa [he, otherBad, hk, Ledger.start] using h₆
  · simpa [he, outputGood, hk] using h₇
  · simpa only [hsk] using h₈
  · simp only [hsk, hst, List.length_cons, h₉]; omega

/-- On a trusted log a busy slot whose fork failed is met by fair answers only. -/
theorem Acct.trust {l : Ledger Task} {w : World} (hw : s.w.SameLog w)
    (h : Acct n ((pre ++ j :: js).filterMap Job.task : List Task) s l) (hact : j.cmd.isActive = true)
    (ht : Trusted w.log) : Fair w.log ∨ j.cmd.fate ≠ none := by
  refine ht.imp_right fun hall => ?_
  have hmem : (j.objname, j.cmd.fate) ∈ l.running := by
    rw [h.running, tasks_busy hact]; exact Multiset.mem_cons_self _ _
  have hst : (j.objname, j.cmd.fate) ∈ started s.w.log := by
    have : (j.objname, j.cmd.fate) ∈ l.total := Multiset.mem_add.mpr (Or.inl hmem)
    rwa [h.total] at this
  obtain ⟨e, he, heq⟩ := List.mem_map.mp hst
  have := hall e (by rw [hw.execs]; exact (List.mem_filter.mp he).1)
  rw [Prod.mk.injEq] at heq
  rwa [← heq.2]

/-- The answer of a wait on a busy slot. Its own pid: the job is harvested with its exit code.
    Another answer: nothing changes, and after a blocking wait the job is harvested as a failure. -/
theorem Books.answer {block : Bool} {r : ℤ} {status : ℕ} {w : World}
    (h : Books n (pre ++ j :: js) s) (hact : j.cmd.isActive = true)
    (hw : s.w.waitpid env block j.cmd.pid = ((r, status), w)) :
    (r = j.cmd.pid → Books n (pre ++ js) ⟨Cake.harvest true (wexitstatus status) j.objname s.b, w⟩) ∧
    (r ≠ j.cmd.pid → Books n (pre ++ j :: js) { s with w := w } ∧ (block = true →
      ∀ code, Books n (pre ++ js) ⟨Cake.harvest false code j.objname s.b, w⟩)) := by
  have hl := World.waitpid_log hw
  have key : Trusted w.log → ∃ l, Acct n ((pre ++ j :: js).filterMap Job.task : List Task)
      { s with w := w } l ∧ Fair w.log ∧
      ((r = j.cmd.pid ∧ (∃ f, j.cmd.fate = some f ∧ status = f.status.word) ∧ Slots w (pre ++ js)) ∨
        (r ≠ j.cmd.pid ∧ Slots w (pre ++ j :: js) ∧ (block = true → okFate j.cmd.fate = false))) := by
    intro ht
    obtain ⟨hf, hs, l, ha⟩ := h (Trusted.of_log hl ht)
    exact ⟨l, ha.world hl, waitpid_slot hs hact hw hf (ha.trust hl hact ht)⟩
  refine ⟨fun hr ht => ?_, fun hr => ⟨fun ht => ?_, fun hb code ht => ?_⟩⟩
  · obtain ⟨l, ha, hf, ⟨-, ⟨f, hjf, rfl⟩, hs⟩ | ⟨hne, -⟩⟩ := key ht
    · rw [tasks_busy hact] at ha
      exact ⟨hf, hs, ha.harvest true _ (by simp [hjf, okFate, Fate.ok])⟩
    · exact absurd hr hne
  · obtain ⟨l, ha, hf, ⟨he, -⟩ | ⟨-, hs, -⟩⟩ := key ht
    · exact absurd he hr
    · exact ⟨hf, hs, l, ha⟩
  · obtain ⟨l, ha, hf, ⟨he, -⟩ | ⟨-, hs, hbad⟩⟩ := key ht
    · exact absurd he hr
    · rw [tasks_busy hact] at ha
      exact ⟨hf, hs.drop, ha.harvest false code (by simp [hbad hb])⟩

/-- Polling a busy slot: its job is harvested and leaves, or nothing changes. -/
theorem Books.query {done : Bool} {c : Command} {w : World} (h : Books n (pre ++ j :: js) s)
    (hact : j.cmd.isActive = true) (hq : j.cmd.queryComplete env s.w = (done, c, w)) :
    (done = true → Books n (pre ++ js) ⟨Cake.harvest true c.exitcode j.objname s.b, w⟩) ∧
      (done = false → Books n (pre ++ j :: js) { s with w := w }) := by
  obtain ⟨r, status, hw, ⟨hr, rfl, rfl⟩ | ⟨hr, rfl, rfl⟩⟩ := Command.query_busy hact hq
  · exact ⟨fun _ => (h.answer hact hw).1 hr, by simp⟩
  · exact ⟨by simp, fun _ => ((h.answer hact hw).2 hr).1⟩

/-- Waiting for a busy slot: its job is harvested and leaves. -/
theorem Books.wait {ok : Bool} {c : Command} {w : World} (h : Books n (pre ++ j :: js) s)
    (hact : j.cmd.isActive = true) (hq : j.cmd.wait env s.w = (ok, c, w)) :
    c.pid = 0 ∧ Books n (pre ++ js) ⟨Cake.harvest ok c.exitcode j.objname s.b, w⟩ := by
  obtain ⟨r, status, hw, hpid, ⟨hr, rfl, hcode⟩ | ⟨hr, rfl⟩⟩ := Command.wait_busy hact hq
  · rw [hcode]
    exact ⟨hpid, (h.answer hact hw).1 hr⟩
  · exact ⟨hpid, ((h.answer hact hw).2 hr).2 rfl _⟩

/-- The books do not say which list the build object keeps its slots in. -/
theorem Books.setJobs {jobs : List Job} (h : Books n jobs s) (jobs' : List Job) :
    Books n jobs { s with b := { s.b with jobs := jobs' } } := by
  intro hf
  obtain ⟨hf, hs, l, h₁, h₂, h₃, h₄, h₅, h₆, h₇, h₈, h₉⟩ := h hf
  exact ⟨hf, hs, l, h₁, h₂, h₃, h₄, h₅, h₆, h₇, h₈, h₉⟩

end Cake
