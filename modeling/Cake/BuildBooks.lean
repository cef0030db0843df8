import Cake.Books

/-! Every public method of the build object keeps the books.

    `do_compile` books its source as skipped or started; `make_pch`, `link` and `staticlib` run one
    command to its end and count it. A fresh build object has empty books, so after any sequence of
    method calls (`Op`) the counters can be read off the log. -/

namespace Cake

variable {env : Env} {n : ℕ} {jobs : List Job} {s : St}

theorem books_newBuild (env : Env) {w : World} (h : w.PidsOk) :
    Books 0 (newBuild env w).b.jobs (newBuild env w) := by
  have hfree : ∀ j ∈ (newBuild env w).b.jobs, j.cmd.pid = 0 := by
    intro j hj
    rw [(List.mem_replicate.mp hj).2]; rfl
  have htasks : (newBuild env w).b.jobs.filterMap Job.task = [] := by
    rw [List.filterMap_eq_nil_iff]
    exact fun j hj => by simp [Job.task, free_of_pid (hfree j hj)]
  intro _
  have hpids : (newBuild env w).w.PidsOk := ⟨h.nodup, h.bound⟩
  refine ⟨trivial, ⟨hpids, fun j hj => .free (hfree j hj), ?_⟩, Ledger.empty, ?_⟩
  · exact List.pairwise_of_forall_mem_list fun i hi j _ h0 => by rw [hfree i hi] at h0; omega
  · rw [htasks]
    exact ⟨rfl, rfl, Ledger.sound_empty, rfl, rfl, rfl, rfl, rfl, rfl⟩

/-- The source in hand is skipped. -/
theorem Books.skip (env : Env) {cmd : Cmd} (h : Books (n + 1) jobs s) :
    Books n jobs (settle env false cmd s) := by
  intro ht
  obtain ⟨hf, hs, l, h₁, h₂, h₃, h₄, h₅, h₆, h₇, h₈, h₉⟩ := h ht
  refine ⟨hf, hs.table rfl rfl, l, h₁, h₂, h₃, ?_, h₅, h₆, h₇, ?_, ?_⟩
  · simp only [settle, Bool.not_false, if_true, World.say, skips, ← Multiset.coe_add, h₄,
      Multiset.coe_singleton]
    rw [← Multiset.cons_coe, Multiset.cons_add, add_comm, Multiset.singleton_add]
  · simp [settle, World.say, skips, h₈]
  · simp only [settle, Bool.not_false, if_true, World.say, skips, List.length_cons, h₉]
    simp only [started, execs]; omega

/-- Taking the next source in hand. -/
theorem Books.countSource (h : Books n jobs s) : Books (n + 1) jobs (countSource s) := by
  intro ht
  obtain ⟨hf, hs, l, h₁, h₂, h₃, h₄, h₅, h₆, h₇, h₈, h₉⟩ := h ht
  exact ⟨hf, hs, l, h₁, h₂, h₃, h₄, h₅, h₆, h₇, h₈, by simp only [Cake.countSource, h₉]; rfl⟩

theorem Books.newest (h : Books n jobs s) (t : ℕ) :
    Books n jobs { s with w := { s.w with newestTime := t } } :=
  h.same ⟨rfl, rfl, rfl, rfl, Iff.rfl⟩

/-- The books are kept by every way of working through the slots. -/
theorem Books.discipline (env : Env) : Discipline env Books where
  dropFree h hj := h.dropFree hj
  addFree h hj := h.addFree hj
  start h hk := h.start env hk
  query h hact hq := h.query hact hq
  wait h hact hq := (h.wait hact hq).2
  same h hw := h.same hw
  setJobs h jobs := h.setJobs jobs
  count h := h.countSource
  skip h := h.skip env

/-- A command that is run to its end and counted: its exit code is the one of its own child. -/
theorem Books.execute {cmd : Cmd} {ok : Bool} {code : ℕ} {w : World} (h : Books n jobs s)
    (hq : executeCommand env cmd s.w = (ok, code, w)) (ht : Trusted w.log) :
    Fair w.log ∧ Slots w jobs ∧ (∃ l, Acct n (jobs.filterMap Job.task : List Task) s l) ∧
      ∃ fate, execs w.log = (cmd, fate) :: execs s.w.log ∧ skips w.log = skips s.w.log ∧
        ((ok = true ∧ code = 0) ↔ okFate fate = true) := by
  obtain ⟨c, v, c', hb, hw, rfl⟩ := executeCommand_cases hq
  have hact : c.isActive = true := Command.begin_active hb
  obtain ⟨r, status, hp, -, hok⟩ := Command.wait_busy hact hw
  have hl := World.waitpid_log hp
  obtain ⟨hf, hs, ha⟩ := h (Trusted.of_begin hb (Trusted.of_log hl ht))
  obtain ⟨hs', -, he, hsk, hfair⟩ := Slots.beginFirst hs hb
  have hown : Fair w.log ∨ c.fate ≠ none := ht.imp_right fun hall =>
    hall (cmd, c.fate) (by rw [hl.execs, he]; exact List.mem_cons_self ..)
  obtain ⟨hf', hcase⟩ := waitpid_slot (j := ⟨c, cmd.out⟩) hs' hact hp (hfair.mpr hf) hown
  refine ⟨hf', ?_, ha, c.fate, hl.execs.trans he, hl.skips.trans hsk, ?_⟩
  · rcases hcase with ⟨-, -, hs⟩ | ⟨-, hs, -⟩
    · exact hs
    · exact hs.sub (List.sublist_cons_self _ _)
  · rcases hcase with ⟨hr, ⟨f, hcf, rfl⟩, -⟩ | ⟨hr, -, hbad⟩
    · obtain ⟨-, rfl, hcode⟩ | ⟨hne, -⟩ := hok
      · have hcf' : c.fate = some f := hcf
        simp [hcf', hcode, okFate, Fate.ok]
      · exact absurd hr hne
    · obtain ⟨heq, -⟩ | ⟨-, rfl⟩ := hok
      · exact absurd heq hr
      · simpa using hbad rfl

/-- What a command that is not a compile job adds to the counters. -/
def Build.count (e : Cmd × Option Fate) (b : Build) : Build :=
  { b with ncompiled := b.ncompiled + (pchGood e).toNat
           nfailed := b.nfailed + (otherBad e).toNat
           nlinked := b.nlinked + (outputGood e).toNat }

theorem countP_log (p : Cmd × Option Fate → Bool) (e : Cmd × Option Fate)
    (l : List (Cmd × Option Fate)) : (e :: l).countP p = l.countP p + (p e).toNat := by
  rw [List.countP_cons]; cases p e <;> rfl

theorem Acct.count {running : Multiset Task} {l : Ledger Task} {w : World} {cmd : Cmd}
    {fate : Option Fate} (h : Acct n running s l) (hk : cmd.kind ≠ .compile)
    (he : execs w.log = (cmd, fate) :: execs s.w.log) (hsk : skips w.log = skips s.w.log) :
    Acct n running ⟨s.b.count (cmd, fate), w⟩ l := by
  obtain ⟨h₁, h₂, h₃, h₄, h₅, h₆, h₇, h₈, h₉⟩ := h
  have hst : started w.log = started s.w.log := by simp [started, he, hk]
  refine ⟨h₁, by rw [h₂, hst], h₃, by rw [hsk]; exact h₄, ?_, ?_, ?_, by rw [hsk]; exact h₈,
    by rw [hsk, hst]; exact h₉⟩
  · simp only [Build.count, he, countP_log, h₅]; omega
  · simp only [Build.count, he, countP_log, h₆]; omega
  · simp only [Build.count, he, countP_log, h₇]

/-- A command that is not a compile job leaves books in which it is counted. -/
theorem Books.counted {cmd : Cmd} {ok : Bool} {code : ℕ} {w : World} (hk : cmd.kind ≠ .compile)
    (h : Books n jobs s) (hq : executeCommand env cmd s.w = (ok, code, w)) (ht : Trusted w.log) :
    ∃ fate, ((ok = true ∧ code = 0) ↔ okFate fate = true) ∧ Fair w.log ∧ Slots w jobs ∧
      ∃ l, Acct n (jobs.filterMap Job.task : List Task) ⟨s.b.count (cmd, fate), w⟩ l := by
  obtain ⟨hf, hs, ⟨l, ha⟩, fate, he, hsk, hok⟩ := h.execute hq ht
  exact ⟨fate, hok, hf, hs, l, ha.count hk he hsk⟩

/-- A precompiled header is compiled at once. -/
theorem Books.buildPch (env : Env) {cmd : Cmd} (hk : cmd.kind = .pch) (h : Books n jobs s) :
    Books n jobs (buildPch env cmd s) := by
  rw [Cake.buildPch]
  rcases hq : executeCommand env cmd s.w with ⟨ok, code, w⟩
  intro ht
  have htw : Trusted w.log := by
    revert ht; dsimp only; split <;> [exact id; (split <;> exact id)]
  obtain ⟨fate, hok, hbooks⟩ := h.counted (by simp [hk]) hq htw
  dsimp only
  rw [verdict hok]
  cases hg : okFate fate with
  | true =>
    have hb : s.b.count (cmd, fate) = { s.b with ncompiled := s.b.ncompiled + 1 } := by
      simp [Build.count, pchGood, otherBad, outputGood, hk, hg]
    exact hb ▸ hbooks
  | false =>
    have hb : s.b.count (cmd, fate) = { s.b with nfailed := s.b.nfailed + 1 } := by
      simp [Build.count, pchGood, otherBad, outputGood, hk, hg]
    exact hb ▸ hbooks

theorem buildPch_jobs (env : Env) (cmd : Cmd) (s : St) : (buildPch env cmd s).b.jobs = s.b.jobs := by
  rw [Cake.buildPch]; dsimp only; split <;> [rfl; (split <;> rfl)]

theorem buildOutput_jobs (env : Env) (cmd : Cmd) (s : St) :
    (buildOutput env cmd s).2.b.jobs = s.b.jobs := by
  rw [Cake.buildOutput]; dsimp only; split <;> [rfl; (split <;> rfl)]

/-- An output is built at once; the answer is the counter that moved. -/
theorem Books.buildOutput (env : Env) {cmd : Cmd} (hk : cmd.kind = .link ∨ cmd.kind = .ar)
    (h : Books n jobs s) : Books n jobs (buildOutput env cmd s).2 := by
  rw [Cake.buildOutput]
  rcases hq : executeCommand env cmd s.w with ⟨ok, code, w⟩
  intro ht
  have htw : Trusted w.log := by
    revert ht; dsimp only; split <;> [exact id; (split <;> exact id)]
  obtain ⟨fate, hok, hbooks⟩ := h.counted (by rcases hk with hk | hk <;> simp [hk]) hq htw
  dsimp only
  rw [verdict hok]
  cases hg : okFate fate with
  | true =>
    have hb : s.b.count (cmd, fate) = { s.b with nlinked := s.b.nlinked + 1 } := by
      rcases hk with hk | hk <;> simp [Build.count, pchGood, otherBad, outputGood, hk, hg]
    exact hb ▸ hbooks
  | false =>
    have hb : s.b.count (cmd, fate) = { s.b with nfailed := s.b.nfailed + 1 } := by
      rcases hk with hk | hk <;> simp [Build.count, pchGood, otherBad, outputGood, hk, hg]
    exact hb ▸ hbooks

/-- Nothing in the books depends on the name of the precompiled header. -/
theorem Books.setPch (h : Books n jobs s) (name : Str) :
    Books n jobs { s with b := { s.b with pchname := name } } := by
  intro ht
  obtain ⟨hf, hs, l, h₁, h₂, h₃, h₄, h₅, h₆, h₇, h₈, h₉⟩ := h ht
  exact ⟨hf, hs, l, h₁, h₂, h₃, h₄, h₅, h₆, h₇, h₈, h₉⟩

theorem Books.makePch (env : Env) (pch cflags : Str) (cpp : Bool) (h : Books n jobs s) :
    Books n jobs (makePch env pch cflags cpp s) :=
  makePch_keeps (P := Books n jobs)
    (fun _ _ => ((h.same (World.same_yield env s.w)).setPch _).newest _)
    fun _ ht => ht.buildPch env rfl

theorem Books.produce (env : Env) {mkCmd : St → Cmd}
    (hk : ∀ s, (mkCmd s).kind = .link ∨ (mkCmd s).kind = .ar) (h : Books n s.b.jobs s) :
    Books n (produce env mkCmd s).2.b.jobs (produce env mkCmd s).2 := by
  have hy : Books n s.b.jobs { s with w := s.w.yield env } := h.same (World.same_yield env s.w)
  have hc := ((Books.discipline env).completeJobs (s := { s with w := s.w.yield env }) hy).1
  unfold Cake.produce
  dsimp only
  split
  · exact hc
  · split
    · exact hc.same ⟨rfl, rfl, rfl, rfl, Iff.rfl⟩
    · rw [buildOutput_jobs]
      exact hc.buildOutput env (hk _)

end Cake
