import Mathlib.Data.Multiset.Count
import Cake.Schedule

/-! What a finished command counts as.

    The status word of a child goes through `WEXITSTATUS` into `exitcode`, and `exitcode` decides in
    four places whether the command succeeded. A normal exit and a signal share the word:

        exited c    c in bits 8 to 15     exitcode c
        signal s    s in bits 0 to 6      exitcode 0

    so the counters and `linklist` are about normal exits with 0 exactly as long as no child of the
    build was killed by a signal. -/

namespace Cake

/-- A call of a method of the build object. -/
inductive Op where
  | doCompile (cflags fname : Str)
  | makePch (pch cflags : Str) (cplusplus : Bool)
  | completeJobs
  | link (target ldflags : Str) (libs : List Str) (depends : Option (List Str))
  | staticlib (target : Str)

/-- The answer, for the methods that have one, and the state after. -/
def Op.run (env : Env) : Op → St → Option Bool × St
  | .doCompile cflags fname, s => (none, Cake.doCompile env cflags fname s)
  | .makePch pch cflags cplusplus, s => (none, Cake.makePch env pch cflags cplusplus s)
  | .completeJobs, s => (none, Cake.completeJobs env s)
  | .link target ldflags libs depends, s =>
    ((Cake.link env target ldflags libs depends s).1, (Cake.link env target ldflags libs depends s).2)
  | .staticlib target, s => ((Cake.staticlib env target s).1, (Cake.staticlib env target s).2)

def calls (env : Env) (ops : List Op) (s : St) : St := ops.foldl (fun s op => (op.run env s).2) s

/-- The child was started and killed by a signal. -/
def signaled {α : Type} (t : α × Option Fate) : Bool :=
  match t.2 with
  | some ⟨.signaled _ _, _, _, _⟩ => true
  | _ => false

/-- The counters and `linklist` are about children that exited normally with 0. -/
structure Honest (s : St) : Prop where
  link : (s.b.linklist : Multiset Str) =
    (skips s.w.log : Multiset Str) + ((settled s).filter (exitedZero ·)).map Prod.fst
  compiled : s.b.ncompiled = (settled s).countP (exitedZero ·) +
    (execs s.w.log).countP (fun e => e.1.kind = .pch && exitedZero e)
  linked : s.b.nlinked =
    (execs s.w.log).countP (fun e => (e.1.kind = .link || e.1.kind = .ar) && exitedZero e)
  failed : s.b.nfailed = (settled s).countP (fun t => !exitedZero t) +
    (execs s.w.log).countP (fun e => e.1.kind ≠ .compile && !exitedZero e)

/-- No command that is over was killed by a signal. -/
structure Unsignaled (s : St) : Prop where
  compile : ∀ t ∈ settled s, signaled t = false
  other : ∀ e ∈ execs s.w.log, e.1.kind ≠ .compile → signaled e = false

/-- cake sees a success where the child exited with 0 and where it was killed by a signal. -/
theorem okFate_eq {α : Type} : ∀ t : α × Option Fate, okFate t.2 = (exitedZero t || signaled t)
  | (_, none) => rfl
  | (_, some ⟨.exited code, _, _, _⟩) => by
    rw [okFate_normal rfl]; simp [exitedZero, signaled]
  | (_, some ⟨.signaled sig core, _, _, _⟩) => by
    simp [okFate, Fate.ok, wexitstatus_signaled, exitedZero, signaled]

theorem exitedZero_of_signaled {α : Type} : ∀ {t : α × Option Fate}, signaled t = true →
    exitedZero t = false
  | (_, some ⟨.signaled _ _, _, _, _⟩), _ => by simp [exitedZero]

/-- Two counts agree iff nothing is in one and not in the other. -/
theorem countP_eq_iff {α : Type} {p q : α → Bool} (h : ∀ x, q x = true → p x = true)
    (l : Multiset α) : l.countP (p ·) = l.countP (q ·) ↔ ∀ x ∈ l, p x = true → q x = true := by
  induction l using Multiset.induction_on with
  | empty => simp
  | cons x l ih =>
    have hle : l.countP (q ·) ≤ l.countP (p ·) := by
      simp only [Multiset.countP_eq_card_filter]
      exact Multiset.card_le_card (Multiset.monotone_filter_right l fun y hy => h y hy)
    rw [Multiset.forall_mem_cons, ← ih, Multiset.countP_cons, Multiset.countP_cons]
    cases hp : p x with
    | false => simp [show q x = false from Bool.eq_false_iff.mpr fun hq => by simp [h x hq] at hp]
    | true =>
      cases hq : q x with
      | false => simp; omega
      | true => simp

/-- A count that does not confuse signals with exits meets no signal. -/
theorem no_signal_of_count {α : Type} (l : Multiset (α × Option Fate)) (sel : α × Option Fate → Bool)
    (h : l.countP (fun t => sel t && okFate t.2) = l.countP (fun t => sel t && exitedZero t)) :
    ∀ t ∈ l, sel t = true → signaled t = false := by
  have hall := (countP_eq_iff (p := fun t => sel t && okFate t.2) (q := fun t => sel t && exitedZero t)
    (fun t ht => by rw [okFate_eq]; simp_all) l).mp (by simpa using h)
  intro t ht hs
  refine Bool.eq_false_iff.mpr fun hsig => ?_
  have := hall t ht (by simp [hs, okFate_eq, hsig])
  simp [exitedZero_of_signaled hsig] at this

theorem okFate_unsignaled {α : Type} {t : α × Option Fate} (h : signaled t = false) :
    okFate t.2 = exitedZero t := by rw [okFate_eq, h, Bool.or_false]

/-- The settled jobs are in the ledger by what the code saw of them. -/
theorem Acct.settled_filter {s : St} {l : Ledger Task}
    (h : Acct 0 (s.b.jobs.filterMap Job.task : List Task) s l) :
    l.good = (settled s).filter (fun t => okFate t.2 = true) ∧
      l.bad = (settled s).filter (fun t => ¬ okFate t.2 = true) := by
  obtain ⟨hrun, htot, hsound, -⟩ := h
  have hset : l.good + l.bad = settled s := by rw [l.settled_eq, hrun, htot]; rfl
  refine ⟨?_, ?_⟩
  · rw [hsound.good_eq, hset]
  · rw [hsound.bad_eq, hset]

/-- Books that are about real successes have met no signal. -/
theorem Acct.unsignaled {s : St} {l : Ledger Task}
    (h : Acct 0 (s.b.jobs.filterMap Job.task : List Task) s l) (hs : Honest s) : Unsignaled s := by
  obtain ⟨hgood, -⟩ := h.settled_filter
  obtain ⟨-, -, -, hlink, hcomp, -, hlinked, -, -⟩ := h
  obtain ⟨k₁, k₂, k₃, -⟩ := hs
  have hcard : (settled s).countP (fun t => okFate t.2 = true) =
      (settled s).countP (exitedZero ·) := by
    rw [k₁, add_right_inj] at hlink
    rw [Multiset.countP_eq_card_filter, Multiset.countP_eq_card_filter, ← hgood,
      ← Multiset.card_map Prod.fst, ← hlink, Multiset.card_map]
  have hpch : (execs s.w.log).countP pchGood =
      (execs s.w.log).countP (fun e => e.1.kind = .pch && exitedZero e) := by
    rw [hcomp, hgood, ← Multiset.countP_eq_card_filter, hcard] at k₂
    exact Nat.add_left_cancel k₂
  have hout := hlinked.symm.trans k₃
  refine ⟨fun t ht => no_signal_of_count (settled s) (fun _ => true) ?_ t ht rfl,
    fun e he hk => ?_⟩
  · simpa using hcard
  · have hp := no_signal_of_count (execs s.w.log : Multiset (Cmd × Option Fate))
      (fun e => e.1.kind = .pch)
      (by simp only [Bool.decide_eq_true, Multiset.coe_countP]; exact hpch) e he
    have ho := no_signal_of_count (execs s.w.log : Multiset (Cmd × Option Fate))
      (fun e => e.1.kind = .link || e.1.kind = .ar)
      (by simp only [Bool.decide_eq_true, Multiset.coe_countP]; exact hout) e he
    cases hek : e.1.kind with
    | compile => exact absurd hek hk
    | pch => exact hp (by simp [hek])
    | link => exact ho (by simp [hek])
    | ar => exact ho (by simp [hek])

/-- Without a signal the code sees what there is to see. -/
theorem Acct.honest {s : St} {l : Ledger Task}
    (h : Acct 0 (s.b.jobs.filterMap Job.task : List Task) s l) (hs : Unsignaled s) : Honest s := by
  obtain ⟨hgood, hbad⟩ := h.settled_filter
  obtain ⟨-, -, -, hlink, hcomp, hfail, hlinked, -, -⟩ := h
  obtain ⟨hc, ho⟩ := hs
  have hsame : ∀ t ∈ settled s, okFate t.2 = exitedZero t := fun t ht => okFate_unsignaled (hc t ht)
  have hother : ∀ e ∈ execs s.w.log, e.1.kind ≠ .compile → okFate e.2 = exitedZero e :=
    fun e he hk => okFate_unsignaled (ho e he hk)
  have hgood' : l.good = (settled s).filter (exitedZero ·) := by
    rw [hgood]
    exact Multiset.filter_congr fun t ht => by rw [hsame t ht]
  have hbad' : l.bad = (settled s).filter (fun t => !exitedZero t) := by
    rw [hbad]
    exact Multiset.filter_congr fun t ht => by rw [hsame t ht]; simp
  refine ⟨by rw [hlink, hgood'], ?_, ?_, ?_⟩
  · rw [hcomp, hgood', ← Multiset.countP_eq_card_filter]
    refine congrArg _ (List.countP_congr fun e he => ?_)
    by_cases hk : e.1.kind = .pch
    · simp [pchGood, hk, hother e he (by simp [hk])]
    · simp [pchGood, hk]
  · rw [hlinked]
    refine List.countP_congr fun e he => ?_
    by_cases hk : e.1.kind = .compile
    · simp [outputGood, hk]
    · simp [outputGood, hother e he hk]
  · rw [hfail, hbad', ← Multiset.countP_eq_card_filter]
    refine congrArg _ (List.countP_congr fun e he => ?_)
    by_cases hk : e.1.kind = .compile
    · simp [otherBad, hk]
    · simp [otherBad, hk, hother e he hk]

/-- The books are about real successes exactly when no finished command was killed by a signal. -/
theorem Acct.honest_iff {s : St} {l : Ledger Task}
    (h : Acct 0 (s.b.jobs.filterMap Job.task : List Task) s l) : Honest s ↔ Unsignaled s :=
  ⟨h.unsignaled, h.honest⟩

/-! ### Whole builds -/

variable {env : Env}

theorem makePch_jobs (env : Env) (pch cflags : Str) (cpp : Bool) (s : St) :
    (makePch env pch cflags cpp s).b.jobs = s.b.jobs :=
  makePch_keeps (P := fun t => t.b.jobs = s.b.jobs) (fun _ _ => rfl)
    fun t ht => (buildPch_jobs env _ t).trans ht

theorem drain_length (env : Env) (js : List Job) (s : St) : (drain env js s).1.length = js.length := by
  induction js generalizing s with
  | nil => rfl
  | cons j js ih =>
    rw [drain]
    cases j.cmd.isActive with
    | false => exact congrArg (· + 1) (ih s)
    | true => exact congrArg (· + 1) (ih _)

theorem produce_length (env : Env) (mkCmd : St → Cmd) (s : St) :
    (produce env mkCmd s).2.b.jobs.length = s.b.jobs.length := by
  unfold produce
  dsimp only
  split
  · exact drain_length ..
  · split
    · exact drain_length ..
    · rw [buildOutput_jobs]; exact drain_length ..

theorem Op.run_length (env : Env) (op : Op) (s : St) :
    (op.run env s).2.b.jobs.length = s.b.jobs.length := by
  cases op with
  | doCompile cflags fname =>
    obtain ⟨c, hc⟩ := doCompile_eq_request env cflags fname s
    simp only [Op.run, hc]
    exact request_length env s c
  | makePch pch cflags cpp => exact congrArg _ (makePch_jobs ..)
  | completeJobs => exact drain_length ..
  | link => exact produce_length ..
  | staticlib => exact produce_length ..

theorem Op.run_books (op : Op) {s : St} (h : Books 0 s.b.jobs s) (hne : s.b.jobs ≠ []) :
    Books 0 (op.run env s).2.b.jobs (op.run env s).2 := by
  cases op with
  | doCompile cflags fname => exact (Books.discipline env).doCompile cflags fname h hne
  | makePch pch cflags cpp =>
    simp only [Op.run, makePch_jobs]
    exact h.makePch env pch cflags cpp
  | completeJobs => exact ((Books.discipline env).completeJobs h).1
  | link => exact h.produce env fun _ => Or.inl rfl
  | staticlib => exact h.produce env fun _ => Or.inr rfl

theorem calls_books {w : World} (hw : w.PidsOk) (ops : List Op) :
    Books 0 (calls env ops (newBuild env w)).b.jobs (calls env ops (newBuild env w)) ∧
      (calls env ops (newBuild env w)).b.jobs.length = max env.cpus 1 := by
  induction ops using List.reverseRecOn with
  | nil => exact ⟨books_newBuild env hw, by simp [calls, newBuild]⟩
  | append_singleton ops op ih =>
    obtain ⟨hb, hl⟩ := ih
    simp only [calls, List.foldl_append, List.foldl_cons, List.foldl_nil] at hb hl ⊢
    refine ⟨op.run_books hb ?_, (op.run_length env _).trans hl⟩
    rw [← List.length_pos_iff, hl]; omega

/-- `link` and `staticlib` answer true only when nothing has failed and no job is left. -/
theorem produce_true {mkCmd : St → Cmd} {s : St} (h : Books 0 s.b.jobs s)
    (ht : (produce env mkCmd s).1 = true) :
    (produce env mkCmd s).2.b.nfailed = 0 ∧
      ∀ j ∈ (produce env mkCmd s).2.b.jobs, j.cmd.isActive = false := by
  have hy : Books 0 s.b.jobs { s with w := s.w.yield env } := h.same (World.same_yield env s.w)
  have hfree := ((Books.discipline env).completeJobs (s := { s with w := s.w.yield env }) hy).2
  revert ht
  unfold produce
  dsimp only
  split
  · simp
  · rename_i hn
    split
    · exact fun _ => ⟨not_not.mp hn, hfree⟩
    · rw [buildOutput]
      dsimp only
      split
      · simp
      · split
        · simp
        · exact fun _ => ⟨not_not.mp hn, hfree⟩

theorem Op.run_true {op : Op} {s : St} (h : Books 0 s.b.jobs s)
    (ht : (op.run env s).1 = some true) :
    (op.run env s).2.b.nfailed = 0 ∧ ∀ j ∈ (op.run env s).2.b.jobs, j.cmd.isActive = false := by
  cases op with
  | doCompile | makePch | completeJobs => simp [Op.run] at ht
  | link => exact produce_true h (Option.some_inj.mp ht)
  | staticlib => exact produce_true h (Option.some_inj.mp ht)

/-- When nothing has failed and no job is left, every command has exited with 0. -/
theorem Honest.all_zero {s : St} (h : Honest s) (hn : s.b.nfailed = 0)
    (hfree : ∀ j ∈ s.b.jobs, j.cmd.isActive = false) : ∀ e ∈ execs s.w.log, exitedZero e = true := by
  have hset : settled s = (started s.w.log : Multiset Task) := by
    have : s.b.jobs.filterMap Job.task = [] :=
      List.filterMap_eq_nil_iff.mpr fun j hj => by simp [Job.task, hfree j hj]
    rw [settled, this, Multiset.coe_nil, tsub_zero]
  have hf := h.failed
  rw [hn, hset, eq_comm, Nat.add_eq_zero_iff, Multiset.coe_countP, List.countP_eq_zero,
    List.countP_eq_zero] at hf
  intro e he
  by_cases hk : e.1.kind = .compile
  · have := hf.1 (e.1.out, e.2) (List.mem_map.mpr ⟨e, List.mem_filter.mpr ⟨he, by simp [hk]⟩, rfl⟩)
    simpa [exitedZero] using this
  · simpa [hk] using hf.2 e he

/-- After any calls on a build object, the books and the answers of `link` and `staticlib` are about
    normal exits with 0 exactly when no finished command was killed by a signal. -/
theorem success_is_exit_zero_iff {w : World} (hw : w.PidsOk) (ops : List Op) (op : Op)
    (ht : Trusted (op.run env (calls env ops (newBuild env w))).2.w.log) :
    (Honest (op.run env (calls env ops (newBuild env w))).2 ∧
      ((op.run env (calls env ops (newBuild env w))).1 = some true →
        ∀ e ∈ execs (op.run env (calls env ops (newBuild env w))).2.w.log, exitedZero e = true)) ↔
    Unsignaled (op.run env (calls env ops (newBuild env w))).2 := by
  obtain ⟨hb, hl⟩ := calls_books hw ops
  generalize calls env ops (newBuild env w) = s at ht hb hl
  have hne : s.b.jobs ≠ [] := by rw [← List.length_pos_iff, hl]; omega
  obtain ⟨-, -, l, ha⟩ := op.run_books hb hne ht
  rw [← ha.honest_iff]
  refine ⟨fun h => h.1, fun h => ⟨h, fun hans => ?_⟩⟩
  obtain ⟨hn, hfree⟩ := Op.run_true hb hans
  exact h.all_zero hn hfree

/-- A source is compiled and linked; the compiler ends as `status` says. -/
def compileAndLink (status : WaitStatus) : Option Bool × St :=
  let env := Env.exits 1 (fun k => if k = 0 then some status else some (.exited exitZero))
  (Op.link "prog".toList [] [] none).run env
    (calls env [.doCompile [] "a.c".toList] (newBuild env World.empty))

/-- A compiler that exits with 1: nothing is linked. -/
theorem success_is_exit_zero_iff_run :
    Honest (compileAndLink (.exited 1)).2 ∧ (compileAndLink (.exited 1)).1 = some false ∧
      (compileAndLink (.exited 1)).2.b.nfailed = 1 := by
  refine ⟨((success_is_exit_zero_iff World.pidsOk_empty [.doCompile [] "a.c".toList]
    (.link "prog".toList [] [] none) (Or.inl ?_)).mpr ⟨?_, ?_⟩).1, ?_, ?_⟩
  all_goals decide +kernel

/-- A compiler killed by signal 9: its object is linked, nothing failed, and `link` answers true. -/
theorem killed_compiler_is_linked :
    let r := compileAndLink (.signaled 8 false)
    r.1 = some true ∧ r.2.b.linklist = ["obj//a.o".toList] ∧ r.2.b.ncompiled = 1 ∧
      r.2.b.nfailed = 0 ∧ ¬ Honest r.2 := by
  refine ⟨by decide +kernel, by decide +kernel, by decide +kernel, by decide +kernel, fun h => ?_⟩
  exact absurd h.compiled (by decide +kernel)

end Cake
