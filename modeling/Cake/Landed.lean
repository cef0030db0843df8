import Cake.Parts

/-! What a run leaves behind when every `compile()` returned true.

    A command that was started is still running, or its files have landed (`Going`). A build waits for
    all its children, and it returns true only when all of them were successes. So at its end every part
    of its project has a dependency file that lists files which are there, and neither the parts nor the
    output are older than the makefile (`Complete`, `Dated`). Later commands only write files anew, with
    the date of the day, so this lasts until the end of the run.

        launched ── running ──exit──▶ landed        skipped ──▶ was complete -/

namespace Cake

variable {env : Env} {R : Rules} {X : Part → Prop} {w w' : World} {p : Project} {s : St} {pr : Proc}
  {mk : ℕ}

/-- A command that cake counts as a success has read files that were there and has written its output,
    and a compiler a dependency file that lists what it has read. -/
def Env.Truthful (env : Env) : Prop :=
  ∀ k cmd fs f, env.fork k cmd fs = some f → f.ok = true →
    f.outcome = .written ∧ (∀ t ∈ f.reads, (fs t).isSome = true) ∧
      (World.hasDep cmd.kind = true →
        ∃ ts, depTokens f.depText = some ts ∧ ∀ t, t ∈ ts ↔ t ∈ f.reads)

/-- The dependency files of the parts are where gcc writes them, and apart. -/
structure Named (X : Part → Prop) : Prop where
  under : ∀ x, X x → baseobjdir <+: x.product
  product : ∀ x, X x → ∀ out, x.product ≠ gccDepName out
  dep : ∀ x, X x → x.dep = gccDepName x.product
  apart : ∀ x y, X x → X y → x.dep = y.dep → x.product = y.product

/-- The file is there and not older than the makefile. -/
def Dated (fs : FS) (mk : ℕ) (o : Str) : Prop := ∃ f, fs o = some f ∧ mk ≤ f.mtime

/-- The dependency file of the part lists files that are there; the part is there and not older than
    the makefile. -/
structure Complete (fs : FS) (mk : ℕ) (x : Part) : Prop where
  present : x.header = true → (fs x.product).isSome = true
  listed : ∃ tokens, listed fs x.dep = some tokens ∧ (∀ t ∈ tokens, (fs t).isSome = true) ∧
    (tokens ≠ [] → Dated fs mk x.product)

/-- What does not get lost between two states, and what does not change. -/
structure Lasts (X : Part → Prop) (mk : ℕ) (fs fs' : FS) : Prop where
  others : ∀ o, isProduct o = false → fs' o = fs o
  files : ∀ t, (fs t).isSome = true → (fs' t).isSome = true
  dated : ∀ o, Dated fs mk o → Dated fs' mk o
  complete : ∀ x, X x → Complete fs mk x → Complete fs' mk x

theorem Lasts.refl (fs : FS) : Lasts X mk fs fs :=
  ⟨fun _ _ => rfl, fun _ h => h, fun _ h => h, fun _ _ h => h⟩

theorem Lasts.trans {fs fs' fs'' : FS} (h : Lasts X mk fs fs') (k : Lasts X mk fs' fs'') :
    Lasts X mk fs fs'' :=
  ⟨fun o ho => (k.others o ho).trans (h.others o ho), fun t ht => k.files t (h.files t ht),
    fun o ho => k.dated o (h.dated o ho), fun x hx hc => k.complete x hx (h.complete x hx hc)⟩

theorem Lasts.of_eq {fs fs' : FS} (h : fs' = fs) : Lasts X mk fs fs' := by
  rw [h]
  exact .refl fs

/-! ### A child whose files land -/

theorem World.land_written (h : pr.fate.outcome = .written) (w : World) (o : Str) :
    (w.land pr).fs o = if pr.writes o = true then some (pr.file o w.clock) else w.fs o := by
  simp only [World.land, h, World.say, FS.set, Proc.writes, Proc.file]
  by_cases hout : o = pr.cmd.out
  · simp [hout]
  · by_cases hd : World.hasDep pr.cmd.kind = true
    · by_cases hdep : gccDepName pr.cmd.out = o
      · simp [hd, hdep, hout, Ne.symm hout, FS.set]
      · simp [hd, hdep, hout, Ne.symm hout, Ne.symm hdep, FS.set]
    · simp [hd, hout, Ne.symm hout]

/-- A child that will be a success. -/
structure Able (X : Part → Prop) (fs : FS) (pr : Proc) : Prop where
  makes : (making X).exec pr.cmd
  written : pr.fate.outcome = .written
  reads : ∀ t ∈ pr.fate.reads, (fs t).isSome = true
  deps : World.hasDep pr.cmd.kind = true →
    ∃ ts, depTokens pr.fate.depText = some ts ∧ ∀ t, t ∈ ts ↔ t ∈ pr.fate.reads

/-- What is there after the command is over. -/
structure Done (X : Part → Prop) (fs : FS) (mk : ℕ) (cmd : Cmd) : Prop where
  dated : Dated fs mk cmd.out
  complete : World.hasDep cmd.kind = true → ∀ x, X x → x.product = cmd.out → Complete fs mk x

theorem Done.lasts {fs fs' : FS} {cmd : Cmd} (h : Done X fs mk cmd) (hl : Lasts X mk fs fs') :
    Done X fs' mk cmd :=
  ⟨hl.dated _ h.dated, fun hd x hx ho => hl.complete x hx (h.complete hd x hx ho)⟩

theorem Able.files {fs fs' : FS} (h : Able X fs pr) (hl : ∀ t, (fs t).isSome = true → (fs' t).isSome = true) :
    Able X fs' pr :=
  ⟨h.makes, h.written, fun t ht => hl t (h.reads t ht), h.deps⟩

/-- The commands of a run write no dependency file as their output. -/
theorem Able.out_ne_dep {fs : FS} (hX : Named X) (h : Able X fs pr) {x : Part} (hx : X x) :
    pr.cmd.out ≠ x.dep := by
  have hm := h.makes
  simp only [making] at hm
  rw [hX.dep x hx]
  split at hm
  · obtain ⟨y, hy, ho⟩ := hm
    rw [ho]
    exact hX.product y hy _
  · obtain ⟨q, ho⟩ := hm
    rw [ho]
    exact (obj_ne_outPath (gccDepName_under (hX.under x hx)) q).symm

theorem land_exists (h : pr.fate.outcome = .written) {t : Str} (ht : (w.fs t).isSome = true) :
    ((w.land pr).fs t).isSome = true := by
  rw [World.land_written h]
  split
  · rfl
  · exact ht

theorem land_dated (h : pr.fate.outcome = .written) (hmk : mk ≤ sec w.clock) {o : Str}
    (ho : Dated w.fs mk o) : Dated (w.land pr).fs mk o := by
  rw [Dated, World.land_written h]
  split
  · exact ⟨_, rfl, by rw [Proc.file_mtime]; exact hmk⟩
  · exact ho

/-- The output of the child, dated today. -/
theorem land_out (h : pr.fate.outcome = .written) (hmk : mk ≤ sec w.clock) :
    Dated (w.land pr).fs mk pr.cmd.out := by
  rw [Dated, World.land_written h, if_pos (by simp [Proc.writes])]
  exact ⟨_, rfl, by rw [Proc.file_mtime]; exact hmk⟩

theorem readFile_some {fs : FS} {p : Str} {f : File} {ts : List Str} (hf : fs p = some f)
    (ht : depTokens f.data = some ts) : listed fs p = some ts := by
  rw [listed, readFile, hf]
  cases hd : f.data with
  | nil => rw [hd] at ht; cases ht
  | cons c cs => simpa [hd] using ht

/-- The child has written the part and its dependency file. -/
theorem land_part (hX : Named X) (h : Able X w.fs pr) (hmk : mk ≤ sec w.clock)
    (hd : World.hasDep pr.cmd.kind = true) {x : Part} (hx : X x) (ho : x.dep = gccDepName pr.cmd.out)
    (hp : x.product = pr.cmd.out) : Complete (w.land pr).fs mk x := by
  obtain ⟨ts, hts, hreads⟩ := h.deps hd
  have hout := land_out (w := w) h.written hmk
  have hdep : (w.land pr).fs x.dep = some (pr.file x.dep w.clock) := by
    rw [World.land_written h.written, if_pos (by simp [Proc.writes, hd, ho])]
  refine ⟨fun _ => ?_, ts, readFile_some hdep ?_, fun t ht => ?_, fun _ => hp ▸ hout⟩
  · obtain ⟨f, hf, -⟩ := hout
    rw [hp, hf]; rfl
  · rw [Proc.file, if_neg (h.out_ne_dep hX hx)]
    exact hts
  · exact land_exists h.written (h.reads t ((hreads t).mp ht))

theorem Able.part {fs : FS} (h : Able X fs pr) (hd : World.hasDep pr.cmd.kind = true) :
    ∃ y, X y ∧ pr.cmd.out = y.product := by
  have hm := h.makes
  simpa only [making, hd, if_true] using hm

/-- The child writes products alone. -/
theorem Able.writes_product {fs : FS} (hX : Named X) (h : Able X fs pr) {o : Str}
    (hw : pr.writes o = true) : isProduct o = true := by
  rw [Proc.writes, Bool.or_eq_true, Bool.and_eq_true, decide_eq_true_eq, decide_eq_true_eq] at hw
  have hm := h.makes
  simp only [making] at hm
  split at hm
  · obtain ⟨x, hx, ho⟩ := hm
    have hunder := hX.under x hx
    rw [← ho] at hunder
    rcases hw with rfl | ⟨-, rfl⟩
    · exact product_obj hunder
    · exact product_obj (gccDepName_under hunder)
  · obtain ⟨q, ho⟩ := hm
    rcases hw with rfl | ⟨hd, -⟩
    · exact ho ▸ product_outPath q
    · contradiction

theorem land_lasts (hX : Named X) (h : Able X w.fs pr) (hmk : mk ≤ sec w.clock) :
    Lasts X mk w.fs (w.land pr).fs := by
  refine ⟨fun o ho => ?_, fun t => land_exists h.written, fun o => land_dated h.written hmk,
    fun x hx hc => ?_⟩
  · rw [World.land_written h.written, if_neg fun hw => ?_]
    rw [h.writes_product hX hw] at ho
    cases ho
  by_cases hw : pr.writes x.dep = true
  · -- the dependency file is written anew, so the part is too
    obtain ⟨hd, ho⟩ : World.hasDep pr.cmd.kind = true ∧ gccDepName pr.cmd.out = x.dep := by
      simpa [Proc.writes, h.out_ne_dep hX hx] using hw
    obtain ⟨y, hy, hout⟩ := h.part hd
    refine land_part hX h hmk hd hx ho.symm ?_
    rw [hout]
    exact hX.apart x y hx hy (by rw [hX.dep y hy, ← hout, ho])
  · obtain ⟨hpres, tokens, hl, hex, hdated⟩ := hc
    refine ⟨fun hh => land_exists h.written (hpres hh), tokens, ?_,
      fun t ht => land_exists h.written (hex t ht), fun hne => land_dated h.written hmk (hdated hne)⟩
    have hsame : (w.land pr).fs x.dep = w.fs x.dep := by
      rw [World.land_written h.written, if_neg hw]
    rw [listed, readFile, hsame]
    exact hl

theorem land_done (hX : Named X) (h : Able X w.fs pr) (hmk : mk ≤ sec w.clock) :
    Done X (w.land pr).fs mk pr.cmd :=
  ⟨land_out h.written hmk, fun hd x hx ho =>
    land_part hX h hmk hd hx (by rw [hX.dep x hx, ho]) ho⟩

/-! ### Running or done -/

/-- A move leaves the files and the running children alone, or one running child exits. -/
theorem Move.ends (hcalm : env.Calm) (hp : w.PidsOk) (hm : Move env R w w') :
    (w'.fs = w.fs ∧ ∀ q ∈ w.procs, q.zombie = false → q ∈ w'.procs) ∨
      ∃ pr ∈ w.procs, w'.fs = (w.land pr).fs ∧
        ∀ q ∈ w.procs, q.zombie = false → q = pr ∨ q ∈ w'.procs := by
  have finish : ∀ pid, (w.finish pid = w ∨ ∃ pr ∈ w.procs, (w.finish pid).fs = (w.land pr).fs ∧
      ∀ q ∈ w.procs, q.zombie = false → q = pr ∨ q ∈ (w.finish pid).procs) := fun pid => by
    rcases w.finish_cases pid with heq | ⟨pr, hpr, hpid, -, heq⟩
    · exact Or.inl heq
    · refine Or.inr ⟨pr, hpr, ?_, fun q hq hz => ?_⟩
      · rw [heq, World.land, World.land]
        cases pr.fate.outcome <;> rfl
      · by_cases hqp : q.pid = pid
        · exact Or.inl (hp.unique hq hpr (hqp.trans hpid.symm))
        · rw [World.procs_finish]
          exact Or.inr (List.mem_map.mpr ⟨q, hq, if_neg hqp⟩)
  cases hm with
  | @act k a ha =>
    cases a with
    | exit pid =>
      rcases finish pid with heq | h
      · exact Or.inl ⟨congrArg World.fs heq, fun q hq _ => by rw [World.act, heq]; exact hq⟩
      · exact Or.inr h
    | tick d => exact Or.inl ⟨rfl, fun _ hq _ => hq⟩
    | edit p data => exact (hcalm k _ ha).elim
    | restore p f => exact (hcalm k _ ha).elim
    | relist g => exact (hcalm k _ ha).elim
  | finish pid =>
    rcases finish pid with heq | h
    · exact Or.inl ⟨congrArg World.fs heq, fun q hq _ => by rw [heq]; exact hq⟩
    · exact Or.inr h
  | @reap pr e hpr hz _ =>
    refine Or.inl ⟨rfl, fun q hq hq0 => List.mem_filter.mpr ⟨hq, ?_⟩⟩
    have hne : q.pid ≠ pr.pid := fun heq => by
      rw [hp.unique hq hpr heq, hz] at hq0; cases hq0
    simpa using hne
  | @start cmd _ =>
    refine Or.inl ?_
    rw [World.fork]
    cases env.fork w.nfork cmd w.fs with
    | none => exact ⟨rfl, fun _ hq _ => hq⟩
    | some f => exact ⟨rfl, fun _ hq _ => List.mem_append_left _ hq⟩
  | aside _ _ _ => exact Or.inl ⟨rfl, fun _ hq _ => hq⟩
  | say _ => exact Or.inl ⟨rfl, fun _ hq _ => hq⟩

/-- A command that has just been started is running. -/
theorem Move.started (hm : Move env R w w') : ∃ new, Cake.launched w'.log = new ++ Cake.launched w.log ∧
    ∀ cmd f, (cmd, some f) ∈ new → ∃ pr ∈ w'.procs, pr.cmd = cmd ∧ pr.zombie = false := by
  have idle : Cake.launched w'.log = Cake.launched w.log → ∃ new,
      Cake.launched w'.log = new ++ Cake.launched w.log ∧
      ∀ cmd f, (cmd, some f) ∈ new → ∃ pr ∈ w'.procs, pr.cmd = cmd ∧ pr.zombie = false :=
    fun heq => ⟨[], heq, fun _ _ h => absurd h List.not_mem_nil⟩
  have finish : ∀ pid, Cake.launched (w.finish pid).log = Cake.launched w.log := fun pid => by
    rcases w.log_finish pid with heq | ⟨pr, -, -, -, heq⟩
    · rw [heq]
    · rw [heq]; rfl
  cases hm with
  | @act k a ha =>
    cases a with
    | exit pid => exact idle (finish pid)
    | _ => exact idle rfl
  | finish pid => exact idle (finish pid)
  | reap _ _ he => rcases he with rfl | rfl <;> exact idle rfl
  | @start c _ =>
    rw [World.fork]
    cases hf : env.fork w.nfork c w.fs with
    | none =>
      refine ⟨[(c, none)], rfl, fun cmd f h => ?_⟩
      cases List.mem_singleton.mp h
    | some g =>
      refine ⟨[(c, some g)], rfl, fun cmd f h => ?_⟩
      cases List.mem_singleton.mp h
      exact ⟨_, List.mem_append_right _ (List.mem_singleton_self _), rfl, rfl⟩
  | aside _ _ _ => exact idle rfl
  | @say e he =>
    cases e with
    | run v => exact he.elim
    | exec c g => exact he.elim
    | _ => exact idle rfl

/-- As long as every command started in this run is a success: those that run will be successes, and
    the others are done. -/
structure Going (X : Part → Prop) (w : World) : Prop where
  time : w.makefileTime ≤ sec w.clock
  able : ∀ pr ∈ w.procs, Able X w.fs pr
  done : ∀ cmd f, (cmd, some f) ∈ launched w.log →
    (∃ pr ∈ w.procs, pr.cmd = cmd ∧ pr.zombie = false) ∨ Done X w.fs w.makefileTime cmd

/-- What is there stays there, whoever exits. -/
theorem Going.lasts (hX : Named X) (hcalm : env.Calm) (hp : w.PidsOk) (hm : Move env R w w')
    (h : Going X w) : Lasts X w.makefileTime w.fs w'.fs := by
  rcases hm.ends hcalm hp with ⟨hfs, -⟩ | ⟨pr, hpr, hfs, -⟩
  · exact .of_eq hfs
  · rw [hfs]
    exact land_lasts hX (h.able pr hpr) h.time

theorem Going.move (hX : Named X) (hcalm : env.Calm) (htruth : env.Truthful) (hp : w.PidsOk)
    (hm : Move env (making X) w w') (hok : AllOk w'.log) (h : Going X w) : Going X w' := by
  have hlasts := h.lasts hX hcalm hp hm
  have hmk := hm.later.makefileTime
  refine ⟨by rw [hmk]; exact h.time.trans (sec_mono hm.later.clock), fun q hq => ?_,
    fun cmd f hcmd => ?_⟩
  · rcases hm.child hp hq with hq | ⟨q₀, hq₀, rfl, -⟩ | ⟨cmd, f, hexec, hf, rfl, hfs, hlog⟩
    · exact (h.able q hq).files hlasts.files
    · obtain ⟨h₁, h₂, h₃, h₄⟩ := (h.able q₀ hq₀).files hlasts.files
      exact ⟨h₁, h₂, h₃, h₄⟩
    · have hfok : f.ok = true := hok (cmd, some f) (by rw [hlog]; exact List.mem_cons_self ..)
      obtain ⟨hwritten, hreads, hdeps⟩ := htruth _ _ _ _ hf hfok
      exact ⟨hexec, hwritten, fun t ht => hfs ▸ hreads t ht, hdeps⟩
  · rw [hmk]
    obtain ⟨new, hlog, hrun⟩ := hm.started
    rcases List.mem_append.mp (hlog ▸ hcmd) with hcmd | hcmd
    · exact Or.inl (hrun cmd f hcmd)
    · rcases h.done cmd f hcmd with ⟨q, hq, rfl, hz⟩ | hdone
      · rcases hm.ends hcalm hp with ⟨-, hrun⟩ | ⟨pr, hpr, hfs, hrun⟩
        · exact Or.inl ⟨q, hrun q hq hz, rfl, hz⟩
        · rcases hrun q hq hz with rfl | hq'
          · rw [hfs]
            exact Or.inr (land_done hX (h.able q hpr) h.time)
          · exact Or.inl ⟨q, hq', rfl, hz⟩
      · exact Or.inr (hdone.lasts hlasts)

/-- What holds between two states of a run whose commands are all successes. -/
structure Went (X : Part → Prop) (w w' : World) : Prop where
  going : Going X w'
  lasts : Lasts X w.makefileTime w.fs w'.fs

theorem Went.path (hX : Named X) (hcalm : env.Calm) (htruth : env.Truthful) (hp : w.PidsOk)
    (hm : Path env (making X) w w') (h : Going X w) (hok : AllOk w'.log) : Went X w w' := by
  have hkeep := Moves.keeps (I := fun v => v.PidsOk ∧ v.makefileTime = w.makefileTime ∧
    (AllOk v.log → Went X w v)) (fun u v hm hu => ?_) hm ⟨hp, rfl, fun _ => ⟨h, .refl _⟩⟩
  · exact hkeep.2.2 hok
  · obtain ⟨hpids, hmk, hwent⟩ := hu
    refine ⟨hpids.move hm, hm.later.makefileTime.trans hmk, fun hok => ?_⟩
    obtain ⟨hgoing, hlasts⟩ := hwent (hok.before (.single hm))
    have hnext := hmk ▸ hgoing.lasts hX hcalm hpids hm
    exact ⟨hgoing.move hX hcalm htruth hpids hm hok, hlasts.trans hnext⟩

end Cake
