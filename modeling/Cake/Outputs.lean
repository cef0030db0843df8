import Cake.Alone
import Cake.Reuse

/-! What an output was made of.

    A link or an archive is waited for at once, so between two commands no linker is running, and one
    that cake counts as a success has just written its output. An output that is kept instead was
    written earlier, perhaps by a run for another target: outputs of different targets are apart only
    where the makefile keeps their paths apart.

        compile() = true ──built──▶ last written by a command of this run
                         └──kept───▶ last written by a command of some run -/

namespace Cake

variable {env : Env} {fits : Str → Str → Prop} {rs : List Run} {r : Run} {w w' : World}

/-- A linker or an archiver can be started, and one that cake counts as a success has written its
    output. -/
def Env.Links (env : Env) : Prop :=
  ∀ k cmd fs, World.hasDep cmd.kind = false →
    ∃ f, env.fork k cmd fs = some f ∧ (f.ok = true → f.outcome = .written)

/-- Some project of the run issues the command. -/
def Run.Issues (env : Env) (fits : Str → Str → Prop) (r : Run) (cmd : Cmd) : Prop :=
  ∃ p ∈ r.projects, p.Issues env fits r.projects r.target cmd

/-- The file was last written by a command of this run. -/
def Fresh (env : Env) (fits : Str → Str → Prop) (r : Run) (o : Str) (log : List Ev) : Prop :=
  ∃ pr now, lastWrote o log = some (pr, now) ∧ r.Issues env fits pr.cmd

theorem Fresh.cons {o : Str} {e : Ev} {log : List Ev} (h : Fresh env fits r o log)
    (he : ∀ pr v, e = .wrote pr v → pr.writes o = true → r.Issues env fits pr.cmd) :
    Fresh env fits r o (e :: log) := by
  cases e with
  | wrote pr v =>
    rw [Fresh, lastWrote]
    split
    · rename_i hw
      exact ⟨pr, v.clock, rfl, he pr v rfl hw⟩
    · exact h
  | _ => exact h

/-- In every state of a run: the linkers and archivers were started by it, and the output of one that
    has exited is its own. -/
structure Own (env : Env) (fits : Str → Str → Prop) (rs : List Run) (r : Run) (w : World) :
    Prop where
  made : Made (ChildOf env fits rs) w
  pids : w.PidsOk
  procs : ∀ pr ∈ w.procs, World.hasDep pr.cmd.kind = false → r.Issues env fits pr.cmd ∧
    (pr.zombie = true → pr.fate.outcome = .written → Fresh env fits r pr.cmd.out w.log)

theorem issued_out {gs : List Project} {p : Project} {target : Str} {cmd : Cmd}
    (h : p.Issues env fits gs target cmd) (hd : World.hasDep cmd.kind = false) :
    cmd.out = p.outPath := by
  cases h with
  | compile => cases hd
  | pch => cases hd
  | link _ _ ho => exact ho
  | ar _ _ ho => exact ho

/-- A child that writes an output is a linker or an archiver. -/
theorem Made.output_writer (h : Made (ChildOf env fits rs) w) {pr : Proc} (hpr : pr ∈ w.procs)
    {q : Project} (hw : pr.writes q.outPath = true) : World.hasDep pr.cmd.kind = false := by
  obtain ⟨⟨r, -, p, -, hi⟩, -⟩ := h.procs pr hpr
  rcases (writes_output hi hw).1 with hk | hk <;> rw [hk] <;> rfl

theorem Own.fresh {R : Rules} (h : Own env fits rs r w) (hm : Move env R w w') (q : Project)
    (hf : Fresh env fits r q.outPath w.log) : Fresh env fits r q.outPath w'.log := by
  rcases hm.log_cases with heq | ⟨e, heq, he⟩
  · rwa [heq]
  · rw [heq]
    refine hf.cons fun pr v hev hw => ?_
    subst hev
    exact (h.procs pr he.1 (h.made.output_writer he.1 hw)).1

theorem Own.move {R : Rules} (hr : r ∈ rs) (hs : Spared env rs)
    (hR : ∀ cmd, R.exec cmd → r.Issues env fits cmd) (hm : Move env R w w')
    (h : Own env fits rs r w) : Own env fits rs r w' := by
  refine ⟨h.made.move (fun cmd k fs f hc hf => ⟨⟨r, hr, hR cmd hc⟩, k, fs, hf⟩) hs.env hm,
    h.pids.move hm, fun q hq hd => ?_⟩
  rcases hm.child h.pids hq with hq | ⟨q₀, hq₀, rfl, hlog⟩ | ⟨cmd, f, hc, -, rfl, -⟩
  · obtain ⟨hi, hf⟩ := h.procs q hq hd
    refine ⟨hi, fun hz ho => ?_⟩
    obtain ⟨p, -, hp⟩ := hi
    have hout := issued_out hp hd
    rw [hout] at hf ⊢
    exact h.fresh hm p (hf hz ho)
  · obtain ⟨hi, -⟩ := h.procs q₀ hq₀ hd
    refine ⟨hi, fun _ ho => ⟨q₀, w'.snap.clock, ?_, hi⟩⟩
    rw [hlog ho, lastWrote, if_pos (by simp [Proc.writes])]
  · exact ⟨hR cmd hc, fun hz => by cases hz⟩

theorem Own.path {R : Rules} (hr : r ∈ rs) (hs : Spared env rs)
    (hR : ∀ cmd, R.exec cmd → r.Issues env fits cmd) (hp : Path env R w w')
    (h : Own env fits rs r w) : Own env fits rs r w' :=
  Moves.keeps (I := Own env fits rs r) (fun _ _ => Own.move hr hs hR) hp h

/-! ### Linkers are waited for at once -/

/-- No linker or archiver is in the table. -/
def World.Idle (w : World) : Prop := ∀ x ∈ w.children, World.hasDep x.2.1.kind = true

theorem World.Idle.same (h : w.Idle) (hs : w.Same w') : w'.Idle := by
  rw [World.Idle, hs.children]; exact h

theorem World.Idle.own (h : w.Idle) (hm : Made (ChildOf env fits rs) w) (hp : w.PidsOk) (r : Run) :
    Own env fits rs r w :=
  ⟨hm, hp, fun pr hpr hd => by
    rw [h _ (World.mem_children hpr)] at hd; cases hd⟩

/-- Compilers come and go. -/
theorem World.Idle.move {R : Rules} (hR : ∀ cmd, R.exec cmd → World.hasDep cmd.kind = true)
    (hm : Move env R w w') (h : w.Idle) : w'.Idle := by
  cases hm with
  | act ha => exact h.same (w.same_act _)
  | finish pid => exact h.same (World.same_finish pid w)
  | reap _ _ _ =>
    intro x hx
    rw [World.children_reap] at hx
    exact h x (List.mem_filter.mp hx).1
  | @start cmd hc =>
    rcases hf : w.fork env cmd with ⟨⟨pid, fate⟩, v⟩
    obtain ⟨-, -, -, -, -, ⟨-, -, hch⟩ | ⟨f, -, -, hch⟩⟩ := World.fork_cases env cmd w hf
    all_goals
      intro x hx
      simp only [hch] at hx
    · exact h x hx
    · rcases List.mem_append.mp hx with hx | hx
      · exact h x hx
      · rw [List.mem_singleton.mp hx]; exact hR cmd hc
  | aside _ _ _ => exact h
  | say _ => exact h

theorem World.Idle.path {R : Rules} (hR : ∀ cmd, R.exec cmd → World.hasDep cmd.kind = true)
    (hp : Path env R w w') (h : w.Idle) : w'.Idle :=
  Moves.keeps (I := World.Idle) (fun _ _ => World.Idle.move hR) hp h

/-- A link or an archive is over when `ExecuteCommand` returns, and a success has just written its
    output. -/
theorem Own.execute (hr : r ∈ rs) (hs : Spared env rs) (hlinks : env.Links) {cmd : Cmd}
    (hd : World.hasDep cmd.kind = false) (hi : r.Issues env fits cmd) (ho : Own env fits rs r w)
    (hidle : w.Idle) {ok : Bool} {code : ℕ} (h : executeCommand env cmd w = (ok, code, w')) :
    Own env fits rs r w' ∧ w'.Idle ∧ (code = 0 → Fresh env fits r cmd.out w'.log) := by
  obtain ⟨f, hf, hok⟩ := hlinks w.nfork cmd w.fs hd
  let R : Rules := .execs (· = cmd)
  have hR : ∀ c, R.exec c → r.Issues env fits c := fun c hc => hc ▸ hi
  obtain ⟨v, pr, hpath, hpr, hcmd, hfate, hz, hch, hq⟩ := execute_forked (R := R) ho.pids rfl hf
  rw [hq] at h
  simp only [Prod.mk.injEq] at h
  obtain ⟨-, rfl, rfl⟩ := h
  have hown : Own env fits rs r v := ho.path hr hs hR hpath
  refine ⟨hown.move (R := R) hr hs hR (.reap hpr hz (Or.inl rfl)), fun x hx => ?_, fun hcode => ?_⟩
  · rw [hch] at hx
    exact hidle x hx
  · have hwr : pr.fate.outcome = .written := by
      rw [hfate]; exact hok (by rw [Fate.ok, hcode]; rfl)
    obtain ⟨-, hfresh⟩ := hown.procs pr hpr (by rw [hcmd]; exact hd)
    rw [← hcmd]
    exact (hfresh hz hwr).cons fun q v hq => by cases hq

/-! ### The answer of `compile()` -/

/-- The output is there, and unless it was kept in this run it is a product of this run. -/
def Delivered (env : Env) (fits : Str → Str → Prop) (r : Run) (o : Str) (log : List Ev) : Prop :=
  (lastWrote o log).isSome = true ∧ (o ∉ keeps log → Fresh env fits r o log)

theorem Own.delivered {R : Rules} (h : Own env fits rs r w) (hm : Move env R w w') (q : Project)
    (hd : Delivered env fits r q.outPath w.log) : Delivered env fits r q.outPath w'.log := by
  obtain ⟨hsome, hfresh⟩ := hd
  obtain ⟨new, hlog⟩ := hm.later.log
  refine ⟨by rw [hlog]; exact lastWrote_isSome new hsome, fun hk => ?_⟩
  exact h.fresh hm q (hfresh fun hmem => hk (hm.keeps hmem))

/-- No linker is running before a project's `compile()` and none after it. -/
structure Ready (env : Env) (fits : Str → Str → Prop) (rs : List Run) (r : Run) (w : World) :
    Prop where
  own : Own env fits rs r w
  idle : w.Idle

theorem Ready.path {R : Rules} (hr : r ∈ rs) (hs : Spared env rs)
    (hR : ∀ cmd, R.exec cmd → r.Issues env fits cmd ∧ World.hasDep cmd.kind = true)
    (hp : Path env R w w') (h : Ready env fits rs r w) : Ready env fits rs r w' :=
  ⟨h.own.path hr hs (fun cmd hc => (hR cmd hc).1) hp, h.idle.path (fun cmd hc => (hR cmd hc).2) hp⟩

/-- `link` and `staticlib` keep an output that is there or build one. -/
theorem Ready.produce (hr : r ∈ rs) (hs : Spared env rs) (hlinks : env.Links) {mkCmd : St → Cmd}
    {s t : St} {ret : Bool} {p : Project} (hd : World.hasDep (mkCmd (decision env s)).kind = false)
    (hi : r.Issues env fits (mkCmd (decision env s)))
    (hout : (mkCmd (decision env s)).out = p.outPath) (hw : Ready env fits rs r s.w)
    (h : produce env mkCmd s = (ret, t)) :
    Ready env fits rs r t.w ∧ (ret = true → Delivered env fits r p.outPath t.w.log) := by
  let R : Rules := .execs fun _ => False
  have hdec : Ready env fits rs r (decision env s).w :=
    hw.path (R := R) hr hs (fun _ hc => hc.elim) (path_decision s)
  rw [Cake.produce] at h
  rw [← decision] at h
  generalize decision env s = d at h hdec hd hi hout
  split at h
  · simp only [Prod.mk.injEq] at h
    obtain ⟨rfl, rfl⟩ := h
    exact ⟨hdec, fun hf => by cases hf⟩
  · split at h
    · rename_i hup
      simp only [Prod.mk.injEq] at h
      obtain ⟨rfl, rfl⟩ := h
      have hsay : Move env R d.w (d.w.say (.kept (mkCmd d) d.w.snap)) := .say ⟨rfl, trivial⟩
      refine ⟨hdec.path (R := R) hr hs (fun _ hc => hc.elim) (.single hsay), fun _ => ⟨?_, ?_⟩⟩
      · obtain ⟨-, f, hf, -⟩ := upToDate_fresh hup
        rw [hout] at hf
        obtain ⟨pr, now, hl, -⟩ := hdec.own.made.owned _ (product_outPath p) f hf
        exact lastWrote_isSome [_] (by rw [hl]; rfl)
      · intro hk
        exact absurd (by rw [← hout]; exact List.mem_cons_self ..) hk
    · rcases hq : executeCommand env (mkCmd d) d.w with ⟨ok, code, w'⟩
      obtain ⟨hown, hidle, hfresh⟩ := hdec.own.execute hr hs hlinks hd hi hdec.idle hq
      obtain ⟨rfl, hcode⟩ := buildOutput_answer hq h
      refine ⟨⟨hown, hidle⟩, fun hret => ?_⟩
      have hf := hfresh (hcode hret)
      rw [hout] at hf
      obtain ⟨pr, now, hl, -⟩ := id hf
      exact ⟨by rw [hl]; rfl, fun _ => hf⟩

/-- A project whose `compile()` answers true has its output. -/
theorem Ready.compile (hr : r ∈ rs) (hs : Spared env rs) (hlinks : env.Links) (henv : env.Lists fits)
    {p : Project} (hp : p ∈ r.projects) (hl : w.Lists fits) (ht : w.target = r.target)
    (hw : Ready env fits rs r w) {ret : Bool} {t : St} (h : p.compile env r.projects w = (ret, t)) :
    Ready env fits rs r t.w ∧ (ret = true → Delivered env fits r p.outPath t.w.log) := by
  let R : Rules := .execs fun cmd => r.Issues env fits cmd ∧ World.hasDep cmd.kind = true
  cases hpkg : pkgConfig env p.pkgdepends with
  | none =>
    rw [Project.compile] at h
    dsimp only at h
    simp only [hpkg, Prod.mk.injEq] at h
    obtain ⟨rfl, rfl⟩ := h
    have hb : Path env R w (newBuild env w).w := Path.build trivial .refl
    exact ⟨hw.path hr hs (fun _ hc => hc) hb, fun hf => by cases hf⟩
  | some cl =>
    obtain ⟨c, l⟩ := cl
    rw [p.compile_eq env r.projects w hpkg] at h
    have hafter : Path env R w
        (p.after env (p.flagText c) (p.sources env (p.flagText c) w).length w).w :=
      (path_after (R := R) henv hl hpkg (fun cmd hi hd => ⟨⟨p, hp, ht ▸ hi⟩, hd⟩)
        (fun _ _ _ => trivial) _).build trivial
    have hobj : ∀ o ∈ (p.ready env (p.flagText c) w).b.linklist, p.isObject fits r.target o :=
      ht ▸ Project.ready_objects henv hl
    have hready := hw.path hr hs (fun _ hc => hc) hafter
    rw [Project.ready] at hobj
    generalize p.after env (p.flagText c) (p.sources env (p.flagText c) w).length w = s
      at hobj hready h
    rw [Project.outputStep] at h
    split at h
    · simp only [Prod.mk.injEq] at h
      obtain ⟨rfl, rfl⟩ := h
      exact ⟨hready, fun hf => by cases hf⟩
    · cases htype : p.type with
      | program =>
        have ho : outName p.outTarget = p.outPath := by simp only [Project.outPath, htype]
        simp only [htype] at h
        exact Ready.produce hr hs hlinks rfl ⟨p, hp, .link htype rfl ho hobj rfl⟩ ho hready h
      | staticLibrary =>
        have ho : libName p.outTarget = p.outPath := by simp only [Project.outPath, htype]
        simp only [htype] at h
        exact Ready.produce hr hs hlinks rfl ⟨p, hp, .ar htype rfl ho hobj rfl⟩ ho hready h
      | sharedLibrary =>
        simp only [htype, Prod.mk.injEq] at h
        obtain ⟨rfl, rfl⟩ := h
        exact ⟨hready, fun hf => by cases hf⟩

/-! ### Runs -/

theorem Ready.leave (h : Ready env fits rs r w) (i : ℕ) (ret : Bool) :
    Ready env fits rs r (w.say (.leave i ret)) := by
  obtain ⟨⟨hmade, hpids, hprocs⟩, hidle⟩ := h
  exact ⟨⟨hmade.say (by simp), ⟨hpids.nodup, hpids.bound⟩, hprocs⟩, hidle⟩

/-- Every project whose `compile()` has answered true in this run has its output. -/
def AllDelivered (env : Env) (fits : Str → Str → Prop) (r : Run) (log : List Ev) : Prop :=
  ∀ i p, (i, true) ∈ returns log → r.projects[i]? = some p → Delivered env fits r p.outPath log

theorem ready_mainLoop (hr : r ∈ rs) (hs : Spared env rs) (hlinks : env.Links)
    (henv : env.Lists fits) (hl : w.Lists fits) (ht : w.target = r.target)
    (hw : Ready env fits rs r w) (hret : returns w.log = []) :
    Ready env fits rs r (mainLoop env r.pre r.projects w) ∧
      AllDelivered env fits r (mainLoop env r.pre r.projects w).log := by
  have h := mainLoop_induct env r.pre r.projects (w := w)
    (P := fun _ v => Ready env fits rs r v ∧ AllDelivered env fits r v.log ∧ v.Lists fits ∧
      v.target = r.target) ⟨hw, fun i p hi => by simp [hret] at hi, hl, ht⟩ ?_
  · exact ⟨h.1, h.2.1⟩
  · rintro i p v hp ⟨hready, hall, hlv, htv⟩
    unfold mainStep
    split
    · rcases hc : p.compile env r.projects v with ⟨ret, t⟩
      have hmem := List.mem_of_getElem? hp
      obtain ⟨hready', hdel⟩ := hready.compile hr hs hlinks henv hmem hlv htv hc
      have hpath : Path env (p.rules env fits r.projects v.target) v
          (p.compile env r.projects v).2.w := path_compile_rules henv hlv
      rw [hc, htv] at hpath
      -- what was delivered before this project stays so while it is compiled
      have hkeep := Moves.keeps (I := fun u => Own env fits rs r u ∧ AllDelivered env fits r u.log)
        (fun u u' hm ⟨hu, hau⟩ => ⟨hu.move hr hs (fun cmd hi => ⟨p, hmem, hi⟩) hm,
          fun j q hj hq => hu.delivered hm q (hau j q (hm.returns ▸ hj) hq)⟩) hpath ⟨hready.own, hall⟩
      refine ⟨hready'.leave i ret, fun j q hj hq => ?_, hpath.lists henv hlv,
        hpath.later.target.trans htv⟩
      rcases List.mem_cons.mp hj with heq | hj
      · simp only [Prod.mk.injEq] at heq
        obtain ⟨rfl, rfl⟩ := heq
        obtain rfl : p = q := Option.some.inj (hp.symm.trans hq)
        exact hdel rfl
      · exact hkeep.2 j q hj hq
    · exact ⟨hready, hall, hlv, htv⟩

/-- Between two runs no linker is left, and what the last one has answered true for is delivered. -/
theorem idle_history (hs : Spared env rs) (hlinks : env.Links) : ∀ (rs' : List Run) (w : World),
    (∀ r ∈ rs', r ∈ rs) → Listings env rs w fits → Made (ChildOf env fits rs) w → w.PidsOk → w.Idle →
      Made (ChildOf env fits rs) (history env rs' w) ∧ (history env rs' w).PidsOk ∧
        (history env rs' w).Idle ∧
        ∀ r, rs'.getLast? = some r → AllDelivered env fits r (history env rs' w).log
  | [], _, _, _, hm, hp, hi => ⟨hm, hp, hi, by simp⟩
  | r :: rs', w, hrs, hl, hm, hp, hi => by
    obtain ⟨hr, hrs⟩ := List.forall_mem_cons.mp hrs
    obtain ⟨hb, hlb⟩ := lists_before env hr hl.before r.before w (fun _ h => h) hl.start
    have hmb : Made (ChildOf env fits rs) (r.before.foldl World.act w) :=
      Moves.keeps (I := Made (ChildOf env fits rs)) (fun _ _ => Made.step hs) hb hm
    have hpb : (r.before.foldl World.act w).PidsOk := hp.same (World.same_acts _ _)
    have hstart := hmb.step hs (.start hr)
    have hib := hi.same (World.same_acts r.before w)
    have his : (startRun r.target r.rebuild r.makefile (r.before.foldl World.act w)).Idle := hib
    have hls : (startRun r.target r.rebuild r.makefile (r.before.foldl World.act w)).Lists fits := hlb
    have hready := Ready.mk (his.own hstart ⟨hpb.nodup, hpb.bound⟩ r) his
    obtain ⟨⟨hown, hidle⟩, hall⟩ := ready_mainLoop hr hs hlinks hl.env hls rfl hready rfl
    obtain ⟨hm', hp', hi', hlast⟩ := idle_history hs hlinks rs' (r.exec env w) hrs
      ⟨hl.env, hl.before, (trace_run hr hl).2⟩ hown.made hown.pids hidle
    refine ⟨hm', hp', hi', fun r' hr' => ?_⟩
    cases rs' with
    | nil =>
      obtain rfl : r = r' := by simpa using hr'
      exact hall
    | cons a rs' => exact hlast r' (by simpa using hr')

/-- The file was last written by a link or an archive, of objects that the target has of such sources. -/
def MadeFor (source : Str → Prop) (target o : Str) (log : List Ev) : Prop :=
  ∃ pr now, lastWrote o log = some (pr, now) ∧ (pr.cmd.kind = .link ∨ pr.cmd.kind = .ar) ∧
    ∀ x ∈ pr.cmd.ins, (∃ f, source f ∧ x = mkobjname (objdir target) f) ∧
      ('.' ∉ target → objdir target <+: x)

theorem madeFor {o : Str} {log : List Ev} {pr : Proc} {now : ℕ} {p q : Project}
    (hl : lastWrote o log = some (pr, now)) (ho : o = q.outPath)
    (hi : p.Issues env fits r.projects r.target pr.cmd) :
    MadeFor (p.hasSource fits) r.target o log ∧ p.outPath = o := by
  obtain ⟨-, hwr⟩ := lastWrote_mem hl
  rw [ho] at hwr
  obtain ⟨hk, hp, -, hins⟩ := writes_output hi hwr
  refine ⟨⟨pr, now, hl, hk, fun x hx => ?_⟩, hp.trans ho.symm⟩
  obtain ⟨f, hf, rfl⟩ := hins x hx
  exact ⟨⟨f, hf, rfl⟩, fun hdot => mkobjname_in hdot f⟩

/-- After a run in which a project's `compile()` answered true, its output was last written by a link
    or an archive over the objects that the target of some run has of the sources of a project of it. It
    is the target of this run if the output was not kept, and if no run for another target has a project
    with that output path. -/
theorem outputs_of_target (hlinks : env.Links) (hs : Spared env (rs ++ [r]))
    (hl : Listings env (rs ++ [r]) w fits) (hw : w.Clean) {i : ℕ} {p : Project}
    (hp : r.projects[i]? = some p) (hret : (i, true) ∈ returns (history env (rs ++ [r]) w).log) :
    ∃ r' ∈ rs ++ [r], (∃ q ∈ r'.projects, q.outPath = p.outPath ∧
      MadeFor (q.hasSource fits) r'.target p.outPath (history env (rs ++ [r]) w).log) ∧
      ((p.outPath ∉ keeps (history env (rs ++ [r]) w).log ∨
        ∀ r' ∈ rs, ∀ q ∈ r'.projects, q.outPath = p.outPath → r'.target = r.target) →
        r'.target = r.target) := by
  have hidle : w.Idle := by
    intro x hx
    rw [World.children, hw.procs] at hx
    exact absurd hx List.not_mem_nil
  obtain ⟨hm, -, -, hall⟩ := idle_history hs hlinks (rs ++ [r]) w (fun _ h => h) hl hw.made hw.pids
    hidle
  obtain ⟨hsome, hfresh⟩ := hall r (by simp) i p hret hp
  by_cases hk : p.outPath ∈ keeps (history env (rs ++ [r]) w).log
  · obtain ⟨⟨pr, now⟩, hlast⟩ := Option.isSome_iff_exists.mp hsome
    obtain ⟨⟨v, hmem, -⟩, -⟩ := lastWrote_mem hlast
    obtain ⟨⟨⟨r', hr', q, hq, hi⟩, -⟩, -⟩ := hm.log pr v hmem
    obtain ⟨hmade, hout⟩ := madeFor hlast rfl hi
    refine ⟨r', hr', ⟨q, hq, hout, hmade⟩, fun h => ?_⟩
    rcases List.mem_append.mp hr' with hr' | hr'
    · exact h.resolve_left (not_not.mpr hk) r' hr' q hq hout
    · rw [List.mem_singleton.mp hr']
  · obtain ⟨pr, now, hlast, q, hq, hi⟩ := hfresh hk
    obtain ⟨hmade, hout⟩ := madeFor hlast rfl hi
    exact ⟨r, by simp, ⟨q, hq, hout, hmade⟩, fun _ => rfl⟩

/-- Two runs for one target: the second keeps the program of the first. -/
theorem outputs_of_target_run : ∃ source, MadeFor source "debug".toList "bin/prog".toList
    (history Env.oneSource [oneProgram "debug", oneProgram "debug"] World.oneSource).log := by
  have hb : ∀ r ∈ [oneProgram "debug"] ++ [oneProgram "debug"], r.before = [] := by simp [oneProgram]
  have hlinks : Env.oneSource.Links := fun _ _ _ _ => ⟨_, rfl, fun _ => rfl⟩
  obtain ⟨r', -, ⟨q, -, -, hmade⟩, htarget⟩ := outputs_of_target (r := oneProgram "debug") (i := 0) hlinks
    (oneSource_spared _ hb) (oneSource_listings _ hb) oneSource_clean rfl (by decide +kernel)
  have hr' : r'.target = "debug".toList := htarget (Or.inr fun r hr _ _ _ => by
    rw [List.mem_singleton.mp hr])
  rw [hr'] at hmade
  exact ⟨_, hmade⟩

/-- debug, release, debug: the third run answers true and keeps the program of the second. -/
theorem output_of_other_target :
    let log := (history Env.oneSource [oneProgram "debug", oneProgram "release", oneProgram "debug"]
      World.oneSource).log
    (0, true) ∈ returns log ∧ ¬ MadeFor (fun _ => True) "debug".toList "bin/prog".toList log := by
  refine ⟨by decide +kernel, ?_⟩
  rintro ⟨pr, now, hl, -, hins⟩
  have hlast : (lastWrote "bin/prog".toList (history Env.oneSource
      [oneProgram "debug", oneProgram "release", oneProgram "debug"] World.oneSource).log).map
      (fun x => x.1.cmd.ins) = some ["obj/release/a.o".toList] := by decide +kernel
  rw [hl] at hlast
  simp only [Option.map_some, Option.some.injEq] at hlast
  rw [hlast] at hins
  exact absurd ((hins _ (List.mem_singleton.mpr rfl)).2 (by decide)) (by decide)

end Cake
