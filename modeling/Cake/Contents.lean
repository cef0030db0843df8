import Cake.Kept
import Cake.Lib.KeepFirst
import Cake.Members

/-! An incremental build and a clean one.

    A clean build fills an output with the objects of the files that the patterns match. An incremental
    one does so when it links. `ar rcs` also leaves the old members whose names the objects do not have.
    And an output is kept by its date and the number of skipped sources alone: it then contains what it
    was filled with when it was last written, in an earlier run, and an object whose source has come
    since is missing only while nothing that its dependency file lists is newer than the output.

        last written at T ─┬─ a link ──▶ the objects of the files matched at T
                           └─ ar ──────▶ these, and the members before T whose names they do not have -/

namespace Cake

variable {env : Env} {fits : Str → Str → Prop} {rs : List Run} {r : Run} {gs : List Project}
  {p : Project} {w w' : World} {s : St} {c : Str} {l : List Str} {i : ℕ}

namespace Project

/-- The files that `compile()` called in `w` finds under the patterns of `m_files`. -/
def matched (env : Env) (p : Project) (w : World) : List Str :=
  match pkgConfig env p.pkgdepends with
  | none => []
  | some (cflags, _) => p.sources env (p.flagText cflags) w

/-- The objects of these files: what a clean build would fill the output with. -/
def clean (env : Env) (p : Project) (w : World) : List Str :=
  (p.matched env w).map (mkobjname (objdir w.target))

/-- The files there are when it is the turn of source `k`. -/
def turn (env : Env) (p : Project) (w : World) (k : ℕ) : FS :=
  match pkgConfig env p.pkgdepends with
  | none => w.fs
  | some (cflags, _) => ((p.after env (p.flagText cflags) k w).w.yield env).fs

/-- When it was the turn of source `k`, nothing that its dependency file lists was newer than the file. -/
def NoNewer (env : Env) (p : Project) (w : World) (file : File) (k : ℕ) (f : Str) : Prop :=
  ∃ tokens, listed (p.turn env w k) (mkdepname (objdir w.target) f) = some tokens ∧
    ∀ t ∈ tokens, mtimeOf (p.turn env w k) t ≤ file.mtime

end Project

/-! ### The count of skipped sources -/

/-- `nskipped` counts the sources that were skipped. -/
def Tallied (s : St) : Prop := s.b.nskipped = (skips s.w.log).length

theorem harvest_nskipped (ok : Bool) (code : ℕ) (o : Str) (b : Build) :
    (harvest ok code o b).nskipped = b.nskipped := by
  rw [harvest]
  split
  · rfl
  · split <;> rfl

theorem Tallied.same (h : Tallied s) (hw : skips w.log = skips s.w.log) :
    Tallied { s with w := w } := by
  rw [Tallied, hw]
  exact h

theorem Tallied.harvest (h : Tallied s) (hw : skips w.log = skips s.w.log) (ok : Bool) (code : ℕ)
    (o : Str) : Tallied ⟨Cake.harvest ok code o s.b, w⟩ := by
  rw [Tallied, harvest_nskipped, hw]
  exact h

/-- Every way of working through the slots keeps the count. -/
theorem Tallied.discipline (env : Env) : Discipline env (fun _ _ s => Tallied s) where
  dropFree h _ := h
  addFree h _ := h
  start h _ := h.same (startJob_log env _ _).skips
  query h _ hq := ⟨fun _ => h.harvest (query_log hq).skips .., fun _ => h.same (query_log hq).skips⟩
  wait h _ hq := h.harvest (wait_log hq).skips ..
  same h hw := h.same hw.skips
  setJobs h _ := h
  count h := h
  skip h := congrArg (· + 1) h

theorem Tallied.buildPch {cmd : Cmd} (h : Tallied s) : Tallied (buildPch env cmd s) := by
  rw [Cake.buildPch]
  rcases hq : executeCommand env cmd s.w with ⟨ok, code, w⟩
  have hskips := (execute_log hq).skips
  dsimp only
  split
  · exact h.same hskips
  · split <;> exact h.same hskips

theorem Tallied.makePch (pch cflags : Str) (cpp : Bool) (h : Tallied s) :
    Tallied (makePch env pch cflags cpp s) :=
  makePch_keeps (P := Tallied) (fun _ _ => h.same (World.same_yield env s.w).skips) fun _ ht => ht.buildPch

/-- When nothing has failed and the numbers say that there were no recompiles, every source was skipped,
    and nothing that the sources' dependency files listed was newer than `newest_time` is now. -/
theorem Project.all_seen (hn : (p.ready env (p.flagText c) w).b.nfailed = 0)
    (hlen : (p.ready env (p.flagText c) w).b.linklist.length =
      (p.ready env (p.flagText c) w).b.nskipped)
    {k : ℕ} {f : Str} (hk : (p.sources env (p.flagText c) w)[k]? = some f) :
    ∃ tokens, listed ((p.after env (p.flagText c) k w).w.yield env).fs
        (mkdepname (objdir w.target) f) = some tokens ∧
      ∀ t ∈ tokens, mtimeOf ((p.after env (p.flagText c) k w).w.yield env).fs t ≤
        (p.ready env (p.flagText c) w).w.newestTime := by
  obtain ⟨htally, -⟩ := p.ready_keeps (Tallied.discipline env) (p.flagText c) w rfl
    fun h => Tallied.makePch h _ _ rfl
  have hlinked := (p.linked_objects _ w hn).length_eq
  have hasked := congrArg Multiset.card (ready_asked env p (p.flagText c) w)
  rw [List.length_map] at hlinked
  rw [asked, Multiset.card_add, Multiset.coe_card, Multiset.coe_card, Multiset.coe_card,
    List.length_map, List.length_map] at hasked
  rw [Tallied] at htally
  -- as many sources were skipped as there are
  have hnone : started (p.ready env (p.flagText c) w).w.log = [] :=
    List.length_eq_zero_iff.mp (by omega)
  exact ready_seen hnone hk

/-! ### One build -/

theorem Path.same_keeps {R : Rules} (hR : ∀ cmd v, ¬ R.kept cmd v) (h : Path env R w w') :
    keeps w'.log = keeps w.log := by
  refine Moves.keeps (I := fun v => keeps v.log = keeps w.log) (fun u v hm hu => ?_) h rfl
  rcases hm.log_cases with heq | ⟨e, heq, he⟩
  · rw [heq]
    exact hu
  · rw [heq]
    cases e with
    | run v => exact he.elim
    | kept cmd v => exact (hR cmd _ he.2).elim
    | _ => exact hu

/-- What a build may do before it decides about its output. -/
def Project.works (env : Env) (fits : Str → Str → Prop) (gs : List Project) (p : Project)
    (target : Str) : Rules :=
  ⟨fun cmd => p.Issues env fits gs target cmd ∧ World.hasDep cmd.kind = true,
    p.Skips env fits target, fun _ _ => False, False⟩

/-- Up to the decision a build leaves all outputs alone. -/
theorem Ready.works (hs : Spared env rs) (hw : Ready env fits rs r w) {v : World}
    (hpath : Path env (p.works env fits gs w.target) (newBuild env w).w v) (q : Project) :
    Unwritten q.outPath v ∧ SameOutput q.outPath w v ∧ keeps v.log = keeps w.log := by
  obtain ⟨hpids, hprocs⟩ := hw.unwritten q
  have hnew : Unwritten q.outPath (newBuild env w).w := ⟨⟨hpids.nodup, hpids.bound⟩, hprocs⟩
  obtain ⟨hv, hsame⟩ := hnew.path hs.env (avoid_dep q fun _ hc => hc) (product_outPath q) hpath
  have hkeeps : keeps v.log = keeps (newBuild env w).w.log := hpath.same_keeps fun _ _ hk => hk
  exact ⟨hv, ⟨hsame.file, hsame.members, hsame.writes⟩, hkeeps⟩

/-- The object is in the project's output when a command with the objects `objs` has written it, having
    been started in `w`. -/
def Project.filled (p : Project) (objs : List Str) (w : World) (x : Str) : Prop :=
  x ∈ objs ∨ (p.type = .staticLibrary ∧
    x ∈ Archive.rest memberName objs.eraseDups (members p.outPath w.log))

/-- The order of the objects does not matter. -/
theorem Project.filled_perm {objs objs' : List Str} (h : objs.Perm objs') {x : Str} :
    p.filled objs w x ↔ p.filled objs' w x := by
  have hdups : objs.eraseDups.Perm objs'.eraseDups := by
    rw [List.perm_ext_iff_of_nodup (KeepFirst.eraseDups_nodup _) (KeepFirst.eraseDups_nodup _)]
    intro a
    rw [List.mem_eraseDups, List.mem_eraseDups, h.mem_iff]
  rw [Project.filled, Project.filled, h.mem_iff, Archive.rest_perm memberName hdups]

/-- The output has been written once, with these objects. -/
structure Refilled (p : Project) (objs : List Str) (w w' : World) : Prop where
  members : ∀ x, x ∈ members p.outPath w'.log ↔ p.filled objs w x
  writes : writes p.outPath w'.log = writes p.outPath w.log + 1

theorem Refilled.of_same {objs : List Str} {v : World} (hsame : SameOutput p.outPath w v)
    (h : Refilled p objs v w') : Refilled p objs w w' := by
  refine ⟨fun x => ?_, by rw [h.writes, hsame.writes]⟩
  rw [h.members, Project.filled, Project.filled, hsame.members]

/-- What a command of the project may do to its output. -/
inductive Effect (p : Project) (objs : List Str) (w w' : World) : Prop
  | same (h : SameOutput p.outPath w w')
  | gone (hfile : w'.fs p.outPath = none) (hmem : members p.outPath w'.log = [])
  | filled (h : Refilled p objs w w')

/-- What `link` and `staticlib` do to the output, having come to state `d`. -/
inductive Produced (p : Project) (d : St) (ret : Bool) (w : World) : Prop
  | failed (hn : d.b.nfailed ≠ 0) (hret : ret = false) (hw : w = d.w)
  | kept {cmd : Cmd} (hn : d.b.nfailed = 0) (hup : upToDate d p.outPath = true)
      (hout : cmd.out = p.outPath) (hw : w = d.w.say (.kept cmd d.w.snap))
  | built (hn : d.b.nfailed = 0) (hkeeps : keeps w.log = keeps d.w.log)
      (heffect : Effect p d.b.linklist d.w w) (hfull : ret = true → Refilled p d.b.linklist d.w w)

theorem avoid_other {cmd : Cmd} (hd : World.hasDep cmd.kind = false) {o : Str} (ho : cmd.out ≠ o) :
    (Rules.mk (· = cmd) (fun _ _ => False) (fun _ _ => False) False).Avoid o := by
  rintro c rfl pr rfl
  simp [Proc.writes, hd, ho]

theorem produce_members (hs : Spared env rs) (hlinks : env.Links) {mkCmd : St → Cmd} {s t : St}
    {ret : Bool} (hd : World.hasDep (mkCmd (decision env s)).kind = false)
    (hkind : (mkCmd (decision env s)).kind = .ar ↔ p.type = .staticLibrary)
    (hout : (mkCmd (decision env s)).out = p.outPath)
    (hins : (mkCmd (decision env s)).ins = (decision env s).b.linklist)
    (hw : ∀ q : Project, Unwritten q.outPath (decision env s).w)
    (h : produce env mkCmd s = (ret, t)) :
    Produced p (decision env s) ret t.w ∧
      ∀ q : Project, q.outPath ≠ p.outPath → SameOutput q.outPath (decision env s).w t.w := by
  rw [produce] at h
  rw [← decision] at h
  generalize decision env s = d at h hd hkind hout hins hw
  split at h
  · rename_i hn
    simp only [Prod.mk.injEq] at h
    obtain ⟨rfl, rfl⟩ := h
    exact ⟨.failed hn rfl rfl, fun q _ => .refl ..⟩
  · rename_i hn
    replace hn := not_not.mp hn
    split at h
    · rename_i hup
      simp only [Prod.mk.injEq] at h
      obtain ⟨rfl, rfl⟩ := h
      exact ⟨.kept hn (hout ▸ hup) hout rfl, fun q _ => ⟨rfl, rfl, rfl⟩⟩
    · obtain ⟨f, hf, hok⟩ := hlinks d.w.nfork (mkCmd d) d.w.fs hd
      rcases hq : executeCommand env (mkCmd d) d.w with ⟨ok, code, w'⟩
      have hbecame := execute_output hs.env (hout ▸ product_outPath p) (hout ▸ hw p) hf hq
      obtain ⟨rfl, hcode⟩ := buildOutput_answer hq h
      have hpath : Path env ⟨(· = mkCmd d), fun _ _ => False, fun _ _ => False, False⟩ d.w t.w :=
        path_execute rfl hq
      obtain ⟨v, pr, -, -, -, -, -, -, hrun⟩ := execute_waits .all (hw p).pids hf
      rw [hq] at hrun
      simp only [Prod.mk.injEq] at hrun
      have hfilled : ∀ {a : Outcome}, Became (mkCmd d) d.w t.w a → a = .written →
          Refilled p d.b.linklist d.w t.w := by
        rintro a hb rfl
        cases hb with
        | written hmem hwrites =>
          rw [hout] at hmem hwrites
          refine ⟨fun x => ?_, hwrites⟩
          rw [hmem, Cmd.mem_leaves, hins, hkind, Project.filled]
      refine ⟨.built hn (hpath.same_keeps fun _ _ hk => hk) ?_ fun hret => ?_, fun q hne => ?_⟩
      · generalize f.outcome = a at hbecame
        cases hbecame with
        | left hsame => exact .same (hout ▸ hsame)
        | removed hfile hmem => exact .gone (hout ▸ hfile) (hout ▸ hmem)
        | written hmem hwrites => exact .filled (hfilled (.written hmem hwrites) rfl)
      · exact hfilled hbecame (hok (by rw [Fate.ok, ← hrun.2.1, hcode hret]; rfl))
      · exact ((hw q).path hs.env (avoid_other hd (hout ▸ hne.symm)) (product_outPath q) hpath).2

/-- The last step of `compile()` for a project that has an output. -/
theorem Project.output_members (p : Project) (hs : Spared env rs) (hlinks : env.Links)
    (hno : p.outTarget ≠ [] ∧ p.type ≠ .sharedLibrary) {ldflags : Str} {s t : St} {ret : Bool}
    (hw : ∀ q : Project, Unwritten q.outPath (decision env s).w)
    (h : p.outputStep env gs ldflags l s = (ret, t)) :
    Produced p (decision env s) ret t.w ∧
      ∀ q : Project, q.outPath ≠ p.outPath → SameOutput q.outPath (decision env s).w t.w := by
  rw [Project.outputStep, if_neg (by simpa using hno.1)] at h
  cases htype : p.type with
  | program =>
    simp only [htype] at h
    refine produce_members hs hlinks rfl ?_ ?_ rfl hw h
    · rw [htype]
      exact show Kind.link = .ar ↔ ProjectType.program = .staticLibrary by decide
    · rw [Project.outPath, htype]
      rfl
  | staticLibrary =>
    simp only [htype] at h
    refine produce_members hs hlinks rfl ?_ ?_ rfl hw h
    · rw [htype]
      exact show Kind.ar = .ar ↔ ProjectType.staticLibrary = .staticLibrary by decide
    · rw [Project.outPath, htype]
      rfl
  | sharedLibrary => exact absurd htype hno.2

/-- What a project's `compile()` that was called in `w` does to its output: when the answer is true, it
    fills the output with the objects of the sources or keeps it. -/
structure Compiled (env : Env) (p : Project) (w : World) (ret : Bool) (w' : World) : Prop where
  noted : keeps w'.log = keeps w.log ∨ keeps w'.log = p.outPath :: keeps w.log
  effect : Effect p (p.clean env w) w w'
  ans : ret = true →
    (keeps w'.log = keeps w.log ∧ Refilled p (p.clean env w) w w') ∨
      (keeps w'.log = p.outPath :: keeps w.log ∧ SameOutput p.outPath w w' ∧
        ∃ file, w'.fs p.outPath = some file ∧
          ∀ k f, (p.matched env w)[k]? = some f → p.NoNewer env w file k f)

/-- A build that comes to no decision. -/
theorem Compiled.undecided (hk : keeps w'.log = keeps w.log) (h : SameOutput p.outPath w w') :
    Compiled env p w false w' :=
  ⟨Or.inl hk, .same h, fun hf => by cases hf⟩

theorem Produced.compiled {ret : Bool} (hpkg : pkgConfig env p.pkgdepends = some (c, l))
    (h : Produced p (p.ready env (p.flagText c) w) ret w')
    (hsame : SameOutput p.outPath w (p.ready env (p.flagText c) w).w)
    (hkeeps : keeps (p.ready env (p.flagText c) w).w.log = keeps w.log) : Compiled env p w ret w' := by
  have hmatched : p.matched env w = p.sources env (p.flagText c) w := by rw [Project.matched, hpkg]
  have hturn : ∀ k, p.turn env w k = ((p.after env (p.flagText c) k w).w.yield env).fs := fun k => by
    rw [Project.turn, hpkg]
  cases h with
  | failed hn hret hw =>
    subst hret hw
    exact .undecided hkeeps hsame
  | @kept cmd hn hup hout hw =>
    obtain ⟨hlen, file, hfile, -, hnewest⟩ := upToDate_fresh hup
    subst hw
    have hnow : keeps (.kept cmd (p.ready env (p.flagText c) w).w.snap ::
        (p.ready env (p.flagText c) w).w.log) = p.outPath :: keeps w.log := by
      rw [keeps, hout, hkeeps]
    have hkept : SameOutput p.outPath w
        ((p.ready env (p.flagText c) w).w.say (.kept cmd (p.ready env (p.flagText c) w).w.snap)) :=
      hsame.trans ⟨rfl, rfl, rfl⟩
    refine ⟨Or.inr hnow, .same hkept, fun _ => Or.inr ⟨hnow, hkept, file, hfile, ?_⟩⟩
    · intro k f hk
      rw [hmatched] at hk
      obtain ⟨tokens, hl, hle⟩ := Project.all_seen hn hlen hk
      rw [Project.NoNewer, hturn]
      exact ⟨tokens, hl, fun t ht => (hle t ht).trans hnewest⟩
  | built hn hk heffect hfull =>
    have hperm : (p.ready env (p.flagText c) w).b.linklist.Perm (p.clean env w) := by
      rw [Project.clean, hmatched]
      exact p.linked_objects _ w hn
    have hclean : ∀ {v v' : World}, Refilled p (p.ready env (p.flagText c) w).b.linklist v v' →
        Refilled p (p.clean env w) v v' := fun h =>
      ⟨fun x => (h.members x).trans (Project.filled_perm hperm), h.writes⟩
    refine ⟨Or.inl (hk.trans hkeeps), ?_, fun hret => Or.inl ⟨hk.trans hkeeps, ?_⟩⟩
    · cases heffect with
      | same h => exact .same (hsame.trans h)
      | gone hfile hmem => exact .gone hfile hmem
      | filled h => exact .filled ((hclean h).of_same hsame)
    · exact (hclean (hfull hret)).of_same hsame

/-- One call of `compile()`: its own output, and those of the others. -/
theorem Ready.compile_members (hs : Spared env rs) (hlinks : env.Links) (henv : env.Lists fits)
    (hl : w.Lists fits) (hw : Ready env fits rs r w) {ret : Bool} {t : St}
    (h : p.compile env gs w = (ret, t)) :
    Compiled env p w ret t.w ∧ (∀ q : Project, q.outPath ≠ p.outPath → SameOutput q.outPath w t.w) := by
  cases hpkg : pkgConfig env p.pkgdepends with
  | none =>
    rw [Project.compile] at h
    simp only [hpkg, Prod.mk.injEq] at h
    obtain ⟨rfl, rfl⟩ := h
    exact ⟨.undecided rfl ⟨rfl, rfl, rfl⟩, fun q _ => ⟨rfl, rfl, rfl⟩⟩
  | some cl =>
    obtain ⟨c, l⟩ := cl
    have hafter : Path env (p.works env fits gs w.target) (newBuild env w).w
        (p.after env (p.flagText c) (p.sources env (p.flagText c) w).length w).w :=
      path_after (R := p.works env fits gs w.target) henv hl hpkg (fun _ hi hd => ⟨hi, hd⟩)
        (fun _ _ h => h) _
    by_cases hno : p.outTarget ≠ [] ∧ p.type ≠ .sharedLibrary
    · have hready := fun q => hw.works hs (hafter.trans (path_decision _)) q
      rw [← Project.ready] at hready
      have hfree := fun q => (hready q).1
      rw [p.compile_eq env gs w hpkg] at h
      obtain ⟨hprod, hothers⟩ := p.output_members hs hlinks hno hfree h
      rw [← Project.ready] at hprod hothers
      obtain ⟨-, hsame, hkeeps⟩ := hready p
      exact ⟨hprod.compiled hpkg hsame hkeeps, fun q hne => (hready q).2.1.trans (hothers q hne)⟩
    · rw [p.compile_unnamed hpkg hno] at h
      simp only [Prod.mk.injEq] at h
      obtain ⟨rfl, rfl⟩ := h
      obtain ⟨-, hsame, hkeeps⟩ := hw.works hs hafter p
      exact ⟨.undecided hkeeps hsame, fun q _ => (hw.works hs hafter q).2.1⟩

/-! ### One run -/

/-- The world after the first `i` projects of the run. -/
def Run.upTo (env : Env) (r : Run) (i : ℕ) (w : World) : World :=
  (r.projects.zipIdx.take i).foldl (mainStep env r.pre r.projects)
    (startRun r.target r.rebuild r.makefile (r.before.foldl World.act w))

theorem Run.upTo_succ (w : World) (hp : r.projects[i]? = some p) :
    r.upTo env (i + 1) w = mainStep env r.pre r.projects (r.upTo env i w) (p, i) := by
  have hget : r.projects.zipIdx[i]? = some (p, i) := by
    rw [List.getElem?_zipIdx, hp, Option.map_some, Nat.zero_add]
  rw [Run.upTo, List.take_add_one, hget, List.foldl_append]
  rfl

theorem Run.upTo_end (w : World) (hp : r.projects[i]? = none) :
    r.upTo env (i + 1) w = r.upTo env i w := by
  have hlen : r.projects.zipIdx.length ≤ i := by
    rw [List.length_zipIdx]
    exact List.getElem?_eq_none_iff.mp hp
  rw [Run.upTo, Run.upTo, List.take_of_length_le hlen, List.take_of_length_le (hlen.trans (Nat.le_succ i))]

theorem Run.exec_eq (env : Env) (r : Run) (w : World) :
    r.exec env w = r.upTo env r.projects.length w := by
  rw [Run.exec, mainLoop, Run.upTo, List.take_of_length_le (by rw [List.length_zipIdx])]

theorem Unwritten.act {a : Act} (ha : a.Spares) {o : Str} (ho : isProduct o = true)
    (h : Unwritten o w) : Unwritten o (w.act a) ∧ SameOutput o w (w.act a) := by
  have hlog : members o (w.act a).log = members o w.log ∧ writes o (w.act a).log = writes o w.log := by
    cases a with
    | exit pid =>
      rcases w.log_finish pid with heq | ⟨pr, hpr, -, -, heq⟩
      · exact ⟨by rw [World.act, heq], by rw [World.act, heq]⟩
      · have hne := not_out (h.procs pr hpr)
        exact ⟨by rw [World.act, heq, members, if_neg hne], by rw [World.act, heq, writes, if_neg hne]⟩
    | _ => exact ⟨rfl, rfl⟩
  refine ⟨⟨h.pids.act a, fun q hq => ?_⟩, World.act_other ha ho h.procs, hlog.1, hlog.2⟩
  rcases World.act_child h.pids hq with hq | ⟨q₀, hq₀, rfl, -⟩
  · exact h.procs q hq
  · exact h.procs q₀ hq₀

theorem Unwritten.acts {o : Str} (ho : isProduct o = true) (as : List Act) {w : World}
    (has : ∀ a ∈ as, a.Spares) (h : Unwritten o w) : SameOutput o w (as.foldl World.act w) := by
  induction as generalizing w with
  | nil => exact .refl o w
  | cons a as ih =>
    obtain ⟨ha, has⟩ := List.forall_mem_cons.mp has
    obtain ⟨hact, hsame⟩ := h.act ha ho
    exact hsame.trans (ih has hact)

/-- Between two runs: what is there was made by cake, and no linker is running. -/
structure Rested (env : Env) (fits : Str → Str → Prop) (rs : List Run) (w : World) : Prop where
  made : Made (ChildOf env fits rs) w
  pids : w.PidsOk
  idle : w.Idle
  lists : Listings env rs w fits

/-- The world when it is the turn of a project. -/
structure Reached (env : Env) (fits : Str → Str → Prop) (rs : List Run) (r : Run) (w : World) :
    Prop where
  ready : Ready env fits rs r w
  lists : w.Lists fits
  target : w.target = r.target

theorem Rested.start (hr : r ∈ rs) (hs : Spared env rs) (h : Rested env fits rs w) :
    Reached env fits rs r (r.upTo env 0 w) ∧ ∀ q : Project, SameOutput q.outPath w (r.upTo env 0 w) := by
  obtain ⟨hb, hlb⟩ := lists_before env hr h.lists.before r.before w (fun _ h => h) h.lists.start
  have hmb : Made (ChildOf env fits rs) (r.before.foldl World.act w) :=
    Moves.keeps (I := Made (ChildOf env fits rs)) (fun _ _ => Made.step hs) hb h.made
  have hpb : (r.before.foldl World.act w).PidsOk := h.pids.same (World.same_acts _ _)
  have hacts := h.idle.same (World.same_acts r.before w)
  have hidle : (r.upTo env 0 w).Idle := hacts
  refine ⟨⟨⟨hidle.own (hmb.step hs (.start hr)) ⟨hpb.nodup, hpb.bound⟩ r, hidle⟩, hlb, rfl⟩, fun q => ?_⟩
  have hfree : Unwritten q.outPath w :=
    (Ready.mk (h.idle.own h.made h.pids r) h.idle).unwritten q
  obtain ⟨hfile, hmembers, hwrites⟩ := hfree.acts (product_outPath q) r.before (hs.before r hr)
  exact ⟨hfile, hmembers, hwrites⟩

theorem Reached.step (hr : r ∈ rs) (hs : Spared env rs) (hlinks : env.Links) (henv : env.Lists fits)
    (hp : r.projects[i]? = some p) (h : Reached env fits rs r w) :
    Reached env fits rs r (mainStep env r.pre r.projects w (p, i)) := by
  rw [mainStep]
  split
  · rcases hc : p.compile env r.projects w with ⟨ret, t⟩
    obtain ⟨hready, -⟩ := h.ready.compile hr hs hlinks henv (List.mem_of_getElem? hp) h.lists h.target hc
    have hpath : Path env (p.rules env fits r.projects w.target) w (p.compile env r.projects w).2.w :=
      path_compile_rules henv h.lists
    rw [hc] at hpath
    exact ⟨hready.leave i ret, hpath.lists henv h.lists, hpath.later.target.trans h.target⟩
  · exact h

theorem Rested.reached (hr : r ∈ rs) (hs : Spared env rs) (hlinks : env.Links)
    (h : Rested env fits rs w) : ∀ i, Reached env fits rs r (r.upTo env i w)
  | 0 => (h.start hr hs).1
  | i + 1 => by
    have ih := Rested.reached hr hs hlinks h i
    cases hp : r.projects[i]? with
    | some p =>
      rw [r.upTo_succ w hp]
      exact ih.step hr hs hlinks h.lists.env hp
    | none =>
      rw [r.upTo_end w hp]
      exact ih

/-- The output of project `i` is left alone, and so is what the log says of that project. -/
structure Aside (p : Project) (i : ℕ) (w w' : World) : Prop where
  output : SameOutput p.outPath w w'
  keeps : p.outPath ∈ keeps w'.log ↔ p.outPath ∈ keeps w.log
  returns : ∀ ret, (i, ret) ∈ returns w'.log ↔ (i, ret) ∈ returns w.log

theorem Aside.refl (p : Project) (i : ℕ) (w : World) : Aside p i w w :=
  ⟨.refl .., Iff.rfl, fun _ => Iff.rfl⟩

theorem Aside.trans {u v w : World} (h : Aside p i u v) (k : Aside p i v w) : Aside p i u w :=
  ⟨h.output.trans k.output, k.keeps.trans h.keeps, fun ret => (k.returns ret).trans (h.returns ret)⟩

/-- The step of a project with another output. -/
theorem Reached.aside {q : Project} {j : ℕ} (hs : Spared env rs) (hlinks : env.Links)
    (henv : env.Lists fits) (hne : p.outPath ≠ q.outPath) (hij : i ≠ j) (h : Reached env fits rs r w) :
    Aside p i w (mainStep env r.pre r.projects w (q, j)) := by
  rw [mainStep]
  split
  · rcases hc : q.compile env r.projects w with ⟨ret, t⟩
    obtain ⟨hcompiled, hothers⟩ := h.ready.compile_members hs hlinks henv h.lists hc
    have hreturns : returns t.w.log = returns w.log := by
      rw [← compile_returns env q r.projects w, hc]
    obtain ⟨hfile, hmembers, hwrites⟩ := hothers p hne
    refine ⟨⟨hfile, hmembers, hwrites⟩, ?_, fun b => ?_⟩
    · rcases hcompiled.noted with hk | hk
      · rw [← hk]
        rfl
      · have hmem := List.mem_cons (a := p.outPath) (b := q.outPath) (l := keeps w.log)
        rw [← hk] at hmem
        exact hmem.trans (or_iff_right hne)
    · rw [← hreturns]
      have hmem : (i, b) ∈ returns (t.w.say (.leave j ret)).log ↔ (i, b) = (j, ret) ∨ _ := List.mem_cons
      refine hmem.trans (or_iff_right fun heq => ?_)
      exact hij (congrArg Prod.fst heq)
  · exact .refl p i w

/-- Between two projects of the run, the steps of projects with another output. -/
theorem Rested.aside (hr : r ∈ rs) (hs : Spared env rs) (hlinks : env.Links)
    (h : Rested env fits rs w) (i k : ℕ) : ∀ n,
    (∀ j q, k ≤ j → j < k + n → r.projects[j]? = some q → i ≠ j ∧ p.outPath ≠ q.outPath) →
      Aside p i (r.upTo env k w) (r.upTo env (k + n) w)
  | 0, _ => .refl ..
  | n + 1, hothers => by
    have ih := Rested.aside hr hs hlinks h i k n fun j q hk hj => hothers j q hk (by omega)
    refine ih.trans ?_
    rw [← Nat.add_assoc]
    cases hq : r.projects[k + n]? with
    | none =>
      rw [r.upTo_end w hq]
      exact .refl ..
    | some q =>
      obtain ⟨hij, hne⟩ := hothers (k + n) q (by omega) (by omega) hq
      rw [r.upTo_succ w hq]
      exact (h.reached hr hs hlinks (k + n)).aside hs hlinks h.lists.env hne hij

/-- What the run has done to the output of project `i`, whose `compile()` has answered true. -/
inductive Answered (env : Env) (r : Run) (i : ℕ) (p : Project) (w w' : World) : Prop
  | filled (hkeeps : p.outPath ∉ keeps w'.log)
      (hbefore : SameOutput p.outPath w (r.upTo env i w))
      (hfill : Refilled p (p.clean env (r.upTo env i w)) (r.upTo env i w) (r.upTo env (i + 1) w))
      (hsame : SameOutput p.outPath (r.upTo env (i + 1) w) w')
  | kept {file : File} (hkeeps : p.outPath ∈ keeps w'.log)
      (hfile : w'.fs p.outPath = some file)
      (hold : ∀ k f, (p.matched env (r.upTo env i w))[k]? = some f →
        p.NoNewer env (r.upTo env i w) file k f)

theorem Rested.answered (hr : r ∈ rs) (hs : Spared env rs) (hlinks : env.Links)
    (h : Rested env fits rs w) (hp : r.projects[i]? = some p)
    (hone : ∀ j q, r.projects[j]? = some q → q.outPath = p.outPath → j = i)
    (hret : (i, true) ∈ returns (r.exec env w).log) : Answered env r i p w (r.exec env w) := by
  have hlt : i < r.projects.length := (List.getElem?_eq_some_iff.mp hp).1
  have hothers : ∀ j q, i ≠ j → r.projects[j]? = some q → i ≠ j ∧ p.outPath ≠ q.outPath :=
    fun j q hij hq => ⟨hij, fun heq => hij (hone j q hq heq.symm).symm⟩
  have hbefore := h.aside hr hs hlinks i 0 (p := p) i fun j q _ hj hq => hothers j q (by omega) hq
  have hafter := h.aside hr hs hlinks i (i + 1) (p := p) (r.projects.length - (i + 1))
    fun j q hj _ hq => hothers j q (by omega) hq
  rw [Nat.zero_add] at hbefore
  rw [Nat.add_sub_cancel' hlt, ← r.exec_eq] at hafter
  have hv := h.reached hr hs hlinks i
  -- before its turn the log says nothing of the project
  have hnokeeps : p.outPath ∉ keeps (r.upTo env i w).log := fun hk =>
    absurd (hbefore.keeps.mp hk) List.not_mem_nil
  have hnoreturn : (i, true) ∉ returns (r.upTo env i w).log := fun hk =>
    absurd ((hbefore.returns true).mp hk) List.not_mem_nil
  have hstep : r.upTo env (i + 1) w = mainStep env r.pre r.projects (r.upTo env i w) (p, i) :=
    r.upTo_succ w hp
  rw [hafter.returns, hstep] at hret
  rw [mainStep] at hret hstep
  split at hret
  · rename_i hpre
    rw [if_pos hpre] at hstep
    rcases hc : p.compile env r.projects (r.upTo env i w) with ⟨ret, t⟩
    obtain ⟨hcompiled, -⟩ := hv.ready.compile_members hs hlinks h.lists.env hv.lists hc
    have hreturns := compile_returns env p r.projects (r.upTo env i w)
    rw [hc] at hret hstep hreturns
    have htrue : ret = true := by
      rcases List.mem_cons.mp hret with heq | hmem
      · exact (congrArg Prod.snd heq).symm
      · exact absurd (hreturns ▸ hmem) hnoreturn
    have hkeeps : p.outPath ∈ keeps (r.exec env w).log ↔ p.outPath ∈ keeps t.w.log := by
      rw [hafter.keeps, hstep]
      rfl
    rcases hcompiled.ans htrue with ⟨hk, hfill⟩ | ⟨hk, -, file, hf, hold⟩
    · refine .filled (by rw [hkeeps, hk]; exact hnokeeps) ?_ ?_ hafter.output
      · exact ((h.start hr hs).2 p).trans hbefore.output
      rw [hstep]
      exact ⟨hfill.members, hfill.writes⟩
    · refine .kept ?_ ?_ hold
      · rw [hkeeps, hk]
        exact List.mem_cons_self ..
      · rw [hafter.output.file, hstep]
        exact hf
  · exact absurd hret hnoreturn

/-! ### Histories -/

/-- Project `q`, number `i` of run `r` after the runs `past`, has written the file in its turn, and it
    has not been written since. -/
structure WrittenAt (env : Env) (w : World) (out : Str) (past : List Run) (r : Run) (i : ℕ)
    (q : Project) (now : World) : Prop where
  project : r.projects[i]? = some q
  path : q.outPath = out
  wrote : writes out (r.upTo env (i + 1) (history env past w)).log =
    writes out (r.upTo env i (history env past w)).log + 1
  since : writes out now.log = writes out (r.upTo env (i + 1) (history env past w)).log

/-- An output that stands contains what it was filled with when it was last written, in a turn of one of
    the runs. -/
def Recorded (env : Env) (w : World) (rs : List Run) (out : Str) (now : World) : Prop :=
  now.fs out ≠ none → ∃ past r i q, past ++ [r] <+: rs ∧ WrittenAt env w out past r i q now ∧
    ∀ x, x ∈ members out now.log ↔
      q.filled (q.clean env (r.upTo env i (history env past w))) (r.upTo env i (history env past w)) x

theorem Recorded.same {start : World} {out : Str} {rs' : List Run} (hrs : rs <+: rs')
    (hsame : SameOutput out w w') (h : Recorded env start rs out w) :
    Recorded env start rs' out w' := by
  intro hfile
  obtain ⟨past, r, i, q, hpre, hat, hmem⟩ := h (hsame.file ▸ hfile)
  exact ⟨past, r, i, q, hpre.trans hrs, ⟨hat.project, hat.path, hat.wrote, hsame.writes.trans hat.since⟩,
    fun x => hsame.members ▸ hmem x⟩

/-- Turn after turn, the record is kept. -/
theorem Rested.recorded {start : World} {past all : List Run} (hr : r ∈ all) (hs : Spared env all)
    (hlinks : env.Links) (h : Rested env fits all (history env past start)) {q : Project}
    (hrec : Recorded env start past q.outPath (history env past start)) : ∀ k,
    Recorded env start (past ++ [r]) q.outPath (r.upTo env k (history env past start))
  | 0 => hrec.same (List.prefix_append ..) ((h.start hr hs).2 q)
  | k + 1 => by
    have ih := Rested.recorded hr hs hlinks h hrec k
    cases hp : r.projects[k]? with
    | none =>
      rw [r.upTo_end _ hp]
      exact ih
    | some p =>
      have hstep : r.upTo env (k + 1) (history env past start) =
          mainStep env r.pre r.projects (r.upTo env k (history env past start)) (p, k) :=
        r.upTo_succ (history env past start) hp
      by_cases hpre : r.pre k = true
      · rcases hc : p.compile env r.projects (r.upTo env k (history env past start)) with ⟨ret, t⟩
        have hv := h.reached hr hs hlinks k
        obtain ⟨hcompiled, hothers⟩ := hv.ready.compile_members hs hlinks h.lists.env hv.lists hc
        have hleave : ∀ o, SameOutput o t.w (r.upTo env (k + 1) (history env past start)) := fun o => by
          rw [hstep, mainStep, if_pos hpre, hc]
          exact ⟨rfl, rfl, rfl⟩
        by_cases heq : q.outPath = p.outPath
        · rw [heq] at ih ⊢
          cases hcompiled.effect with
          | same hsame => exact ih.same (List.prefix_refl _) (hsame.trans (hleave _))
          | gone hfile _ => exact fun hne => absurd ((hleave _).file.trans hfile) hne
          | filled hfill =>
            refine fun _ => ⟨past, r, k, p, List.prefix_refl _, ⟨hp, rfl, ?_, rfl⟩, fun x => ?_⟩
            · rw [(hleave _).writes, hfill.writes]
            · rw [(hleave _).members, hfill.members]
        · exact ih.same (List.prefix_refl _) ((hothers q heq).trans (hleave _))
      · rw [hstep, mainStep, if_neg hpre]
        exact ih

/-- Some project with this output matched a file with this object, when it was its turn in a run of
    the history. -/
def Origin (env : Env) (rs : List Run) (w : World) (out x : Str) : Prop :=
  ∃ (past later : List Run) (r : Run) (i : ℕ) (p : Project), rs = past ++ r :: later ∧
    r.projects[i]? = some p ∧ p.outPath = out ∧ x ∈ p.clean env (r.upTo env i (history env past w))

theorem Origin.append {out x : Str} (h : Origin env rs w out x) (rs' : List Run) :
    Origin env (rs ++ rs') w out x := by
  obtain ⟨past, later, r, i, p, rfl, hrest⟩ := h
  exact ⟨past, later ++ rs', r, i, p, by simp, hrest⟩

/-- What a run adds to an output are objects of files matched in it. -/
theorem Rested.origin (hr : r ∈ rs) (hs : Spared env rs) (hlinks : env.Links)
    (h : Rested env fits rs w) (q : Project) {x : Str} : ∀ k,
    x ∈ members q.outPath (r.upTo env k w).log → x ∈ members q.outPath w.log ∨
      ∃ (i : ℕ) (p : Project), r.projects[i]? = some p ∧ p.outPath = q.outPath ∧
        x ∈ p.clean env (r.upTo env i w)
  | 0, hx => by
    rw [((h.start hr hs).2 q).members] at hx
    exact Or.inl hx
  | k + 1, hx => by
    have ih := Rested.origin hr hs hlinks h q (x := x) k
    cases hp : r.projects[k]? with
    | none =>
      rw [r.upTo_end w hp] at hx
      exact ih hx
    | some p =>
      rw [r.upTo_succ w hp, mainStep] at hx
      split at hx
      · rcases hc : p.compile env r.projects (r.upTo env k w) with ⟨ret, t⟩
        have hv := h.reached hr hs hlinks k
        obtain ⟨hcompiled, hothers⟩ := hv.ready.compile_members hs hlinks h.lists.env hv.lists hc
        rw [hc] at hx
        have hx : x ∈ members q.outPath t.w.log := hx
        by_cases heq : q.outPath = p.outPath
        · rw [heq] at hx ih ⊢
          cases hcompiled.effect with
          | same hsame => exact ih (hsame.members ▸ hx)
          | gone _ hmem =>
            rw [hmem] at hx
            exact absurd hx List.not_mem_nil
          | filled hfill =>
            rcases (hfill.members x).mp hx with hx | ⟨-, hx⟩
            · exact Or.inr ⟨k, p, hp, rfl, hx⟩
            · exact ih (Archive.rest_subset _ _ _ hx)
        · rw [(hothers q heq).members] at hx
          exact ih hx
      · exact ih hx

theorem history_concat (env : Env) (rs : List Run) (r : Run) (w : World) :
    history env (rs ++ [r]) w = r.exec env (history env rs w) := by
  rw [history, List.foldl_append]
  rfl

/-- After any part of a history from a clean tree. -/
theorem rested_history {all : List Run} (hs : Spared env all) (hlinks : env.Links)
    (hl : Listings env all w fits) (hw : w.Clean) (hrs : ∀ r ∈ rs, r ∈ all) :
    Rested env fits all (history env rs w) := by
  have hidle : w.Idle := by
    intro x hx
    rw [World.children, hw.procs] at hx
    exact absurd hx List.not_mem_nil
  obtain ⟨hm, hp, hi, -⟩ := idle_history hs hlinks rs w hrs hl hw.made hw.pids hidle
  exact ⟨hm, hp, hi, (trace_history rs w hrs hl).2⟩

/-- Every member of an output has its origin in a run. -/
theorem members_origin {all : List Run} (hs : Spared env all) (hlinks : env.Links)
    (hl : Listings env all w fits) (hw : w.Clean) (q : Project) {x : Str} (hrs : ∀ r ∈ rs, r ∈ all)
    (hx : x ∈ members q.outPath (history env rs w).log) : Origin env rs w q.outPath x := by
  induction rs using List.reverseRecOn with
  | nil =>
    rw [history, List.foldl_nil, hw.log] at hx
    exact absurd hx List.not_mem_nil
  | append_singleton rs r ih =>
    have hbefore : ∀ r ∈ rs, r ∈ all := fun r hr => hrs r (List.mem_append_left _ hr)
    have hrest := rested_history hs hlinks hl hw hbefore
    rw [history_concat, r.exec_eq] at hx
    rcases hrest.origin (hrs r (by simp)) hs hlinks q _ hx with hx | ⟨i, p, hp, hout, hx⟩
    · exact (ih hbefore hx).append [r]
    · exact ⟨rs, [], r, i, p, rfl, hp, hout, hx⟩

/-- The record of a history from a clean tree. -/
theorem recorded_history {all : List Run} (hs : Spared env all) (hlinks : env.Links)
    (hl : Listings env all w fits) (hw : w.Clean) (q : Project) (hrs : ∀ r ∈ rs, r ∈ all) :
    Recorded env w rs q.outPath (history env rs w) := by
  induction rs using List.reverseRecOn with
  | nil => exact fun hne => absurd (hw.fs _ (product_outPath q)) hne
  | append_singleton rs r ih =>
    have hbefore : ∀ r ∈ rs, r ∈ all := fun r hr => hrs r (List.mem_append_left _ hr)
    have hrest := rested_history hs hlinks hl hw hbefore
    rw [history_concat, r.exec_eq]
    exact hrest.recorded (hrs r (by simp)) hs hlinks (ih hbefore) _

/-- After the last run of the history, the output of project `i` of that run contains the objects of the
    files that were matched when it was the project's turn, and no others. -/
def AsClean (env : Env) (rs : List Run) (r : Run) (w : World) (i : ℕ) (p : Project) : Prop :=
  ∀ x, x ∈ members p.outPath (history env (rs ++ [r]) w).log ↔
    x ∈ p.clean env (r.upTo env i (history env rs w))

theorem same_elements_iff {l l' : List Str} :
    (l.all l'.contains && l'.all l.contains) = true ↔ ∀ x, x ∈ l ↔ x ∈ l' := by
  simp only [Bool.and_eq_true, List.all_eq_true, List.contains_iff_mem]
  exact ⟨fun h x => ⟨h.1 x, h.2 x⟩, fun h => ⟨fun x => (h x).mp, fun x => (h x).mpr⟩⟩

instance (env : Env) (rs : List Run) (r : Run) (w : World) (i : ℕ) (p : Project) :
    Decidable (AsClean env rs r w i p) :=
  decidable_of_iff _ same_elements_iff

/-- After a run in which a project's `compile()` has answered true, the output contains what it was
    filled with in the turn in which it was last written, which is the project's own unless the output
    was kept; and it contains the objects of a clean build exactly when that filled it with these. -/
theorem as_clean_iff (hlinks : env.Links) (hs : Spared env (rs ++ [r])) (hw : w.Clean)
    (hp : r.projects[i]? = some p)
    (hone : ∀ j q, r.projects[j]? = some q → q.outPath = p.outPath → j = i)
    (hret : (i, true) ∈ returns (history env (rs ++ [r]) w).log) :
    let before := history env rs w
    let after := history env (rs ++ [r]) w
    let v := r.upTo env i before
    (∃ past r₀ i₀ q, past ++ [r₀] <+: rs ++ [r] ∧ WrittenAt env w p.outPath past r₀ i₀ q after ∧
      (p.outPath ∉ keeps after.log → past = rs ∧ r₀ = r ∧ i₀ = i) ∧
      let u := r₀.upTo env i₀ (history env past w)
      (∀ x, x ∈ members p.outPath after.log ↔ q.filled (q.clean env u) u x) ∧
      (AsClean env rs r w i p ↔ ∀ x, q.filled (q.clean env u) u x ↔ x ∈ p.clean env v)) ∧
    (p.outPath ∉ keeps after.log → (AsClean env rs r w i p ↔ (p.type = .staticLibrary →
      ∀ x ∈ Archive.rest memberName (p.clean env v).eraseDups (members p.outPath before.log),
        x ∈ p.clean env v))) ∧
    (p.outPath ∈ keeps after.log → ∃ file, after.fs p.outPath = some file ∧
      ∀ k f, (p.matched env v)[k]? = some f → p.NoNewer env v file k f) ∧
    (∀ x ∈ members p.outPath before.log, Origin env rs w p.outPath x) := by
  intro before after v
  have hl : Listings env (rs ++ [r]) w fun _ _ => True :=
    ⟨fun _ _ _ _ _ _ => trivial, fun _ _ _ _ _ _ _ => trivial, fun _ _ _ => trivial⟩
  have hin : ∀ r' ∈ rs, r' ∈ rs ++ [r] := fun r' hr => List.mem_append_left _ hr
  have hrest := rested_history hs hlinks hl hw hin
  have hafter : after = r.exec env before := history_concat env rs r w
  have hans : Answered env r i p before after := by
    rw [hafter]
    exact hrest.answered (by simp) hs hlinks hp hone (by rw [← hafter]; exact hret)
  have hclean : ∀ {P : Str → Prop}, (∀ x, x ∈ members p.outPath after.log ↔ P x) →
      (AsClean env rs r w i p ↔ ∀ x, P x ↔ x ∈ p.clean env v) := fun hmem =>
    forall_congr' fun x => by rw [← hmem x]
  refine ⟨?_, ?_, ?_, fun x hx => members_origin hs hlinks hl hw p hin hx⟩
  · cases hans with
    | filled hkeeps hbefore hfill hsame =>
      have hmem : ∀ x, x ∈ members p.outPath after.log ↔ p.filled (p.clean env v) v x := fun x => by
        rw [hsame.members, hfill.members]
      exact ⟨rs, r, i, p, List.prefix_refl _, ⟨hp, rfl, hfill.writes, hsame.writes⟩,
        fun _ => ⟨rfl, rfl, rfl⟩, hmem, hclean hmem⟩
    | kept hkeeps hfile _ =>
      obtain ⟨past, r₀, i₀, q, hpre, hat, hmem⟩ := recorded_history hs hlinks hl hw p (fun _ h => h)
        (by rw [hfile]; simp)
      exact ⟨past, r₀, i₀, q, hpre, hat, fun hno => absurd hkeeps hno, hmem, hclean hmem⟩
  · intro hno
    cases hans with
    | filled hkeeps hbefore hfill hsame =>
      have hmem : ∀ x, x ∈ members p.outPath after.log ↔ p.filled (p.clean env v) before x := fun x => by
        rw [hsame.members, hfill.members, Project.filled, Project.filled, hbefore.members]
      rw [hclean hmem]
      constructor
      · intro h htype x hx
        exact (h x).mp (Or.inr ⟨htype, hx⟩)
      · intro h x
        refine or_iff_left_of_imp ?_
        rintro ⟨htype, hx⟩
        exact h htype x hx
    | kept hkeeps => exact absurd hkeeps hno
  · intro hk
    cases hans with
    | filled hkeeps => exact absurd hk hkeeps
    | kept _ hfile hold => exact ⟨_, hfile, hold⟩

/-- A library made of the sources in two directories. -/
def splitLibrary : Project :=
  { Project.fresh .staticLibrary "util".toList with files := ["src/*.c".toList, "util/*.c".toList] }

/-- What the two directories hold. -/
def inDirs (src util : List String) : Act :=
  .relist fun pat => if pat = "src/*.c".toList then src.map String.toList else
    if pat = "util/*.c".toList then util.map String.toList else []

/-- A run of cake on this library. -/
def archiveRun (before : List Act) : Run :=
  { before := before, target := [], rebuild := false, makefile := [], projects := [splitLibrary]
    pre := fun _ => true }

/-- A source moves to the other directory: its object takes the place of the old one. -/
theorem as_clean_moved_source :
    AsClean Env.gcc
      [archiveRun [.edit "src/a.c".toList [], .edit "src/b.c".toList [], .edit "util/c.c".toList [],
        inDirs ["src/a.c", "src/b.c"] ["util/c.c"]]]
      (archiveRun [.tick 10000000000, .restore "src/a.c".toList none, .edit "util/a.c".toList [],
        inDirs ["src/b.c"] ["util/a.c", "util/c.c"]]) World.empty 0 splitLibrary := by
  have hlinks : Env.gcc.Links := fun _ _ _ _ => ⟨_, rfl, fun _ => rfl⟩
  have hclean : World.empty.Clean := ⟨fun _ _ => rfl, rfl, rfl⟩
  refine ((as_clean_iff hlinks ⟨fun _ _ ha => absurd ha List.not_mem_nil, fun r hr a ha => ?_⟩ hclean rfl
    (fun j q hq _ => ?_) (by decide +kernel)).2.1 (by decide +kernel)).mpr fun _ => by decide +kernel
  · rcases List.mem_cons.mp hr with rfl | hr
    · fin_cases ha <;> trivial
    · rw [List.mem_singleton.mp hr] at ha
      fin_cases ha <;> trivial
  · match j with
    | 0 => rfl
    | j + 1 => cases hq

/-- A run of cake on a program made of all the sources in a directory. -/
def globProgram (before : List Act) : Run :=
  { before := before, target := [], rebuild := false, makefile := []
    projects := makefile [.program "prog".toList, .addFiles 0 ["u/*.c".toList]]
    pre := fun _ => true }

/-- The project's `compile()` answers true in the last run, and its output is not that of a clean
    build. -/
def NotAsClean (rs : List Run) (r : Run) (i : ℕ) : Prop :=
  (i, true) ∈ returns (history Env.gcc (rs ++ [r]) World.empty).log ∧
    ∃ p ∈ r.projects[i]?, ¬ AsClean Env.gcc rs r World.empty i p

instance (rs : List Run) (r : Run) (i : ℕ) : Decidable (NotAsClean rs r i) :=
  inferInstanceAs (Decidable (_ ∧ _))

/-- A run of cake on two programs, of which the second has the output of the first. -/
def oneOutput : Run :=
  { before := [.edit "a.c".toList [], .edit "b.c".toList []], target := [], rebuild := false
    makefile := []
    projects := makefile [.program "prog".toList, .program "pro".toList,
      .setOutputSuffix 1 "g".toList, .addFiles 0 ["a.c".toList], .addFiles 1 ["b.c".toList]]
    pre := fun _ => true }

/-- A source is removed, and another one edited: the archive keeps the object of the first. A source is
    removed: the program is kept with its object. A source that was away for one run comes back with its
    old date: the program is kept without its object. Two programs have one output: it is the second's. -/
theorem not_as_clean :
    let two : List Act := [.edit "u/a.c".toList [], .edit "u/b.c".toList [], .edit "main.c".toList [],
      .relist (listing ["u/a.c", "u/b.c"])]
    let one : List Act := [.tick 10000000000, .edit "u/a.c".toList [], .relist (listing ["u/a.c"])]
    let back : List Act := [.relist (listing ["u/a.c", "u/b.c"])]
    NotAsClean [utilAndProg two] (utilAndProg one) 0 ∧
    NotAsClean [globProgram two] (globProgram [.relist (listing ["u/a.c"])]) 0 ∧
    NotAsClean [globProgram two, globProgram one] (globProgram back) 0 ∧
    NotAsClean [] oneOutput 0 := by
  decide +kernel

end Cake
