import Mathlib.Data.Multiset.Basic
import Cake.ArgBuffer
import Cake.Plan

/-! A parallel run does what was planned before it began.

    `Course` walks the projects once over the files as they stand at the start: no compiler runs, nothing
    is waited for, and no slot is chosen. It says which commands the run is going to start, in which
    order, what every `compile()` is going to answer and what `newest_time` will be. A real run follows
    it under every schedule and with any number of slots, as long as no look reads what an earlier command
    of the run writes. Only the order of the objects on a link line is left to the schedule (`Cmd.shape`).

        files at the start ──Course──▶ commands, answers, newest_time
               │                                  ‖
               └───────── run, n slots ──────────▶ -/

namespace Cake

variable {env : Env} {R : Rules} {gs : List Project} {p : Project} {v w w' : World} {s : St}
  {Z : Str → Prop} {good : Str → Bool} {c : Str} {l : List Str}

/-- Every fork succeeds, and whether a command is a success is settled by what it makes. -/
def Env.Grades (env : Env) (good : Str → Bool) : Prop :=
  ∀ k cmd fs, ∃ f, env.fork k cmd fs = some f ∧ f.ok = good cmd.out

theorem Env.Grades.forks (h : env.Grades good) : env.Forks := fun k cmd fs => by
  obtain ⟨f, hf, -⟩ := h k cmd fs
  exact ⟨f, hf⟩

/-- A command up to the order of what it is made of: its files and its arguments in any order, and its
    argument list with these files left blank. -/
structure CmdShape where
  kind : Kind
  out : Str
  libs : List Str
  ins : Multiset Str
  argv : Multiset Str
  line : List (Option Str)
  deriving DecidableEq

def Cmd.shape (cmd : Cmd) : CmdShape where
  kind := cmd.kind
  out := cmd.out
  libs := cmd.libs
  ins := cmd.ins
  argv := cmd.argv
  line := KeepFirst.blank cmd.ins cmd.argv

namespace Project

/-- The flags of the sources. -/
def cflags (env : Env) (p : Project) : Str := p.flagText (((pkgConfig env p.pkgdepends).map Prod.fst).getD [])

/-- The libraries a program is linked with, besides those of other projects. -/
def linkLibs (env : Env) (p : Project) : List Str :=
  p.libs ++ ((pkgConfig env p.pkgdepends).map Prod.snd).getD [] ++
    if p.makingCpp then ["-lstdc++".toList] else []

/-- The command of the output, with the objects in the order of the sources. -/
def outputCmd (env : Env) (gs : List Project) (v : World) (p : Project) : Cmd :=
  match p.type with
  | .staticLibrary =>
    { kind := .ar, argv := arArgs p.outPath (p.objects v), ins := p.objects v, out := p.outPath, libs := [] }
  | _ =>
    { kind := .link,
      argv := linkArgs (p.pchName v.target) (p.cflags env) p.outPath (p.objects v) (p.linkLibs env)
        (p.libDepends gs),
      ins := p.objects v, out := p.outPath, libs := p.archives gs }

end Project

/-- What is settled of a run: the commands, the answers of `compile()` (newest first) and
    `newest_time`. -/
structure Course where
  cmds : List Cmd
  answers : List (ℕ × Bool)
  newest : ℕ
  deriving DecidableEq

/-- What the build of the project starts, what it answers and what `newest_time` is afterwards, when it is
    `n` before. -/
def Project.foreseen (env : Env) (good : Str → Bool) (v : World) (gs : List Project) (n : ℕ) (p : Project) :
    List Cmd × Bool × ℕ :=
  if pkgConfig env p.pkgdepends = none then ([], false, n)
  else
    let made := staleCmds v (p.plan v v.target (p.cflags env))
    let newest := seenAfter v n (p.parts v v.target)
    if !made.all fun cmd => good cmd.out then (made, false, newest)
    else if (made.any fun cmd => cmd.kind = .compile) || isOlder v.fs v.makefileTime newest p.outPath then
      (made ++ [p.outputCmd env gs v], good p.outPath, newest)
    else (made, true, newest)

namespace Course

/-- One round of the loop of `main`. -/
def round (env : Env) (good : Str → Bool) (v : World) (pre : ℕ → Bool) (gs : List Project) (k : Course)
    (ip : Project × ℕ) : Course :=
  if pre ip.2 then
    match ip.1.foreseen env good v gs k.newest with
    | (cmds, ret, newest) => ⟨k.cmds ++ cmds, (ip.2, ret) :: k.answers, newest⟩
  else k

/-- The whole run. -/
def ofRun (env : Env) (good : Str → Bool) (v : World) (pre : ℕ → Bool) (gs : List Project) : Course :=
  gs.zipIdx.foldl (round env good v pre gs) ⟨[], [], 0⟩

end Course

/-! ### The output -/

/-- Without pkg-config nothing is built. -/
theorem Project.compile_none (hpkg : pkgConfig env p.pkgdepends = none) (gs : List Project) (w : World) :
    p.compile env gs w = (false, newBuild env w) := by
  rw [Project.compile]
  simp only [hpkg]

/-- Commands made of the same files in another order, between the same other arguments. -/
theorem shape_reordered {cmd cmd' : Cmd} {a z : List Str} (hkind : cmd.kind = cmd'.kind)
    (hout : cmd.out = cmd'.out) (hlibs : cmd.libs = cmd'.libs) (hins : cmd.ins.Perm cmd'.ins)
    (hline : cmd.argv = KeepFirst.keepFirst [] (a ++ cmd.ins ++ z))
    (hline' : cmd'.argv = KeepFirst.keepFirst [] (a ++ cmd'.ins ++ z)) : cmd.shape = cmd'.shape := by
  obtain ⟨hargv, hblank⟩ := KeepFirst.keepFirst_reordered hins [] a z
  rw [← hline, ← hline'] at hargv hblank
  rw [Cmd.shape, Cmd.shape, CmdShape.mk.injEq]
  exact ⟨hkind, hout, hlibs, Multiset.coe_eq_coe.mpr hins, Multiset.coe_eq_coe.mpr hargv, hblank⟩

/-- The last step of `compile()`, and the command it may start: with the objects of all the sources it is
    the one that was foreseen, but for their order. -/
theorem Project.compile_output (hpkg : pkgConfig env p.pkgdepends = some (c, l)) (hout : p.outTarget ≠ [])
    (htype : p.type ≠ .sharedLibrary) (gs : List Project) (v w : World) :
    ∃ mkCmd : St → Cmd, p.compile env gs w = produce env mkCmd
      (p.after env (p.flagText c) (p.sources env (p.flagText c) w).length w) ∧
      (∀ s, (mkCmd s).out = p.outPath ∧ World.hasDep (mkCmd s).kind = false) ∧
      ∀ s, s.b.pchname = p.pchName v.target → s.b.linklist.Perm (p.objects v) →
        (mkCmd s).shape = (p.outputCmd env gs v).shape := by
  rw [p.compile_eq env gs w hpkg, Project.outputStep, if_neg (by simpa using hout)]
  cases ht : p.type with
  | program =>
    have hpath : p.outPath = outName p.outTarget := by rw [Project.outPath, ht]
    have hlibs : p.linkLibs env = p.libs ++ l ++ if p.makingCpp then ["-lstdc++".toList] else [] := by
      rw [Project.linkLibs, hpkg]
      rfl
    have hflags : p.cflags env = p.flagText c := by
      rw [Project.cflags, hpkg]
      rfl
    refine ⟨_, rfl, fun s => ⟨hpath.symm, rfl⟩, fun s hpch hperm => ?_⟩
    obtain ⟨a, z, hline⟩ := linkArgs_line (p.pchName v.target) (p.flagText c) (outName p.outTarget)
      (p.linkLibs env) (p.libDepends gs)
    rw [Project.outputCmd, ht, hflags, hpath, ← hlibs]
    refine shape_reordered rfl rfl rfl hperm ?_ (hline _)
    rw [linkCmd, hpch]
    exact hline _
  | staticLibrary =>
    have hpath : p.outPath = libName p.outTarget := by rw [Project.outPath, ht]
    refine ⟨_, rfl, fun s => ⟨hpath.symm, rfl⟩, fun s _ hperm => ?_⟩
    rw [Project.outputCmd, ht, hpath]
    exact shape_reordered rfl rfl rfl hperm (arArgs_line _ _) (arArgs_line _ _)
  | sharedLibrary => exact absurd ht htype

/-- The answer about an output whose command is started. -/
theorem buildOutput_graded {cmd : Cmd} (hgood : env.Grades good) (hp : s.w.PidsOk) :
    (buildOutput env cmd s).1 = good cmd.out := by
  obtain ⟨f, hf, hok⟩ := hgood s.w.nfork cmd s.w.fs
  obtain ⟨u, pr, -, -, -, -, -, -, hexec⟩ := execute_waits .all hp hf
  rw [← hok, buildOutput, hexec, Fate.ok]
  dsimp only
  by_cases h : wexitstatus f.status.word = 0
  · simp [h]
  · simp [h]

/-- What `link` and `staticlib` do and answer. -/
theorem produce_graded (mkCmd : St → Cmd) (hgood : env.Grades good) (hp : (decision env s).w.PidsOk) :
    ((decision env s).b.nfailed ≠ 0 ∧ produce env mkCmd s = (false, decision env s)) ∨
    ((decision env s).b.nfailed = 0 ∧ upToDate (decision env s) (mkCmd (decision env s)).out = true ∧
      ∃ t, produce env mkCmd s = (true, t) ∧ execs t.w.log = execs (decision env s).w.log ∧
        t.w.newestTime = (decision env s).w.newestTime) ∨
    ((decision env s).b.nfailed = 0 ∧ upToDate (decision env s) (mkCmd (decision env s)).out = false ∧
      ∃ t fate, produce env mkCmd s = (good (mkCmd (decision env s)).out, t) ∧
        execs t.w.log = (mkCmd (decision env s), fate) :: execs (decision env s).w.log ∧
        t.w.newestTime = (decision env s).w.newestTime) := by
  rw [produce]
  rw [← decision]
  split
  · rename_i hn
    exact Or.inl ⟨hn, rfl⟩
  · rename_i hn
    split
    · rename_i hup
      exact Or.inr (Or.inl ⟨not_not.mp hn, hup, _, rfl, rfl, rfl⟩)
    · rename_i hup
      obtain ⟨fs, he⟩ := (buildOutput_log env (mkCmd (decision env s)) (decision env s)).execs
      refine Or.inr (Or.inr ⟨not_not.mp hn, Bool.eq_false_iff.mpr hup, _, _,
        Prod.ext (buildOutput_graded hgood hp) rfl, he, ?_⟩)
      rw [buildOutput_world]
      exact newest_execute rfl

theorem Near.produce (hcalm : env.Calm) {mkCmd : St → Cmd} (h : Near v Z (decision env s).w)
    (hexec : (writing Z).exec (mkCmd (decision env s))) : Near v Z (produce env mkCmd s).2.w := by
  rw [Cake.produce]
  rw [← decision]
  split
  · exact h
  · split
    · exact h.say _
    · exact h.path hcalm (path_buildOutput hexec _)

/-! ### A project -/

variable {n : ℕ} {cmds : List Cmd}

theorem Planned.mem (h : Planned v Z n cmds w) (cmd : Cmd) :
    cmd ∈ cmds ↔ ∃ e ∈ Cake.execs w.log, e.1 = cmd := by
  rw [← List.mem_reverse, ← h.execs, List.mem_map]

/-- Nothing that was started has failed. -/
theorem Planned.all_good (h : Planned v Z n cmds w)
    (hgrade : ∀ e ∈ Cake.execs w.log, okFate e.2 = good e.1.out) :
    (∀ e ∈ Cake.execs w.log, okFate e.2 = true) ↔ (cmds.all fun cmd => good cmd.out) = true := by
  rw [List.all_eq_true]
  constructor
  · intro hall cmd hcmd
    obtain ⟨e, he, rfl⟩ := (h.mem cmd).mp hcmd
    rw [← hgrade e he]
    exact hall e he
  · intro hall e he
    rw [hgrade e he]
    exact hall e.1 ((h.mem e.1).mpr ⟨e, he, rfl⟩)

theorem Planned.any_compile (h : Planned v Z n cmds w) :
    started w.log ≠ [] ↔ (cmds.any fun cmd => cmd.kind = .compile) = true := by
  rw [started_ne_nil, List.any_eq_true]
  constructor
  · rintro ⟨e, he, hk⟩
    exact ⟨e.1, (h.mem e.1).mpr ⟨e, he, rfl⟩, decide_eq_true hk⟩
  · rintro ⟨cmd, hcmd, hk⟩
    obtain ⟨e, he, rfl⟩ := (h.mem cmd).mp hcmd
    exact ⟨e, he, of_decide_eq_true hk⟩

/-- Where the files of `Z` have been written, those of the parts of `p` and its output may have been
    written after its build. -/
def afterBuild (v : World) (Z : Str → Prop) (p : Project) (o : Str) : Prop :=
  addedBy v Z (p.parts v v.target) o ∨ o = p.outPath

theorem ready_graded (hgood : env.Grades good) (p : Project) (cflags : Str) (w : World) :
    ∀ e ∈ execs (p.ready env cflags w).w.log, okFate e.2 = good e.1.out :=
  (p.path_ready env cflags w).execs (fun k cmd fs _ => by
    obtain ⟨f, hf, hok⟩ := hgood k cmd fs
    rw [hf]
    exact hok) fun _ he => absurd he List.not_mem_nil

/-- The output of a project is as old as it was. -/
theorem Planned.output_older (h : Planned v Z n cmds w) {o : Str} (ho : ¬ Z o) :
    isOlder w.fs w.makefileTime w.newestTime o = isOlder v.fs v.makefileTime n o := by
  rw [isOlder, isOlder, h.near.fs o ho, h.near.makefileTime, h.newest]

theorem older_of_missing {fs : FS} {mk n : ℕ} {o : Str} (h : existsFile fs o = false) :
    isOlder fs mk n o = true := by
  rw [existsFile, Option.isSome_eq_false_iff, Option.isNone_iff_eq_none] at h
  rw [isOlder, h]

/-- The command of the output is to be started. -/
theorem Planned.decides (h : Planned v Z n cmds s.w) (hr : Reckoned s)
    (hgrade : ∀ e ∈ Cake.execs s.w.log, okFate e.2 = good e.1.out) {o : Str} (ho : ¬ Z o) :
    (s.b.nfailed = 0 ↔ (cmds.all fun cmd => good cmd.out) = true) ∧
      (s.b.nfailed = 0 → (upToDate s o = false ↔
        ((cmds.any fun cmd => cmd.kind = .compile) || isOlder v.fs v.makefileTime n o) = true)) := by
  have hall := h.all_good hgrade
  refine ⟨hr.failed.trans hall, fun hn => ?_⟩
  have hdec := hr.decides o
  rw [h.output_older ho, h.any_compile] at hdec
  rw [Bool.or_eq_true]
  constructor
  · intro hup
    rcases (hdec.mp ⟨hn, hup⟩).2 with hany | hmissing | holder
    · exact Or.inl hany
    · rw [← h.output_older ho]
      exact Or.inr (older_of_missing hmissing)
    · exact Or.inr holder
  · intro hmake
    exact (hdec.mpr ⟨hr.failed.mp hn, hmake.imp_right Or.inr⟩).2

theorem part_writes_under {target : Str} {x : Part} (hx : x ∈ p.parts w target) {o : Str}
    (ho : o ∈ x.writes) : baseobjdir <+: o := by
  rcases List.mem_cons.mp ho with rfl | ho
  · exact part_under hx
  · exact List.mem_singleton.mp ho ▸ gccDepName_under (part_under hx)

/-- A build that begins with `newest_time` at `n`, where files of `Z` may have been written. -/
theorem compile_foreseen (hcalm : env.Calm) (hgood : env.Grades good) (hout : p.outTarget ≠ [])
    (htype : p.type ≠ .sharedLibrary) (hclear : Undisturbed v Z (p.parts v v.target)) (hfree : ¬ Z p.outPath)
    (gs : List Project) (hnear : Near v Z w) (hp : w.PidsOk) (hn : w.newestTime = n) :
    Near v (afterBuild v Z p) (p.compile env gs w).2.w ∧
      (execs (p.compile env gs w).2.w.log).map (fun e => e.1.shape) =
        ((p.foreseen env good v gs n).1.map Cmd.shape).reverse ∧
      (p.compile env gs w).1 = (p.foreseen env good v gs n).2.1 ∧
      (p.compile env gs w).2.w.newestTime = (p.foreseen env good v gs n).2.2 := by
  rw [Project.foreseen]
  cases hpkg : pkgConfig env p.pkgdepends with
  | none =>
    rw [if_pos rfl, p.compile_none hpkg]
    exact ⟨(hnear.mono fun o ho => Or.inl (addedBy_iff.mpr (Or.inl ho))).say _, rfl, rfl, hn⟩
  | some cl =>
    obtain ⟨c, l⟩ := cl
    have hflags : p.cflags env = p.flagText c := by
      rw [Project.cflags, hpkg]
      rfl
    rw [if_neg (Option.some_ne_none _), hflags]
    obtain ⟨mkCmd, heq, hmk, hshape⟩ := p.compile_output hpkg hout htype gs v w
    have hready := Planned.ready hcalm p (p.flagText c) hnear hn hclear
    have hreckoned : Reckoned (p.ready env (p.flagText c) w) :=
      p.reckoned hp _ (Or.inr (p.ready_forked hgood.forks _ w))
    have hpids : (p.ready env (p.flagText c) w).w.PidsOk := (Manned.ready hp p _).1.pids
    have hunder : ¬ addedBy v Z (p.parts v v.target) p.outPath := fun h => by
      rcases addedBy_iff.mp h with h | ⟨x, hx, -, ho⟩
      · exact hfree h
      · exact obj_ne_outPath (part_writes_under hx ho) p rfl
    obtain ⟨hfailed, hdecides⟩ := hready.decides hreckoned (ready_graded hgood p _ w) hunder
    have hmkout := (hmk (p.ready env (p.flagText c) w)).1
    have hexecs : (execs (p.ready env (p.flagText c) w).w.log).map (fun e => e.1.shape) =
        ((staleCmds v (p.plan v v.target (p.flagText c))).map Cmd.shape).reverse := by
      rw [← List.map_reverse, ← hready.execs, List.map_map]
      rfl
    have hobjects : (p.ready env (p.flagText c) w).b.nfailed = 0 →
        (p.ready env (p.flagText c) w).b.linklist.Perm (p.objects v) := fun hn => by
      rw [Project.objects, ← hnear.target, ← Project.fnames_glob hnear.glob, ← p.sources_calm hcalm]
      exact p.linked_objects _ w hn
    rw [heq]
    refine ⟨Near.produce hcalm (hready.near.mono fun o => Or.inl) fun o ho => ?_, ?_⟩
    · obtain ⟨hout', hkind⟩ := hmk (decision env (p.after env (p.flagText c)
        (p.sources env (p.flagText c) w).length w))
      simp only [Cmd.writes, hkind, hout', Bool.false_and, Bool.or_false, decide_eq_true_eq] at ho
      exact Or.inr ho.symm
    have hproduce := produce_graded mkCmd hgood hpids
    rw [← Project.ready] at hproduce
    rw [hmkout] at hproduce
    rcases hproduce with ⟨hn, ht⟩ | ⟨hn, hup, t, ht, hlog, hnew⟩ | ⟨hn, hup, t, fate, ht, hlog, hnew⟩
    · rw [ht, if_pos (by simpa using mt hfailed.mpr hn)]
      exact ⟨hexecs, rfl, hready.newest⟩
    · have hno := mt (hdecides hn).mpr (by rw [hup]; exact Bool.noConfusion)
      rw [ht, if_neg (by simpa using hfailed.mp hn), if_neg hno]
      exact ⟨hlog ▸ hexecs, rfl, hnew.trans hready.newest⟩
    · rw [ht, if_neg (by simpa using hfailed.mp hn), if_pos ((hdecides hn).mp hup)]
      refine ⟨?_, rfl, hnew.trans hready.newest⟩
      have hpch : (p.ready env (p.flagText c) w).b.pchname = p.pchName v.target := by
        rw [p.ready_pchname, hnear.target]
      rw [hlog, List.map_cons, hshape _ hpch (hobjects hn), hexecs, List.map_append, List.reverse_append]
      rfl

/-! ### A run -/

/-- The run has followed the course so far, and has written files of `Z` alone. -/
structure Follows (v : World) (Z : Str → Prop) (k : Course) (w : World) : Prop where
  near : Near v Z w
  alone : w.procs = []
  newest : w.newestTime = k.newest
  launched : (launched w.log).map (fun e => e.1.shape) = (k.cmds.map Cmd.shape).reverse
  answers : returns w.log = k.answers

/-- The project has an output. -/
def Project.HasOutput (p : Project) : Prop := p.outTarget ≠ [] ∧ p.type ≠ .sharedLibrary

instance (p : Project) : Decidable p.HasOutput :=
  inferInstanceAs (Decidable (p.outTarget ≠ [] ∧ p.type ≠ .sharedLibrary))

theorem launched_compile (hcalm : env.Calm) (hout : p.HasOutput) (gs : List Project) (w : World) :
    launched (p.compile env gs w).2.w.log = execs (p.compile env gs w).2.w.log ++ launched w.log := by
  cases hpkg : pkgConfig env p.pkgdepends with
  | none =>
    rw [p.compile_none hpkg]
    rfl
  | some cl =>
    exact launched_build (fun hb => hb)
      (path_compile_making (X := fun _ => True) hcalm (fun _ _ => trivial) hpkg hout.1 hout.2)

/-- What a project that is compiled next asks of the files written so far. -/
structure Project.Follows (v : World) (Z : Str → Prop) (p : Project) : Prop where
  named : p.HasOutput
  clear : Undisturbed v Z (p.parts v v.target)
  free : ¬ Z p.outPath

/-- One more round. -/
theorem Follows.round {k : Course} (hcalm : env.Calm) (hgood : env.Grades good) (gs : List Project) (i : ℕ)
    (hp : p.Follows v Z) (h : Follows v Z k w) {pre : ℕ → Bool} (hpre : pre i = true) :
    Follows v (afterBuild v Z p) (k.round env good v pre gs (p, i)) (mainStep env pre gs w (p, i)) := by
  obtain ⟨hnear, halone, hnewest, hlaunched, hanswers⟩ := h
  obtain ⟨⟨hout, htype⟩, hclear, hfree⟩ := hp
  have hpids : w.PidsOk := (alone_of_procs halone).pids
  obtain ⟨hnear', hexecs, hret, hnewest'⟩ :=
    compile_foreseen hcalm hgood hout htype hclear hfree gs hnear hpids hnewest
  have halone' : Alone (p.compile env gs w).2.w := (alone_of_procs halone).compile hout htype gs
  have hlog := launched_compile hcalm ⟨hout, htype⟩ gs w
  have hreturns := compile_returns env p gs w
  rw [mainStep, Course.round, if_pos hpre, if_pos hpre]
  dsimp only
  refine ⟨hnear'.say _, halone'.procs, hnewest', ?_, ?_⟩
  · show (Cake.launched (p.compile env gs w).2.w.log).map _ = _
    rw [hlog, List.map_append, hexecs, hlaunched, List.map_append, List.reverse_append]
  · show (i, (p.compile env gs w).1) :: returns (p.compile env gs w).2.w.log = _
    rw [hreturns, hret, hanswers]

/-- The projects that are compiled: those whose pre step says so. -/
def passed (pre : ℕ → Bool) (l : List (Project × ℕ)) : List Project :=
  (l.filter fun ip => pre ip.2).map Prod.fst

/-- What lies ahead of a run that has written files of `Z` alone. -/
structure Ahead (v : World) (Z : Str → Prop) (ps : List Project) : Prop where
  named : ∀ p ∈ ps, p.HasOutput
  clear : Undisturbed v Z (ps.flatMap fun p => p.parts v v.target)
  free : ∀ p ∈ ps, ¬ Z p.outPath
  inputs : ∀ p ∈ ps, ∀ x ∈ p.parts v v.target, ∀ q ∈ ps, q.outPath ∉ x.reads v
  apart : (ps.map Project.outPath).Nodup

/-- The first project and what lies ahead of its end. -/
theorem Ahead.cons {ps : List Project} (h : Ahead v Z (p :: ps)) :
    p.Follows v Z ∧ Ahead v (afterBuild v Z p) ps := by
  obtain ⟨hnamed, hclear, hfree, hinputs, hapart⟩ := h
  rw [List.flatMap_cons, undisturbed_append] at hclear
  rw [List.map_cons, List.nodup_cons] at hapart
  refine ⟨⟨hnamed p List.mem_cons_self, hclear.1, hfree p List.mem_cons_self⟩,
    fun q hq => hnamed q (List.mem_cons_of_mem _ hq), ?_, fun q hq hz => ?_,
    fun q hq x hx r hr => hinputs q (List.mem_cons_of_mem _ hq) x hx r (List.mem_cons_of_mem _ hr), hapart.2⟩
  · refine hclear.2.widen (fun o ho => ho) fun x hx o ho heq => ?_
    obtain ⟨q, hq, hx⟩ := List.mem_flatMap.mp hx
    exact hinputs q (List.mem_cons_of_mem _ hq) x hx p List.mem_cons_self (heq ▸ ho)
  · rcases hz with hz | heq
    · rcases addedBy_iff.mp hz with hz | ⟨x, hx, -, ho⟩
      · exact hfree q (List.mem_cons_of_mem _ hq) hz
      · exact obj_ne_outPath (part_writes_under hx ho) q rfl
    · exact hapart.1 (List.mem_map.mpr ⟨q, hq, heq⟩)

/-- The rounds of the loop. -/
theorem Follows.rounds (hcalm : env.Calm) (hgood : env.Grades good) (pre : ℕ → Bool) (gs : List Project) :
    ∀ (l : List (Project × ℕ)) {Z : Str → Prop} {k : Course} {w : World}, Ahead v Z (passed pre l) →
      Follows v Z k w → ∃ Z', Follows v Z' (l.foldl (Course.round env good v pre gs) k)
        (l.foldl (mainStep env pre gs) w)
  | [], Z, _, _, _, h => ⟨Z, h⟩
  | (p, i) :: l, Z, k, w, hahead, h => by
    rw [List.foldl_cons, List.foldl_cons]
    cases hpre : pre i with
    | false =>
      rw [passed, List.filter_cons_of_neg (by simp [hpre])] at hahead
      have hskip : k.round env good v pre gs (p, i) = k ∧ mainStep env pre gs w (p, i) = w := by
        simp [Course.round, mainStep, hpre]
      rw [hskip.1, hskip.2]
      exact Follows.rounds hcalm hgood pre gs l hahead h
    | true =>
      rw [passed, List.filter_cons_of_pos (by simp [hpre])] at hahead
      obtain ⟨hp, hrest⟩ := hahead.cons
      exact Follows.rounds hcalm hgood pre gs l hrest (h.round hcalm hgood gs i hp hpre)

/-- The projects that a run compiles do not get in each other's way: no command makes a file that a later
    look reads, no output is a prerequisite, and no two outputs are one file. -/
structure Untangled (v : World) (ps : List Project) : Prop where
  named : ∀ p ∈ ps, p.HasOutput
  parts : (ps.flatMap fun p => p.parts v v.target).Pairwise fun x y =>
    x.stale v = true → ∀ o ∈ x.writes, o ∉ y.reads v
  inputs : ∀ p ∈ ps, ∀ x ∈ p.parts v v.target, ∀ q ∈ ps, q.outPath ∉ x.reads v
  apart : (ps.map Project.outPath).Nodup

theorem Untangled.ahead {ps : List Project} (h : Untangled v ps) : Ahead v (fun _ => False) ps :=
  ⟨h.named, undisturbed_iff.mpr ⟨fun _ _ _ _ hno => hno, h.parts⟩, fun _ _ hno => hno, h.inputs, h.apart⟩

/-- A run from `v` follows its course over the files of `v`. -/
theorem Untangled.follows (hcalm : env.Calm) (hgood : env.Grades good) {pre : ℕ → Bool} {gs : List Project}
    (h : Untangled v (passed pre gs.zipIdx)) (hprocs : v.procs = []) (hnewest : v.newestTime = 0)
    (hnone : launched v.log = [] ∧ returns v.log = []) :
    ∃ Z, Follows v Z (Course.ofRun env good v pre gs) (mainLoop env pre gs v) :=
  Follows.rounds hcalm hgood pre gs gs.zipIdx h.ahead (k := ⟨[], [], 0⟩)
    ⟨.refl hprocs, hprocs, hnewest, by rw [hnone.1]; rfl, hnone.2⟩

theorem begun_alone (r : Run) (hprocs : w.procs = []) : (r.before.foldl World.act w).procs = [] :=
  ((alone_of_procs hprocs).same (World.same_acts r.before w)).procs

/-- A run starts the commands that its course over the first files has, in that order, with the answers and
    the `newest_time` of the course. -/
theorem run_follows_course (hcalm : env.Calm) (hgood : env.Grades good) (r : Run) (hprocs : w.procs = []) :
    let v := startRun r.target r.rebuild r.makefile (r.before.foldl World.act w)
    Untangled v (passed r.pre r.projects.zipIdx) →
    (launched (r.exec env w).log).map (fun e => e.1.shape) =
        ((Course.ofRun env good v r.pre r.projects).cmds.map Cmd.shape).reverse ∧
      returns (r.exec env w).log = (Course.ofRun env good v r.pre r.projects).answers ∧
      (r.exec env w).newestTime = (Course.ofRun env good v r.pre r.projects).newest ∧
      (r.exec env w).procs = [] := by
  intro v h
  obtain ⟨Z, hend⟩ := h.follows hcalm hgood (begun_alone r hprocs) rfl ⟨rfl, rfl⟩
  exact ⟨hend.launched, hend.answers, hend.newest, hend.alone⟩

/-! ### Everything anew -/

/-- The part has to be made whatever has been seen, and the look sees nothing. -/
def Part.Blank (w : World) (x : Part) : Prop := ∀ n, x.look w n = (true, n)

theorem blank_of_rebuild (hr : w.rebuild = true) (x : Part) : x.Blank w := fun n => look_rebuild hr n x

/-- There is no list of what the part is made of. -/
theorem blank_of_unlisted {x : Part} (h : listed w.fs x.dep = none) : x.Blank w := by
  intro n
  rw [Part.look, needsRebuild, h]
  split
  · rfl
  · split <;> rfl

theorem seenAfter_blank : ∀ (xs : List Part) (n : ℕ), (∀ x ∈ xs, x.Blank w) → seenAfter w n xs = n
  | [], _, _ => rfl
  | x :: xs, n, h => by
    obtain ⟨hx, hxs⟩ := List.forall_mem_cons.mp h
    rw [seenAfter, List.foldl_cons, hx n]
    exact seenAfter_blank xs n hxs

theorem staleCmds_blank {ts : List (Part × Cmd)} (h : ∀ x ∈ ts.map Prod.fst, x.Blank w) :
    staleCmds w ts = ts.map Prod.snd := by
  rw [staleCmds, List.filter_eq_self.mpr]
  intro t ht
  rw [Part.stale, h t.1 (List.mem_map_of_mem ht) 0]

theorem pkgConfig_congr {env' : Env} (h : env'.pkg = env.pkg) : ∀ pkgs : List Str,
    pkgConfig env' pkgs = pkgConfig env pkgs
  | [] => rfl
  | pkg :: pkgs => by rw [pkgConfig, pkgConfig, h, pkgConfig_congr h pkgs]

/-- The command of the output depends on the flags, the target and the sources. -/
theorem outputCmd_congr {env' : Env} (hpkg : env'.pkg = env.pkg) (hglob : w'.glob = w.glob)
    (htarget : w'.target = w.target) : p.outputCmd env' gs w' = p.outputCmd env gs w := by
  simp only [Project.outputCmd, Project.cflags, Project.linkLibs, Project.objects, pkgConfig_congr hpkg,
    htarget, Project.fnames_glob hglob]

/-- A project with a source all of whose parts are blank is made as a whole, wherever. -/
theorem foreseen_blank {env' : Env} (hpkg : env'.pkg = env.pkg) (hglob : w'.glob = w.glob)
    (htarget : w'.target = w.target) (hsource : p.fnames w ≠ [])
    (hblank : ∀ x ∈ p.parts w w.target, x.Blank w)
    (hblank' : ∀ x ∈ p.parts w' w'.target, x.Blank w') (n : ℕ) :
    p.foreseen env' good w' gs n = p.foreseen env good w gs n := by
  have hplan : p.plan w' w'.target (p.cflags env') = p.plan w w.target (p.cflags env) := by
    rw [Project.plan, Project.plan, Project.cflags, Project.cflags, pkgConfig_congr hpkg, htarget,
      Project.fnames_glob hglob]
  have hmade : staleCmds w' (p.plan w' w'.target (p.cflags env')) =
      staleCmds w (p.plan w w.target (p.cflags env)) := by
    rw [staleCmds_blank (by rw [plan_parts]; exact hblank'),
      staleCmds_blank (by rw [plan_parts]; exact hblank),
      hplan]
  have hany : (staleCmds w (p.plan w w.target (p.cflags env))).any
      (fun cmd => cmd.kind = .compile) = true := by
    obtain ⟨f, hf⟩ := List.exists_mem_of_ne_nil _ hsource
    rw [staleCmds_blank (by rw [plan_parts]; exact hblank), List.any_eq_true]
    refine ⟨compileCmd (p.pchName w.target) w.target (p.cflags env) f, ?_, rfl⟩
    exact List.mem_map.mpr ⟨(sourcePart w.target f, _), List.mem_append_right _ (List.mem_map_of_mem hf), rfl⟩
  rw [Project.foreseen, Project.foreseen, pkgConfig_congr hpkg, hmade, outputCmd_congr hpkg hglob htarget,
    seenAfter_blank _ n hblank, seenAfter_blank _ n hblank']
  simp only [hany, Bool.true_or]

/-- With `-r` nothing that is on disk matters: the run starts the commands that a run without it starts in a
    tree that lists no dependencies, in that order, and its builds give the same answers. -/
theorem forced_run_as_clean {env' : Env} (hcalm : env.Calm) (hcalm' : env'.Calm) (hgood : env.Grades good)
    (hgood' : env'.Grades good) (hpkg : env'.pkg = env.pkg) (r : Run) (hforced : r.rebuild = true)
    (before : List Act) (hprocs : w.procs = []) (hprocs' : w'.procs = []) :
    let r' : Run := { r with before := before, rebuild := false }
    let v := startRun r.target true r.makefile (r.before.foldl World.act w)
    let v' := startRun r.target false r.makefile (before.foldl World.act w')
    let ps := passed r.pre r.projects.zipIdx
    v'.glob = v.glob → (∀ p ∈ ps, p.fnames v ≠ []) →
    (∀ p ∈ ps, ∀ x ∈ p.parts v' r.target, listed v'.fs x.dep = none) → Untangled v' ps →
    (launched (r.exec env w).log).map (fun e => e.1.shape) =
        (launched (r'.exec env' w').log).map (fun e => e.1.shape) ∧
      returns (r.exec env w).log = returns (r'.exec env' w').log := by
  intro r' v v' ps hglob hsources hclean htangle
  have hv : startRun r.target r.rebuild r.makefile (r.before.foldl World.act w) = v := by rw [hforced]
  have hreads : ∀ x : Part, x.reads v = [] := fun x => if_pos rfl
  have huntangled : Untangled v ps :=
    ⟨htangle.named, List.pairwise_of_forall fun x y _ o _ ho => by simp [hreads] at ho,
      fun p _ x _ q _ ho => by simp [hreads] at ho, htangle.apart⟩
  obtain ⟨Z, hrun⟩ := huntangled.follows hcalm hgood (begun_alone r hprocs) rfl ⟨rfl, rfl⟩
  obtain ⟨Z', hrun'⟩ := htangle.follows hcalm' hgood' (begun_alone r' hprocs') rfl ⟨rfl, rfl⟩
  have hcourse : Course.ofRun env' good v' r.pre r.projects = Course.ofRun env good v r.pre r.projects := by
    rw [Course.ofRun, Course.ofRun]
    refine List.foldl_ext _ _ _ fun k ip hip => ?_
    rw [Course.round, Course.round]
    split
    · rename_i hpre
      have hp : ip.1 ∈ ps := List.mem_map.mpr ⟨ip, List.mem_filter.mpr ⟨hip, hpre⟩, rfl⟩
      rw [foreseen_blank hpkg hglob rfl (hsources _ hp) (fun x _ => blank_of_rebuild rfl x)
        fun x hx => blank_of_unlisted (hclean _ hp x hx)]
    · rfl
  rw [Run.exec, hv, hrun.launched, hrun.answers, ← hcourse]
  exact ⟨hrun'.launched.symm, hrun'.answers.symm⟩

/-- A machine with `n` processors on which a command is a success when what it makes is good. -/
def Env.graded (n : ℕ) (good : Str → Bool) : Env :=
  { Env.quiet n with
    fork := fun _ cmd _ =>
      some ⟨.exited (if good cmd.out then exitZero else ⟨1, by decide⟩),
        if good cmd.out then .written else .left, [], ": ".toList⟩ }

theorem graded_grades (n : ℕ) (good : Str → Bool) : (Env.graded n good).Grades good := by
  intro k cmd fs
  refine ⟨_, rfl, ?_⟩
  cases hgood : good cmd.out with
  | true => simp [Fate.ok, wexitstatus_exited]
  | false => simp [Fate.ok, wexitstatus_exited]

theorem graded_calm (n : ℕ) (good : Str → Bool) : (Env.graded n good).Calm :=
  fun _ _ ha => absurd ha List.not_mem_nil

/-- Two slots; the source of the library does not compile, and the program is linked all the same. -/
theorem run_follows_course_two :
    let good : Str → Bool := fun o => o != "obj//u.o".toList
    (launched (utilThenProg.exec (Env.graded 2 good) sourcesOnly).log).map (fun e => e.1.out) =
        ["bin/prog".toList, "obj//main.o".toList, "obj//u.o".toList] ∧
      returns (utilThenProg.exec (Env.graded 2 good) sourcesOnly).log = [(1, true), (0, false)] := by
  intro good
  obtain ⟨hcmds, hanswers, -⟩ := run_follows_course (w := sourcesOnly) (graded_calm 2 good)
    (graded_grades 2 good) utilThenProg rfl
    ⟨by decide +kernel, by decide +kernel, by decide +kernel, by decide +kernel⟩
  refine ⟨?_, hanswers.trans (by decide +kernel)⟩
  have houts := congrArg (List.map CmdShape.out) hcmds
  rw [List.map_map, List.map_reverse, List.map_map] at houts
  exact houts.trans (by decide +kernel)

/-- The tree with the program that was built, on two processors, and the sources alone, on one. -/
theorem forced_run_as_clean_built :
    let good : Str → Bool := fun o => o != "obj//u.o".toList
    (launched (({ utilThenProg with rebuild := true } : Run).exec (Env.graded 2 good) progBuilt).log).map
        (fun e => e.1.shape) =
      (launched (({ utilThenProg with before := [], rebuild := false } : Run).exec (Env.graded 1 good)
        sourcesOnly).log).map (fun e => e.1.shape) := by
  intro good
  exact And.left (forced_run_as_clean (graded_calm 2 good) (graded_calm 1 good) (graded_grades 2 good)
    (graded_grades 1 good) rfl { utilThenProg with rebuild := true } rfl [] rfl rfl rfl (by decide +kernel)
    (by decide +kernel) ⟨by decide +kernel, by decide +kernel, by decide +kernel, by decide +kernel⟩)

end Cake
