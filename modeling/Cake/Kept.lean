import Cake.Outlook

/-! When an output is kept although it is older than what it is made of.

    `link` and `staticlib` do not look at the dates of objects and archives. They keep an output when no
    source was recompiled in this build and `newest_time`, the newest prerequisite that `needs_rebuild`
    has read in this run, is not newer than the output. An object or archive that was rebuilt for
    another reason (no dependency file, a missing object, `-r`) has raised no `newest_time`, and once its
    build is over nothing tells that it is newer than the output.

    Which outputs a run may keep, and what may be newer than them, can be told from the tree it begins with. -/

namespace Cake

variable {env : Env} {rs : List Run} {gs : List Project} {p : Project} {v w w' : World} {o : Outlook}

/-- The archives of `libs` that were written in this run after `out` was last written: what there was
    at these moments. -/
def rearchived (out : Str) (libs : List Str) : List Ev → List Snap
  | [] => []
  | .run _ :: _ => []
  | .wrote pr v :: log =>
    if pr.writes out then []
    else if pr.cmd.kind = .ar ∧ pr.cmd.out ∈ libs then v :: rearchived out libs log
    else rearchived out libs log
  | _ :: log => rearchived out libs log

/-- A kept output is at least as new as the objects and archives it is made of, and no archive of it was
    rebuilt in this run since it was written. -/
structure NotStale (cmd : Cmd) (v : Snap) (log : List Ev) : Prop where
  files : ∃ f, v.fs cmd.out = some f ∧ ∀ x ∈ cmd.ins ++ cmd.libs, mtimeOf v.fs x ≤ f.mtime
  archives : rearchived cmd.out cmd.libs log = []

theorem rearchived_wrote (out : Str) (libs : List Str) (pr : Proc) (v : Snap) (log : List Ev) :
    rearchived out libs (.wrote pr v :: log) = if pr.writes out then [] else
      if pr.cmd.kind = .ar ∧ pr.cmd.out ∈ libs then v :: rearchived out libs log
      else rearchived out libs log := rfl

theorem rearchived_nil {out : Str} {libs : List Str} : ∀ {log : List Ev},
    (∀ pr ∈ landed log, pr.cmd.kind = .ar → pr.cmd.out ∉ libs) → rearchived out libs log = []
  | [], _ => rfl
  | e :: log, h => by
    cases e with
    | run v => rfl
    | wrote pr v =>
      have ih : rearchived out libs log = [] := rearchived_nil fun q hq => h q (List.mem_cons_of_mem _ hq)
      rw [rearchived_wrote]
      split
      · rfl
      · rw [if_neg fun hlib => h pr List.mem_cons_self hlib.1 hlib.2]
        exact ih
    | _ => exact (rearchived_nil h : rearchived out libs log = [])

/-! ### What a run may keep -/

namespace Project

/-- The archives its link command names. -/
def linked (gs : List Project) (p : Project) : List Str :=
  if p.type = .program then p.archives gs else []

/-- As the tree stands when the run begins, the output will not be kept; or it is as new as what it is made
    of, and none of that is written before. -/
def Sound (gs : List Project) (v : World) (o : Outlook) (p : Project) : Prop :=
  o.touches p.outPath = false ∧ (p.Relinked v o ∨
    ∀ x ∈ p.objects v ++ p.linked gs, o.touches x = false ∧ mtimeOf v.fs x ≤ mtimeOf v.fs p.outPath)

instance (gs : List Project) (v : World) (o : Outlook) (p : Project) : Decidable (p.Sound gs v o) := by
  unfold Sound
  infer_instance

end Project

/-- Every output of a run that begins in `v` is sound. -/
def Run.Sound (env : Env) (r : Run) (v : World) : Prop :=
  ∀ k p, r.projects[k]? = some p → r.pre k = true → p.Builds env →
    p.Sound r.projects v (outlookAt env r.pre r.projects v k)

/-- In every run of the history, as the tree stands when it begins. -/
def SoundRuns (env : Env) : List Run → World → Prop
  | [], _ => True
  | r :: rs, w => r.Sound env (r.start w) ∧ SoundRuns env rs (r.exec env w)

/-! ### A build that has started no compile -/

/-- The precompiled header step of the project does not write the file. -/
def BesideHeader (p : Project) (target o : Str) : Prop :=
  ∀ h, p.files.find? isHeader = some h →
    o ≠ mkpchname (objdir target) h ∧ o ≠ gccDepName (mkpchname (objdir target) h)

theorem BesideHeader.outPath (p q : Project) (target : Str) : BesideHeader p target q.outPath :=
  fun h _ => ⟨(obj_ne_outPath (mkpchname_under target h) q).symm,
    (obj_ne_outPath (gccDepName_under (mkpchname_under target h)) q).symm⟩

theorem BesideHeader.object (p : Project) (target f : Str) :
    BesideHeader p target (mkobjname (objdir target) f) :=
  fun _ _ => ⟨mkobjname_ne_mkpchname _ _ _ _, mkobjname_ne_gccDepName _ _ _⟩

theorem BesideHeader.library (p : Project) (target name : Str) :
    BesideHeader p target (libName name) :=
  fun h _ => ⟨(obj_ne_lib (mkpchname_under target h) (libName_under name)).symm,
    (obj_ne_lib (gccDepName_under (mkpchname_under target h)) (libName_under name)).symm⟩

/-- Such a build has written for its header alone. -/
theorem Foreseen.uncompiled (hcalm : env.Calm) (cflags : Str) (h : Foreseen v o w)
    (hst : started (p.ready env cflags w).w.log = []) :
    Near v (fun t => t ∈ o.touched ∨ ¬ BesideHeader p v.target t) (p.ready env cflags w).w := by
  refine (h.unstarted hcalm cflags hst).near.mono fun t ht => ?_
  refine (looks_touched ht).imp_right ?_
  rintro ⟨x, hx, hwrites⟩ hbeside
  obtain ⟨hd, hfind, rfl⟩ := List.mem_map.mp hx
  obtain ⟨hout, hdep⟩ := hbeside hd (Option.mem_toList.mp hfind)
  rw [Part.writes, List.mem_cons, List.mem_singleton] at hwrites
  exact hwrites.elim hout hdep

theorem mem_linked {fits : Str → Str → Prop} {target : Str} {cmd : Cmd} (h : p.Issues env fits gs target cmd) :
    ∀ a ∈ cmd.libs, a ∈ p.linked gs := by
  intro a ha
  cases h with
  | compile => exact absurd ha List.not_mem_nil
  | pch => exact absurd ha List.not_mem_nil
  | link htype _ _ _ hl =>
    rw [Project.linked, if_pos htype]
    exact hl ▸ ha
  | ar _ _ _ _ hl => rw [hl] at ha; exact absurd ha List.not_mem_nil

theorem linked_library {a : Str} (h : a ∈ p.linked gs) : ∃ name, a = libName name := by
  rw [Project.linked] at h
  split at h
  · obtain ⟨name, -, rfl⟩ := List.mem_map.mp h
    exact ⟨name, rfl⟩
  · exact absurd h List.not_mem_nil

/-! ### The decision -/

/-- A sound output that is kept is not stale. -/
theorem Foreseen.notStale (hforks : env.Forks) (hcalm : env.Calm) (h : Foreseen v o w)
    (hsound : p.Sound gs v o) {c : Str} {fits : Str → Str → Prop} {cmd : Cmd}
    (hi : p.Issues env fits gs w.target cmd) (ho : cmd.out = p.outPath)
    (hins : cmd.ins = (p.ready env (p.flagText c) w).b.linklist)
    (hn : (p.ready env (p.flagText c) w).b.nfailed = 0)
    (hup : upToDate (p.ready env (p.flagText c) w) cmd.out = true) :
    NotStale cmd (p.ready env (p.flagText c) w).w.snap (p.ready env (p.flagText c) w).w.log := by
  obtain ⟨hcount, f, hf, -, -⟩ := upToDate_fresh hup
  obtain ⟨hst, hperm⟩ := nothing_compiled hforks h.confined.near.pids p (p.flagText c) hn hcount
  have hconfined := (h.ready (p := p) hcalm (p.flagText c)).confined
  obtain ⟨htouched, hcase⟩ := hsound
  have hfile : v.fs p.outPath = some f := by
    rw [← hconfined.near.fs _ (outPath_touched (p := p) p (touches_iff.mp htouched)), ← ho]
    exact hf
  have hmade := hcase.resolve_left (h.relinked hforks hcalm (p.flagText c) htouched hn (ho ▸ hup))
  rw [mtimeOf_some hfile] at hmade
  -- the objects of the skipped sources are those of all
  have hobjects : ∀ x ∈ cmd.ins, x ∈ p.objects v := by
    have hasked := ready_asked env p (p.flagText c) w
    rw [asked, hst, List.map_nil, Multiset.coe_nil, add_zero, p.sources_calm hcalm,
      Project.fnames_glob h.confined.near.glob, h.confined.near.target] at hasked
    intro x hx
    rw [hins] at hx
    exact (Multiset.coe_eq_coe.mp hasked).mem_iff.mp (hperm.mem_iff.mp hx)
  have hbeside : ∀ x ∈ p.objects v ++ p.linked gs, BesideHeader p v.target x := fun x hx => by
    rcases List.mem_append.mp hx with hx | hx
    · obtain ⟨g, -, rfl⟩ := List.mem_map.mp hx
      exact BesideHeader.object p _ g
    · obtain ⟨name, rfl⟩ := linked_library hx
      exact BesideHeader.library p _ name
  refine ⟨⟨f, hf, fun x hx => ?_⟩, rearchived_nil fun pr hpr _ hlib => ?_⟩
  · have hx' : x ∈ p.objects v ++ p.linked gs := by
      rcases List.mem_append.mp hx with hx | hx
      · exact List.mem_append_left _ (hobjects x hx)
      · exact List.mem_append_right _ (mem_linked hi x hx)
    have hsame := (h.uncompiled hcalm (p.flagText c) hst).fs x fun hx => hx.elim (touches_iff.mp (hmade x hx').1)
      (not_not.mpr (hbeside x hx'))
    rw [show (p.ready env (p.flagText c) w).w.snap.fs = (p.ready env (p.flagText c) w).w.fs from rfl,
      mtimeOf_congr hsame]
    exact (hmade x hx').2
  · have hlinked := mem_linked hi _ hlib
    obtain ⟨name, hname⟩ := linked_library hlinked
    rcases outlook_touched (hconfined.landed pr hpr pr.cmd.out (by simp [Proc.writes])) with ht | hunder
    · exact touches_iff.mp (hmade _ (List.mem_append_right _ hlinked)).1 ht
    · exact obj_ne_lib hunder (libName_under name) hname

/-! ### Runs -/

/-- A kept output is not stale. -/
def KeptFresh (e : Ev) (log : List Ev) : Prop :=
  match e with
  | .kept cmd v => NotStale cmd v log
  | _ => True

theorem Foreseen.kept (hforks : env.Forks) (hcalm : env.Calm) (h : Foreseen v o w)
    (hsound : p.Builds env → p.Sound gs v o) (hkept : Logs.Every KeptFresh w.log) :
    Logs.Every KeptFresh (p.compile env gs w).2.w.log := by
  have henv : env.Lists (fun _ _ => True) := fun _ _ _ _ _ _ => trivial
  have hl : w.Lists (fun _ _ => True) := fun _ _ _ => trivial
  let R : Rules := ⟨p.Issues env (fun _ _ => True) gs w.target, fun _ _ => True,
    fun cmd u => NotStale cmd u.snap u.log, True⟩
  have hpath : Path env R w (p.compile env gs w).2.w := by
    by_cases hnamed : p.outTarget ≠ [] ∧ p.type ≠ .sharedLibrary
    · refine path_compile henv hl trivial (fun _ h => h) (fun _ _ _ => trivial) ?_
      intro c l hpkg cmd hi ho hins hn hup
      exact h.notStale hforks hcalm (hsound ⟨⟨c, l, hpkg⟩, hnamed⟩) hi ho hins hn hup
    · cases hpkg : pkgConfig env p.pkgdepends with
      | none =>
        rw [Project.compile]
        simp only [hpkg]
        exact .build trivial .refl
      | some cl =>
        obtain ⟨c, l⟩ := cl
        rw [p.compile_unnamed hpkg hnamed]
        exact (path_after (R := R) henv hl hpkg (fun _ hi _ => hi) (fun _ _ _ => trivial) _).build trivial
  refine Moves.keeps (I := fun u => Logs.Every KeptFresh u.log) (fun u u' hm hu => ?_) hpath hkept
  refine hm.every (fun e he => ?_) hu
  cases e with
  | kept cmd u => exact he.1 ▸ he.2
  | _ => trivial

theorem kept_mainLoop (hforks : env.Forks) (hcalm : env.Calm) {pre : ℕ → Bool} (h : Foreseen v (.begin v) v)
    (hsound : ∀ k p, gs[k]? = some p → pre k = true → p.Builds env →
      p.Sound gs v (outlookAt env pre gs v k)) (hkept : Logs.Every KeptFresh v.log) :
    (mainLoop env pre gs v).PidsOk ∧ Logs.Every KeptFresh (mainLoop env pre gs v).log := by
  have hrun := mainLoop_induct env pre gs (w := v) (P := fun k w =>
    Foreseen v (outlookAt env pre gs v k) w ∧ Logs.Every KeptFresh w.log) ⟨h, hkept⟩
    fun k p w hp ⟨hw, hk⟩ => by
      rw [outlookAt_succ hp]
      refine ⟨hw.step hforks hcalm, ?_⟩
      rw [mainStep]
      split
      · rename_i hpre
        exact (hw.kept hforks hcalm (hsound k p hp hpre) hk).cons trivial
      · exact hk
  exact ⟨hrun.1.confined.near.pids, hrun.2⟩

theorem kept_acts : ∀ (as : List Act) {w : World}, Logs.Every KeptFresh w.log →
    Logs.Every KeptFresh (as.foldl World.act w).log
  | [], _, h => h
  | a :: as, w, h => kept_acts as (w.act_every a (fun _ _ => trivial) (fun _ _ => trivial) h)

/-- Whatever the runs, when every output of each of them is sound as the tree stands when it begins: an output
    that is kept is at least as new as what it is made of, and no archive of it was rebuilt in this run after
    it. -/
theorem kept_outputs (hforks : env.Forks) (hcalm : env.Calm) (hprocs : w.procs = []) (hlog : w.log = [])
    (hsound : SoundRuns env rs w) : Logs.Every KeptFresh (history env rs w).log := by
  have hruns : ∀ (rs : List Run) (w : World), w.PidsOk → Logs.Every KeptFresh w.log → SoundRuns env rs w →
      Logs.Every KeptFresh (history env rs w).log := by
    intro rs
    induction rs with
    | nil => exact fun w _ h _ => h
    | cons r rs ih =>
      rintro w hpids hkept ⟨hr, hrs⟩
      have hstart : (r.start w).PidsOk := by
        have hacts := hpids.same (World.same_acts r.before w)
        exact ⟨hacts.nodup, hacts.bound⟩
      have hbefore : Logs.Every KeptFresh (r.start w).log := (kept_acts r.before hkept).cons trivial
      obtain ⟨hpids', hkept'⟩ := kept_mainLoop hforks hcalm (.begin hstart rfl rfl rfl) hr hbefore
      exact ih (r.exec env w) hpids' hkept' hrs
  exact hruns rs w (alone_of_procs hprocs).pids (by rw [hlog]; exact Logs.every_nil) hsound

/-- gcc, which depends on its first input alone. -/
def Env.gcc : Env :=
  { Env.quiet 1 with
    fork := fun _ cmd _ => some ⟨.exited exitZero, .written, cmd.ins, ": ".toList ++ cmd.ins.headD []⟩ }

/-- The sources of a library are listed by a pattern. -/
def listing (names : List String) : Str → List Str :=
  fun pat => if pat = "u/*.c".toList then names.map String.toList else []

/-- A run of cake on a library and a program that depends on it. -/
def utilAndProg (before : List Act) : Run :=
  { before := before, target := [], rebuild := false, makefile := []
    projects := makefile [.library "util".toList, .program "prog".toList, .depend 1 0,
      .addFiles 0 ["u/*.c".toList], .addFiles 1 ["main.c".toList]]
    pre := fun _ => true }

/-- Ten seconds after the first run a user adds a source to the library. -/
def newSource : List Run :=
  [utilAndProg [.edit "u/a.c".toList [], .edit "main.c".toList [], .relist (listing ["u/a.c"])],
    utilAndProg [.tick 10000000000, .edit "u/b.c".toList [], .relist (listing ["u/a.c", "u/b.c"])]]

instance (cmd : Cmd) (v : Snap) (log : List Ev) : Decidable (NotStale cmd v log) :=
  decidable_of_iff ((∃ f ∈ v.fs cmd.out, ∀ x ∈ cmd.ins ++ cmd.libs, mtimeOf v.fs x ≤ f.mtime) ∧
    (rearchived cmd.out cmd.libs log).isEmpty = true)
    ⟨fun h => ⟨h.1, List.isEmpty_iff.mp h.2⟩, fun h => ⟨h.files, List.isEmpty_iff.mpr h.archives⟩⟩

instance : ∀ e log, Decidable (KeptFresh e log)
  | .kept _ _, _ => by unfold KeptFresh; infer_instance
  | .run _, _ | .build _, _ | .exec _ _, _ | .wrote _ _, _ | .reaped _, _ | .stolen _, _ | .echild, _
  | .edit _ _, _ | .skip _ _, _ | .leave _ _, _ => isTrue trivial

theorem Run.sound_of_all {r : Run} (h : ∀ ip ∈ r.projects.zipIdx,
    ip.1.Sound r.projects v (outlookAt env r.pre r.projects v ip.2)) : r.Sound env v := by
  intro k p hp _ _
  exact h (p, k) (List.mem_zipIdx_iff_getElem?.mpr hp)

/-- A source of the library is edited; after that there is a run with nothing to do. -/
def editedSource : List Run :=
  [utilAndProg [.edit "u/a.c".toList [], .edit "main.c".toList [], .relist (listing ["u/a.c"])],
    utilAndProg [.tick 10000000000, .edit "u/a.c".toList [], .tick 10000000000], utilAndProg []]

/-- The second run links the program anew, the third one keeps it. -/
theorem kept_outputs_run : Logs.Every KeptFresh (history Env.gcc editedSource World.empty).log ∧
    keeps (history Env.gcc editedSource World.empty).log = ["bin/prog".toList, "lib/libutil.a".toList] := by
  refine ⟨kept_outputs (fun _ _ _ => ⟨_, rfl⟩) (fun _ _ ha => absurd ha List.not_mem_nil) rfl rfl
    ⟨Run.sound_of_all ?_, Run.sound_of_all ?_, Run.sound_of_all ?_, trivial⟩, ?_⟩ <;> decide +kernel

/-- The library is archived anew, with the new source; the program is kept. -/
theorem kept_stale : ¬ Logs.Every KeptFresh (history Env.gcc newSource World.empty).log := by
  decide +kernel

end Cake
