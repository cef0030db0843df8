import Cake.Files
import Cake.Reuse

/-! Which edits a skipped object has seen.

    A compile reads its prerequisites when it starts and stamps its object when it exits; the decision
    to skip is one strict comparison of whole seconds.

        start ────────── exit ──── end of that second
          │  an edit here is not noticed  │  an edit from here on is

    Every prerequisite of a skipped object is therefore the file the compile read, or was written in
    that window. -/

namespace Cake

variable {env : Env} {fits : Str → Str → Prop} {rs : List Run} {w w' : World}

/-- A file the child reads is the one it has read, or was written after the child started. -/
structure Reads (pr : Proc) (w : World) : Prop where
  start : pr.start ≤ w.clock
  files : ∀ t ∈ pr.fate.reads, ∀ f, w.fs t = some f →
    (t, f) ∈ pr.seen ∨ ∃ u, Written t u w.log ∧ pr.start ≤ u ∧ f.mtime = sec u

theorem Reads.step {pr : Proc} (hs : Stamped env rs) (h : Step env fits rs w w') (hr : Reads pr w) :
    Reads pr w' := by
  obtain ⟨hclock, new, hlog⟩ := h.grows
  refine ⟨hr.start.trans hclock, fun t ht f hf => ?_⟩
  rcases h.files hs t f hf with hf | ⟨hm, hw⟩
  · rcases hr.files t ht f hf with hseen | ⟨u, hu, hle, hm⟩
    · exact Or.inl hseen
    · exact Or.inr ⟨u, hlog ▸ hu.mono new, hle, hm⟩
  · exact Or.inr ⟨w'.clock, hw, hr.start.trans hclock, hm⟩

/-- So it is for the children in the table and for those that have written their files. -/
structure Tracked (w : World) : Prop where
  procs : ∀ pr ∈ w.procs, Reads pr w
  log : ∀ pr v, .wrote pr v ∈ w.log → Reads pr w

theorem Tracked.step (hs : Stamped env rs) (hp : w.PidsOk) (h : Step env fits rs w w')
    (ht : Tracked w) : Tracked w' := by
  refine ⟨fun q hq => ?_, fun pr v hv => ?_⟩
  · rcases h.child hp hq with hq | ⟨q₀, hq₀, rfl, -⟩ | ⟨cmd, f, -, rfl, hfs⟩
    · exact (ht.procs q hq).step hs h
    · obtain ⟨hstart, hfiles⟩ := (ht.procs q₀ hq₀).step hs h
      exact ⟨hstart, hfiles⟩
    · -- a child that has just started has read what is there
      refine ⟨h.grows.1, fun t ht f hf => Or.inl ?_⟩
      rw [hfs] at hf
      exact List.mem_filterMap.mpr ⟨t, ht, by rw [hf]; rfl⟩
  · rcases h.wrote hv with hv | hpr
    · exact (ht.log pr v hv).step hs h
    · exact (ht.procs pr hpr).step hs h

/-! ### The object and its dependency file -/

/-- Of the commands of the history, those that leave this dependency file are the ones that write this
    object. -/
def Paired (env : Env) (fits : Str → Str → Prop) (rs : List Run) (obj dep : Str) : Prop :=
  ∀ cmd, IssuedBy env fits rs cmd → World.hasDep cmd.kind = true →
    (cmd.out = obj ↔ gccDepName cmd.out = dep)

/-- No command has a dependency file for output. -/
theorem issued_ne_dep {gs : List Project} {p : Project} {target : Str} {cmd : Cmd}
    (h : p.Issues env fits gs target cmd) {out : Str} (hout : baseobjdir <+: out) :
    cmd.out ≠ gccDepName out := by
  cases h with
  | compile => exact mkobjname_ne_gccDepName _ _ _
  | pch => exact mkpchname_ne_gccDepName _ _ _
  | link _ _ ho => exact ho ▸ (obj_ne_outPath (gccDepName_under hout) p).symm
  | ar _ _ ho => exact ho ▸ (obj_ne_outPath (gccDepName_under hout) p).symm

/-- Where they are paired, the dependency file that is read was left by the last writer of the
    object. -/
theorem Made.beside (h : Made (ChildOf env fits rs) w) {target fname : Str} {tokens : List Str}
    (hpair : Paired env fits rs (mkobjname (objdir target) fname) (mkdepname (objdir target) fname))
    (hl : listed w.fs (mkdepname (objdir target) fname) = some tokens) :
    lastWrote (mkdepname (objdir target) fname) w.log =
      lastWrote (mkobjname (objdir target) fname) w.log := by
  obtain ⟨pd, -, -, hd, hdn, ⟨⟨r, -, p, -, hi⟩, -⟩, -, -⟩ :=
    h.dep_writer (product_obj (mkdepname_under target fname)) hl
  have hunder := issued_dep hi hd
  refine lastWrote_congr fun pr v hv => ?_
  obtain ⟨⟨hissued, -⟩, -⟩ := h.log pr v hv
  obtain ⟨r', -, q, -, hq⟩ := id hissued
  have hne : pr.cmd.out ≠ mkdepname (objdir target) fname := hdn ▸ issued_ne_dep hq hunder
  have hobj : gccDepName pr.cmd.out ≠ mkobjname (objdir target) fname :=
    (mkobjname_ne_gccDepName _ _ _).symm
  rw [Proc.writes, Proc.writes, decide_eq_false hne, decide_eq_false hobj]
  cases hk : World.hasDep pr.cmd.kind with
  | true => simp [hpair pr.cmd hissued hk]
  | false =>
    have hout : pr.cmd.out ≠ mkobjname (objdir target) fname := fun hout => by
      have hw : pr.writes (mkobjname (objdir target) fname) = true := by simp [Proc.writes, hout]
      rw [(writes_object hq (mkobjname_under target fname) hw).1] at hk
      cases hk
    simp [hout]

/-! ### Skipped sources -/

/-- The object of a skipped source was compiled from the files its dependency file lists: each is the
    one the compile read, or was written after the compile started and no later than in the second in
    which it exited. -/
def Current (env : Env) (fits : Str → Str → Prop) (rs : List Run) (e : Ev) (earlier : List Ev) :
    Prop :=
  match e with
  | .skip cmd v => ∃ fname, cmd.ins = [fname] ∧
      (Paired env fits rs cmd.out (mkdepname (objdir v.target) fname) →
        ∃ pr fin tokens, lastWrote cmd.out earlier = some (pr, fin) ∧ pr.cmd.kind = .compile ∧
          pr.cmd.out = cmd.out ∧ listed v.fs (mkdepname (objdir v.target) fname) = some tokens ∧
          ∀ t ∈ tokens, ∃ f, v.fs t = some f ∧ ((t, f) ∈ pr.seen ∨
            ∃ u, Written t u earlier ∧ pr.start ≤ u ∧ sec u ≤ sec fin ∧ f.mtime = sec u))
  | _ => True

theorem current_step (hdeps : env.HonestDeps) (h : Step env fits rs w w')
    (hm : Made (ChildOf env fits rs) w) (ht : Tracked w)
    (hw : Logs.Every (Current env fits rs) w.log) : Logs.Every (Current env fits rs) w'.log := by
  cases h with
  | move hr hp hmove =>
    refine hmove.every (fun e he => ?_) hw
    cases e with
    | skip cmd v =>
      obtain ⟨rfl, htarget, c, l, fname, -, -, rfl, hst⟩ := he
      refine ⟨fname, rfl, fun hpair => ?_⟩
      rw [World.snap, htarget] at hpair ⊢
      obtain ⟨pr, fin, hlast, hobj, -, hk, hout⟩ := hm.object_writer hdeps.lists hst
      obtain ⟨tokens, hl, hpass⟩ := hst
      obtain ⟨pd, now, hdep, hd, -, ⟨-, k, fs, hfork⟩, ho, htext⟩ :=
        hm.dep_writer (product_obj (mkdepname_under _ fname)) hl
      have hsame : some (pd, now) = some (pr, fin) := by
        rw [← hlast, ← hdep]; exact hm.beside hpair hl
      obtain ⟨rfl, rfl⟩ : pd = pr ∧ now = fin := by simpa using hsame
      refine ⟨pd, now, tokens, hlast, hk, hout, hl, fun t ht' => ?_⟩
      obtain ⟨⟨o, f, ho', hf, -, hle⟩, -⟩ := hpass t ht'
      obtain ⟨ts, hts, -, hreads⟩ := hdeps k pd.cmd fs pd.fate hfork hd ho
      obtain rfl : tokens = ts := Option.some.inj (htext.symm.trans hts)
      obtain ⟨⟨v, hv, -⟩, -⟩ := lastWrote_mem hlast
      obtain rfl := Option.some.inj (hobj.symm.trans ho')
      refine ⟨f, hf, ?_⟩
      rcases (ht.log pd v hv).files t (hreads t ht') f hf with hseen | ⟨u, hu, hstart, hm⟩
      · exact Or.inl hseen
      · exact Or.inr ⟨u, hu, hstart, hm ▸ hle, hm⟩
    | _ => trivial
  | @before r a hr ha => exact w.act_every a (fun _ _ => trivial) (fun _ _ => trivial) hw
  | start hr => exact hw.cons trivial
  | leave i ret => exact hw.cons trivial

/-- However edits and compiles interleave: a prerequisite of a skipped object is the file that was
    read, or it changed between the start of the compile and the end of the second of its exit. -/
theorem no_edit_lost (hdeps : env.HonestDeps) (hs : Spared env rs) (hst : Stamped env rs)
    (hl : Listings env rs w fits) (hw : w.Clean) :
    Logs.Every (Current env fits rs) (history env rs w).log := by
  have htrace := (trace_history rs w (fun _ h => h) hl).1
  have htracked : Tracked w := ⟨by simp [hw.procs], by simp [hw.log]⟩
  refine (Moves.keeps (I := fun v => Made (ChildOf env fits rs) v ∧ v.PidsOk ∧ Tracked v ∧
    Logs.Every (Current env fits rs) v.log) (fun u v hstep ⟨hm, hp, ht, hu⟩ => ?_) htrace
    ⟨hw.made, hw.pids, htracked, ?_⟩).2.2.2
  · exact ⟨hm.step hs hstep, hstep.pids hp, ht.step hst hp hstep, current_step hdeps hstep hm ht hu⟩
  · rw [hw.log]; exact Logs.every_nil

/-- gcc on the tree of one source, which a user writes a moment after the first compile has started. -/
def Env.oneEdit : Env :=
  { Env.oneSource with
    sched := fun k => if k = 1 then [.tick 100000000, .edit "a.c".toList "new".toList] else [] }

theorem oneEdit_acts {k : ℕ} {a : Act} (h : a ∈ Env.oneEdit.sched k) :
    a = .tick 100000000 ∨ a = .edit "a.c".toList "new".toList := by
  have h' : a ∈ (if k = 1 then [Act.tick 100000000, .edit "a.c".toList "new".toList] else []) := h
  split at h'
  · simpa using h'
  · exact absurd h' List.not_mem_nil

/-- The one command with a dependency file that such a run issues. -/
theorem oneProgram_paired (target : String) (env : Env) :
    Paired env (fun _ _ => False) [oneProgram target, oneProgram target]
      (mkobjname (objdir target.toList) "a.c".toList)
      (gccDepName (mkobjname (objdir target.toList) "a.c".toList)) := by
  rintro cmd ⟨r, hr, p, hp, hi⟩ hd
  have hr' : r = oneProgram target := by simpa using hr
  subst hr'
  have hp' : p = { Project.fresh .program "prog".toList with files := ["a.c".toList] } := by
    simpa [oneProgram] using hp
  subst hp'
  suffices hout : cmd.out = mkobjname (objdir target.toList) "a.c".toList by simp [hout]
  cases hi with
  | compile hpkg hf =>
    obtain ⟨pat, hpat, hf | hf⟩ := hf
    · have hpats : pat ∈ ["a.c".toList] := hpat
      rw [hf, List.mem_singleton.mp hpats]; rfl
    · exact hf.elim
  | pch hpkg hh =>
    have hnone : ["a.c".toList].find? isHeader = none := by decide
    cases hnone.symm.trans hh
  | link _ hk => rw [hk] at hd; cases hd
  | ar _ hk => rw [hk] at hd; cases hd

/-- The second run skips the source although the compile has not read the edit. -/
theorem no_edit_lost_run :
    Logs.Every (Current Env.oneEdit (fun _ _ => False) [oneProgram "debug", oneProgram "debug"])
      (history Env.oneEdit [oneProgram "debug", oneProgram "debug"] World.oneSource).log ∧
    skips (history Env.oneEdit [oneProgram "debug", oneProgram "debug"] World.oneSource).log =
      ["obj/debug/a.o".toList] ∧
    Paired Env.oneEdit (fun _ _ => False) [oneProgram "debug", oneProgram "debug"]
      "obj/debug/a.o".toList "obj/debug/a.d".toList := by
  have hb : ∀ r ∈ [oneProgram "debug", oneProgram "debug"], r.before = [] := by simp [oneProgram]
  have hs : Spared Env.oneEdit [oneProgram "debug", oneProgram "debug"] := by
    refine ⟨fun k a ha => ?_, fun r hr a ha => by simp [hb r hr] at ha⟩
    rcases oneEdit_acts ha with rfl | rfl
    · trivial
    · exact (by decide : isProduct "a.c".toList = false)
  have hst : Stamped Env.oneEdit [oneProgram "debug", oneProgram "debug"] := by
    refine ⟨fun k a ha => ?_, fun r hr a ha => by simp [hb r hr] at ha⟩
    rcases oneEdit_acts ha with rfl | rfl <;> trivial
  have hl : Listings Env.oneEdit [oneProgram "debug", oneProgram "debug"] World.oneSource
      (fun _ _ => False) := by
    refine ⟨fun k g hg => ?_, fun r hr g hg => by simp [hb r hr] at hg,
      fun _ _ hf => absurd hf List.not_mem_nil⟩
    rcases oneEdit_acts hg with h | h <;> cases h
  exact ⟨no_edit_lost oneSource_deps hs hst hl oneSource_clean, by decide +kernel,
    oneProgram_paired "debug" _⟩

/-- The object of a skipped source was compiled from the present files. -/
def FromPresent (e : Ev) (earlier : List Ev) : Prop :=
  match e with
  | .skip cmd v => (lastWrote cmd.out earlier).any (fun x =>
      ((listed v.fs (mkdepname (objdir v.target) (cmd.ins.headD []))).getD []).all (fun t =>
        (v.fs t).any (fun f => decide ((t, f) ∈ x.1.seen)))) = true
  | _ => True

instance : ∀ e log, Decidable (FromPresent e log)
  | .skip _ _, _ => by unfold FromPresent; infer_instance
  | .run _, _ | .build _, _ | .exec _ _, _ | .wrote _ _, _ | .reaped _, _ | .stolen _, _ | .echild, _
  | .edit _ _, _ | .kept _ _, _ | .leave _ _, _ => isTrue trivial

/-- The edit between the start and the exit of the compile is lost. -/
theorem edit_lost : ¬ Logs.Every FromPresent
    (history Env.oneEdit [oneProgram "debug", oneProgram "debug"] World.oneSource).log := by
  decide +kernel

end Cake
