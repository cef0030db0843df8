import Cake.Isolation
import Cake.Products

/-! What a skipped object was compiled with.

    `needs_rebuild` looks at dates. The object of a skipped source is therefore the one its last
    compile left, and that compile may have been issued by any project of any run whose source has the
    same object name: the path of an object is made of the target and the source name, while the flags
    belong to the project.

    A path may mean the file of another path: the object of `../common/util.c` is one file under every
    target. The results here are about the files that paths mean, in histories that call each file they
    write by one name. -/

namespace Cake

variable {env : Env} {fits : Str → Str → Prop} {rs : List Run} {w w' : World}

/-- A compiler that writes its output also writes a dependency file that lists something. -/
def Env.ListsDeps (env : Env) : Prop :=
  ∀ k cmd fs f, env.fork k cmd fs = some f → World.hasDep cmd.kind = true → f.outcome = .written →
    ∃ ts, depTokens f.depText = some ts ∧ ts ≠ []

/-- A compiler that writes its output also writes a dependency file, whose list is not empty and names
    files the compiler has read. -/
def Env.HonestDeps (env : Env) : Prop :=
  ∀ k cmd fs f, env.fork k cmd fs = some f → World.hasDep cmd.kind = true → f.outcome = .written →
    ∃ ts, depTokens f.depText = some ts ∧ ts ≠ [] ∧ ∀ t ∈ ts, t ∈ f.reads

theorem Env.HonestDeps.lists (h : env.HonestDeps) : env.ListsDeps := by
  intro k cmd fs f hf hd ho
  obtain ⟨ts, hts, hne, -⟩ := h k cmd fs f hf hd ho
  exact ⟨ts, hts, hne⟩

/-- A dependency file that can be read was written by a compiler, beside its output. -/
theorem Made.dep_writer (h : Made (ChildOf env fits rs) w) {dep : Str} (hdep : isProduct dep = true)
    {tokens : List Str} (hl : listed w.fs dep = some tokens) :
    ∃ pr now, lastWrote dep w.log = some (pr, now) ∧ World.hasDep pr.cmd.kind = true ∧
      gccDepName pr.cmd.out = dep ∧ ChildOf env fits rs pr.cmd pr.fate ∧
      pr.fate.outcome = .written ∧ depTokens pr.fate.depText = some tokens := by
  rw [listed, readFile] at hl
  cases hfs : w.fs dep with
  | none => rw [hfs] at hl; cases hl
  | some f =>
    obtain ⟨pr, now, hlast, rfl⟩ := h.owned dep hdep f hfs
    obtain ⟨⟨v, hmem, -⟩, hwr⟩ := lastWrote_mem hlast
    obtain ⟨hc, ho⟩ := h.log pr v hmem
    rw [hfs] at hl
    simp only [Proc.writes, Bool.or_eq_true, Bool.and_eq_true, decide_eq_true_eq] at hwr
    rcases hwr with hout | ⟨hd, hdn⟩
    · rw [Proc.file, if_pos hout] at hl
      cases hl
    · have hne : pr.cmd.out ≠ dep := fun hout => by
        rw [Proc.file, if_pos hout] at hl; cases hl
      rw [Proc.file, if_neg hne] at hl
      refine ⟨pr, now, hlast, hd, hdn, hc, ho, ?_⟩
      dsimp only at hl
      split at hl
      · cases hl
      · exact hl

/-- The object of a source that stands was written by a compile of that object. -/
theorem Made.object_writer (hdeps : env.ListsDeps) (h : Made (ChildOf env fits rs) w)
    {target fname : Str} (hst : Stands w.fs w.makefileTime w.newestTime
      (mkdepname (objdir target) fname) (mkobjname (objdir target) fname)) :
    ∃ pr now, lastWrote (mkobjname (objdir target) fname) w.log = some (pr, now) ∧
      w.fs (mkobjname (objdir target) fname) = some ⟨sec now, []⟩ ∧
      ChildOf env fits rs pr.cmd pr.fate ∧ pr.cmd.kind = .compile ∧
      pr.cmd.out = mkobjname (objdir target) fname := by
  obtain ⟨tokens, hl, hpass⟩ := hst
  obtain ⟨pd, -, -, hd, -, ⟨-, k, fs, hfork⟩, ho, htext⟩ :=
    h.dep_writer (product_obj (mkdepname_under target fname)) hl
  obtain ⟨ts, hts, hne⟩ := hdeps k pd.cmd fs pd.fate hfork hd ho
  rw [htext, Option.some.injEq] at hts
  subst hts
  obtain ⟨t, ht⟩ := List.exists_mem_of_ne_nil _ hne
  obtain ⟨⟨o, -, hobj, -⟩, -⟩ := hpass t ht
  have hunder := mkobjname_under target fname
  obtain ⟨pr, now, hlast, rfl⟩ := h.owned _ (product_obj hunder) o hobj
  obtain ⟨⟨v, hmem, -⟩, hwr⟩ := lastWrote_mem hlast
  obtain ⟨hc, -⟩ := h.log pr v hmem
  obtain ⟨r, hr, p, hp, hi⟩ := hc.1
  obtain ⟨hk, hout⟩ := writes_object hi hunder hwr
  exact ⟨pr, now, hlast, by rw [hobj, Proc.file, if_pos hout], hc, hk, hout⟩

/-! ### One name for each file that is written -/

/-- The files a user touches. -/
def Act.touches : Act → Str → Prop
  | .edit p _, q | .restore p _, q => p = q
  | _, _ => False

/-- A command of the history writes a file of this name. -/
def Writes (env : Env) (fits : Str → Str → Prop) (rs : List Run) (q : Str) : Prop :=
  ∃ cmd, IssuedBy env fits rs cmd ∧
    (cmd.out = q ∨ (World.hasDep cmd.kind = true ∧ gccDepName cmd.out = q))

/-- The history uses this name for a file. -/
inductive Uses (env : Env) (fits : Str → Str → Prop) (rs : List Run) (w : World) : Str → Prop
  | writes {p : Str} (h : Writes env fits rs p) : Uses env fits rs w p
  | start {p : Str} (h : w.fs p ≠ none) : Uses env fits rs w p
  | during {p : Str} {k : ℕ} {a : Act} (ha : a ∈ env.sched k) (hp : a.touches p) : Uses env fits rs w p
  | before {p : Str} {r : Run} {a : Act} (hr : r ∈ rs) (ha : a ∈ r.before) (hp : a.touches p) :
      Uses env fits rs w p
  | makefile {r : Run} (hr : r ∈ rs) : Uses env fits rs w r.makefile
  | listed {p : Str} {k : ℕ} {cmd : Cmd} {fs : FS} {f : Fate} {ts : List Str}
      (hf : env.fork k cmd fs = some f) (hl : depTokens f.depText = some ts) (hp : p ∈ ts) :
      Uses env fits rs w p

/-- No file that a command of the history writes goes by another name. -/
def OneName (env : Env) (fits : Str → Str → Prop) (rs : List Run) (w : World) : Prop :=
  ∀ p q, Uses env fits rs w p → Writes env fits rs q → denoted p = denoted q → p = q

/-- The child writes the file that the path means when it succeeds. -/
def Proc.writesFile (pr : Proc) (o : Str) : Bool :=
  decide (denoted pr.cmd.out = denoted o) ||
    (World.hasDep pr.cmd.kind && decide (denoted (gccDepName pr.cmd.out) = denoted o))

/-- The last child that wrote the file that the path means, under whatever name, and when. -/
def lastWroteFile (o : Str) : List Ev → Option (Proc × ℕ)
  | [] => none
  | .wrote pr v :: log => if pr.writesFile o then some (pr, v.clock) else lastWroteFile o log
  | _ :: log => lastWroteFile o log

theorem lastWroteFile_eq {o : Str} : ∀ {log : List Ev},
    (∀ pr v, .wrote pr v ∈ log → pr.writesFile o = pr.writes o) →
      lastWroteFile o log = lastWrote o log
  | [], _ => rfl
  | e :: log, h => by
    have ih : lastWroteFile o log = lastWrote o log :=
      lastWroteFile_eq fun pr v hm => h pr v (List.mem_cons_of_mem _ hm)
    cases e with
    | wrote pr v => rw [lastWroteFile, lastWrote, h pr v (List.mem_cons_self ..), ih]
    | _ => exact ih

/-- A child that the history issues writes the file exactly when it writes it under its name. -/
theorem OneName.writesFile {w₀ : World} (h : OneName env fits rs w₀) {o : Str}
    (ho : Writes env fits rs o) {pr : Proc} (hi : IssuedBy env fits rs pr.cmd) :
    pr.writesFile o = pr.writes o := by
  have hname : ∀ q, Writes env fits rs q → decide (denoted q = denoted o) = decide (q = o) :=
    fun q hq => decide_eq_decide.mpr ⟨h q o (.writes hq) ho, congrArg denoted⟩
  rw [Proc.writesFile, Proc.writes, hname _ ⟨pr.cmd, hi, Or.inl rfl⟩]
  cases hd : World.hasDep pr.cmd.kind with
  | false => rfl
  | true => rw [hname _ ⟨pr.cmd, hi, Or.inr ⟨hd, rfl⟩⟩]

/-! ### Skipped objects -/

/-- The object of a skipped source was last written by a compile that the history issues for an object
    of that name; if all of these have the same argument list, by one with the arguments of now. -/
def Reused (env : Env) (fits : Str → Str → Prop) (rs : List Run) (e : Ev) (earlier : List Ev) :
    Prop :=
  match e with
  | .skip cmd _ => ∃ pr now, lastWroteFile cmd.out earlier = some (pr, now) ∧
      pr.cmd.kind = .compile ∧ pr.cmd.out = cmd.out ∧ IssuedBy env fits rs pr.cmd ∧
      ((∀ c, IssuedBy env fits rs c → c.kind = .compile → c.out = cmd.out → c.argv = cmd.argv) →
        pr.cmd.argv = cmd.argv)
  | _ => True

theorem reused_step {w₀ : World} (hdeps : env.ListsDeps) (hone : OneName env fits rs w₀)
    (h : Step env fits rs w w') (hm : Made (ChildOf env fits rs) w)
    (hw : Logs.Every (Reused env fits rs) w.log) : Logs.Every (Reused env fits rs) w'.log := by
  cases h with
  | move hr hp hmove =>
    refine hmove.every (fun e he => ?_) hw
    cases e with
    | skip cmd v =>
      obtain ⟨-, -, c, l, f, -, -, rfl, hst⟩ := he
      obtain ⟨pr, now, hlast, -, ⟨hi, -⟩, hk, hout⟩ := hm.object_writer hdeps hst
      have hnow := lastWroteFile_eq fun pr' v' hm' =>
        hone.writesFile ⟨pr.cmd, hi, Or.inl hout⟩ (hm.log pr' v' hm').1.1
      exact ⟨pr, now, hnow.trans hlast, hk, hout, hi, fun hall => hall pr.cmd hi hk hout⟩
    | _ => trivial
  | @before r a hr ha => exact w.act_every a (fun _ _ => trivial) (fun _ _ => trivial) hw
  | start hr => exact hw.cons trivial
  | leave i ret => exact hw.cons trivial

/-- Whatever the runs and their projects: a skipped source's object was last written by a compile of an
    object of that name. -/
theorem skipped_objects_reused (hdeps : env.ListsDeps) (hs : Spared env rs)
    (hone : OneName env fits rs w) (hl : Listings env rs w fits) (hw : w.Clean) :
    Logs.Every (Reused env fits rs) (history env rs w).log := by
  have htrace := (trace_history rs w (fun _ h => h) hl).1
  refine (Moves.keeps (I := fun v => Made (ChildOf env fits rs) v ∧
    Logs.Every (Reused env fits rs) v.log) (fun u v hstep ⟨hm, hu⟩ => ?_) htrace ⟨hw.made, ?_⟩).2
  · exact ⟨hm.step hs hstep, reused_step hdeps hone hstep hm hu⟩
  · rw [hw.log]; exact Logs.every_nil

/-- gcc on a tree whose only source is a.c. -/
def Env.oneSource : Env :=
  { Env.quiet 1 with
    fork := fun _ _ _ => some ⟨.exited exitZero, .written, ["a.c".toList], ": a.c".toList⟩ }

def World.oneSource : World :=
  { World.empty with fs := FS.set (fun _ => none) "a.c".toList (some ⟨0, []⟩) }

theorem oneSource_deps : Env.oneSource.HonestDeps := by
  rintro k cmd fs f hf - -
  cases hf
  exact ⟨["a.c".toList], by decide, by simp, fun t ht => ht⟩

theorem oneSource_spared (rs : List Run) (h : ∀ r ∈ rs, r.before = []) :
    Spared Env.oneSource rs :=
  ⟨fun _ _ ha => absurd ha List.not_mem_nil, fun r hr a ha => by simp [h r hr] at ha⟩

theorem oneSource_listings (rs : List Run) (h : ∀ r ∈ rs, r.before = []) :
    Listings Env.oneSource rs World.oneSource (fun _ _ => False) :=
  ⟨fun _ _ ha => absurd ha List.not_mem_nil, fun r hr g hg => by simp [h r hr] at hg,
    fun _ _ hf => absurd hf List.not_mem_nil⟩

theorem oneSource_clean : World.oneSource.Clean := by
  refine ⟨fun o ho => ?_, rfl, rfl⟩
  have hne : o ≠ "a.c".toList := fun heq => by rw [heq] at ho; exact absurd ho (by decide)
  exact if_neg hne

/-- A run of cake for a target, on a tree with the program prog made of a.c. -/
def oneProgram (target : String) : Run :=
  { before := [], target := target.toList, rebuild := false, makefile := []
    projects := [{ Project.fresh .program "prog".toList with files := ["a.c".toList] }]
    pre := fun _ => true }

/-- A run of cake on that tree, with two programs made of a.c. -/
def twoPrograms (flags : List Str) : Run :=
  { before := [], target := [], rebuild := false, makefile := []
    projects := [{ Project.fresh .program "one".toList with files := ["a.c".toList], flags := flags },
      { Project.fresh .program "two".toList with files := ["a.c".toList] }]
    pre := fun _ => true }

/-- What the two programs write. -/
def twoOutputs : List Str :=
  ["obj//a.o".toList, "obj//a.d".toList, "bin/one".toList, "bin/two".toList]

theorem twoPrograms_writes {q : Str}
    (h : Writes Env.oneSource (fun _ _ => False) [twoPrograms []] q) : q ∈ twoOutputs := by
  obtain ⟨cmd, ⟨r, hr, p, hp, hi⟩, hq⟩ := h
  rw [List.mem_singleton] at hr
  subst hr
  obtain ⟨hfiles, hout⟩ : p.files = ["a.c".toList] ∧ p.outPath ∈ twoOutputs := by
    have hall : ∀ p ∈ (twoPrograms []).projects, p.files = ["a.c".toList] ∧ p.outPath ∈ twoOutputs := by
      decide
    exact hall p hp
  have hfile : ∀ f, p.hasSource (fun _ _ => False) f → f = "a.c".toList := by
    rintro f ⟨pat, hpat, hf | hf⟩
    · rw [Project.patterns, hfiles] at hpat
      exact hf.trans (List.mem_singleton.mp (List.mem_filter.mp hpat).1)
    · exact hf.elim
  cases hi with
  | compile hpkg hf =>
    rw [hfile _ hf] at hq
    rcases hq with rfl | ⟨-, rfl⟩
    · exact List.mem_cons_self
    · exact List.mem_cons_of_mem _ List.mem_cons_self
  | pch hpkg hh =>
    rw [hfiles] at hh
    cases hh
  | link _ hk ho | ar _ hk ho =>
    rw [hk, ho] at hq
    rcases hq with rfl | ⟨hd, -⟩
    · exact hout
    · cases hd

theorem twoPrograms_oneName :
    OneName Env.oneSource (fun _ _ => False) [twoPrograms []] World.oneSource := by
  have huses : ∀ p, Uses Env.oneSource (fun _ _ => False) [twoPrograms []] World.oneSource p →
      p ∈ "a.c".toList :: [] :: twoOutputs := by
    intro p h
    cases h with
    | writes h => exact List.mem_cons_of_mem _ (List.mem_cons_of_mem _ (twoPrograms_writes h))
    | start h =>
      by_cases hp : p = "a.c".toList
      · exact hp ▸ List.mem_cons_self
      · exact absurd (if_neg hp) h
    | during ha => exact absurd ha List.not_mem_nil
    | before hr ha =>
      rw [List.mem_singleton.mp hr] at ha
      exact absurd ha List.not_mem_nil
    | makefile hr =>
      rw [List.mem_singleton.mp hr]
      exact List.mem_cons_of_mem _ List.mem_cons_self
    | listed hf hl hp =>
      cases hf
      rw [show depTokens ": a.c".toList = some ["a.c".toList] by decide, Option.some.injEq] at hl
      rw [← hl] at hp
      exact List.mem_cons.mpr (Or.inl (List.mem_singleton.mp hp))
  have hapart : ∀ p ∈ "a.c".toList :: [] :: twoOutputs, ∀ q ∈ twoOutputs,
      denoted p = denoted q → p = q := by decide
  exact fun p q hp hq => hapart p (huses p hp) q (twoPrograms_writes hq)

/-- The second program reuses the object of the first, with the same flags. -/
theorem skipped_objects_reused_run :
    Logs.Every (Reused Env.oneSource (fun _ _ => False) [twoPrograms []])
      (history Env.oneSource [twoPrograms []] World.oneSource).log ∧
    skips (history Env.oneSource [twoPrograms []] World.oneSource).log = ["obj//a.o".toList] := by
  have hb : ∀ r ∈ [twoPrograms []], r.before = [] := by simp [twoPrograms]
  exact ⟨skipped_objects_reused oneSource_deps.lists (oneSource_spared _ hb) twoPrograms_oneName
    (oneSource_listings _ hb) oneSource_clean, by decide +kernel⟩

/-- The skipped source's object was last written with the arguments of now. -/
def SameCommand (e : Ev) (earlier : List Ev) : Prop :=
  match e with
  | .skip cmd _ => (lastWroteFile cmd.out earlier).any (fun x => x.1.cmd.argv = cmd.argv) = true
  | _ => True

instance : ∀ e log, Decidable (SameCommand e log)
  | .skip _ _, _ => by unfold SameCommand; infer_instance
  | .run _, _ | .build _, _ | .exec _ _, _ | .wrote _ _, _ | .reaped _, _ | .stolen _, _ | .echild, _
  | .edit _ _, _ | .kept _ _, _ | .leave _ _, _ => isTrue trivial

/-- The first program defines a macro, the second does not and reuses its object. -/
theorem reused_with_other_flags : ¬ Logs.Every SameCommand
    (history Env.oneSource [twoPrograms ["-DONE".toList]] World.oneSource).log := by
  decide +kernel

end Cake
