import Cake.Converge
import Cake.Parallel

/-! The run after one in which something failed.

    A part that was made is up to date, one whose command failed has to be made again, and all the others
    look as they did. So whatever has failed in a run, and in which order, the next run makes these parts
    again and no others.

        stale ── success ──▶ current        stale ── failure ──▶ stale        current ──▶ current -/

namespace Cake

variable {env : Env} {X : Part → Prop} {gs : List Project} {p : Project} {v w w' : World} {s : St} {x : Part}
  {pr : Proc} {fs : FS} {Z : Str → Prop} {cmd : Cmd}

/-- A command that fails leaves its output as it was or deletes it. -/
def Env.Fails (env : Env) : Prop :=
  ∀ k cmd fs f, env.fork k cmd fs = some f → f.ok = false → f.outcome ≠ .written

/-- The commands among these that make parts. -/
def partCmds (es : List (Cmd × Option Fate)) : List Cmd :=
  (es.map Prod.fst).filter fun cmd => World.hasDep cmd.kind

/-- No part has been started twice in this run. -/
def Once (log : List Ev) : Prop := ((partCmds (launched log)).map Cmd.out).Nodup

/-- What is known of a child, from what it was told and from what it will do. -/
structure Child (v w : World) (pr : Proc) : Prop where
  noted : (pr.cmd, some pr.fate) ∈ launched w.log
  bad : pr.fate.ok = false → pr.fate.outcome ≠ .written
  good : pr.fate.ok = true → World.hasDep pr.cmd.kind = true → pr.fate.outcome = .written ∧
    (∀ t ∈ pr.fate.reads, isProduct t = false ∧ (v.fs t).isSome = true) ∧
      ∃ ts, depTokens pr.fate.depText = some ts ∧ ∀ t, t ∈ ts ↔ t ∈ pr.fate.reads

/-- A part of which nothing has been made. -/
def Unmade (v w : World) (x : Part) : Prop :=
  w.fs x.dep = v.fs x.dep ∧
    (w.fs x.product = v.fs x.product ∨ w.fs x.product = none ∧ ∃ e ∈ launched w.log, e.1.out = x.product)

/-- A part that has been made from sources. -/
structure Mended (fs : FS) (mk : ℕ) (x : Part) : Prop where
  current : x.Current fs mk
  lists : ∀ t ∈ x.prerequisites fs, isProduct t = false

/-- A run that began in `v`, in state `w`. -/
structure Mending (X : Part → Prop) (v w : World) : Prop where
  near : Near v (fun o => isProduct o = true) w
  makefile : w.makefileTime ≤ sec w.clock
  time : ∀ o, mtimeOf w.fs o ≤ sec w.clock
  makes : ∀ e ∈ launched w.log, (making X).exec e.1
  child : ∀ pr ∈ w.procs, Child v w pr
  unmade : ∀ x, X x → (∀ e ∈ launched w.log, e.1.out = x.product → okFate e.2 = false) → Unmade v w x
  mended : ∀ cmd f, (cmd, some f) ∈ launched w.log → f.ok = true → ∀ x, X x → x.product = cmd.out →
    (∃ pr ∈ w.procs, pr.cmd = cmd ∧ pr.fate = f ∧ pr.zombie = false) ∨
      Mended w.fs w.makefileTime x

/-! ### Commands and files -/

theorem Once.before {R : Rules} (hp : Path env R w w') (h : Once w'.log) : Once w.log := by
  obtain ⟨new, hnew⟩ := hp.launched
  rw [Once, hnew, partCmds, List.map_append, List.filter_append, List.map_append] at h
  exact h.of_append_right

/-- Two commands of one run that make the same part are one. -/
theorem Once.same {e e' : Cmd × Option Fate} (h : Once w.log) (he : e ∈ launched w.log)
    (he' : e' ∈ launched w.log) (hd : World.hasDep e.1.kind = true) (hd' : World.hasDep e'.1.kind = true)
    (ho : e.1.out = e'.1.out) : e = e' := by
  rw [Once, partCmds, List.filter_map, List.map_map] at h
  exact List.inj_on_of_nodup_map h (List.mem_filter.mpr ⟨he, hd⟩) (List.mem_filter.mpr ⟨he', hd'⟩) ho

/-! ### One move -/

theorem Mending.source (h : Mending X v w) {t : Str} (ht : isProduct t = false) : w.fs t = v.fs t :=
  h.near.fs t (by simp [ht])

/-- A good child makes its part from sources. -/
theorem Mending.land_mended (hX : Named X) (h : Mending X v w) (hpr : pr ∈ w.procs)
    (hok : pr.fate.ok = true) (hx : X x) (ho : x.product = pr.cmd.out) :
    Mended (w.land pr).fs w.makefileTime x := by
  obtain ⟨hnoted, -, hgood⟩ := h.child pr hpr
  have hmakes := h.makes _ hnoted
  have hd := making_of_part hmakes hX hx ho.symm
  obtain ⟨hwritten, hreads, hdeps⟩ := hgood hok hd
  have hable : Able X w.fs pr := ⟨hmakes, hwritten, fun t ht => by
    rw [h.source (hreads t ht).1]
    exact (hreads t ht).2, fun _ => hdeps⟩
  have hlists := land_lists hX hable hx hd ho
  have hsources : ∀ t ∈ x.prerequisites (w.land pr).fs, isProduct t = false := fun t ht =>
    (hreads t ((hlists t).mp ht)).1
  refine ⟨⟨land_part hX hable h.makefile hd hx (by rw [hX.dep x hx, ho]) ho, fun t ht => ?_⟩, hsources⟩
  have hleft : pr.writes t = false := Bool.eq_false_iff.mpr fun hw =>
    absurd (making_writes hmakes hX hw) (by simp [hsources t ht])
  rw [land_mtime hwritten, land_mtime hwritten, hleft, if_neg Bool.false_ne_true,
    if_pos (by simp [Proc.writes, ho])]
  exact h.time t

theorem mended_congr {fs' : FS} {mk : ℕ} (h : Mended fs mk x) (hproduct : fs' x.product = fs x.product)
    (hdep : fs' x.dep = fs x.dep) (hsources : ∀ t, isProduct t = false → fs' t = fs t) : Mended fs' mk x := by
  have hlists := prerequisites_congr hdep
  obtain ⟨⟨⟨hpres, tokens, hl, hex, hdated⟩, hnewer⟩, hsource⟩ := h
  have htokens : x.prerequisites fs = tokens := by rw [Part.prerequisites, hl]; rfl
  refine ⟨⟨⟨fun hh => hproduct ▸ hpres hh, tokens, ?_, fun t ht => ?_, fun hne => ?_⟩, fun t ht => ?_⟩,
    fun t ht => hsource t (hlists ▸ ht)⟩
  · rw [listed, readFile, hdep]
    exact hl
  · rw [hsources t (hsource t (htokens ▸ ht))]
    exact hex t ht
  · rw [Dated, hproduct]
    exact hdated hne
  · rw [hlists] at ht
    rw [mtimeOf_congr hproduct, mtimeOf_congr (hsources t (hsource t ht))]
    exact hnewer t ht

theorem Child.later {R : Rules} (hm : Move env R w w') (h : Child v w pr) : Child v w' pr := by
  obtain ⟨new, hnew⟩ := hm.launched
  exact ⟨by rw [hnew]; exact List.mem_append_right _ h.noted, h.bad, h.good⟩

theorem Unmade.later {R : Rules} (hm : Move env R w w') (hproduct : w'.fs x.product = w.fs x.product)
    (hdep : w'.fs x.dep = w.fs x.dep) (h : Unmade v w x) : Unmade v w' x := by
  obtain ⟨new, hnew⟩ := hm.launched
  rw [Unmade, hproduct, hdep, hnew]
  exact ⟨h.1, h.2.imp_right fun ⟨hnone, e, he, ho⟩ => ⟨hnone, e, List.mem_append_right _ he, ho⟩⟩

theorem land_time (htime : ∀ o, mtimeOf w.fs o ≤ sec w.clock) (pr : Proc) (o : Str) :
    mtimeOf (w.land pr).fs o ≤ sec w.clock := by
  cases hout : pr.fate.outcome with
  | left =>
    rw [World.land, hout]
    exact htime o
  | removed =>
    rw [World.land, hout]
    dsimp only
    rw [mtimeOf, FS.set]
    split
    · exact Nat.zero_le _
    · exact htime o
  | written =>
    rw [land_mtime hout]
    split
    · exact le_rfl
    · exact htime o

/-- A child that fails deletes its part, or does nothing. -/
theorem land_failed (hX : Named X) (hbad : pr.fate.outcome ≠ .written) (hx : X x)
    (ho : x.product = pr.cmd.out) (w : World) : (w.land pr).fs x.dep = w.fs x.dep ∧
      ((w.land pr).fs x.product = w.fs x.product ∨ (w.land pr).fs x.product = none) := by
  cases hout : pr.fate.outcome with
  | left =>
    rw [World.land, hout]
    exact ⟨rfl, Or.inl rfl⟩
  | removed =>
    rw [World.land, hout, ← ho]
    refine ⟨if_neg ?_, Or.inr (if_pos rfl)⟩
    rw [hX.dep x hx]
    exact (hX.product x hx _).symm
  | written => exact absurd hout hbad

theorem source_steady {t : Str} (h : Steady X (fun _ => 0) 0 t) : isProduct t = false := by
  rcases h with h | ⟨y, -, hlt, -⟩
  · exact h
  · exact absurd hlt (Nat.lt_irrefl 0)

/-- What is known of a child that has just been started. -/
theorem Mending.spawned (htruth : env.Truthful) (hfails : env.Fails) (hl : env.Layered X fun _ => 0)
    (h : Mending X v w) {f : Fate} (hexec : (making X).exec cmd) (hf : env.fork w.nfork cmd w.fs = some f)
    (hnoted : (cmd, some f) ∈ launched w'.log) : Child v w' (w.spawn cmd f) := by
  refine ⟨hnoted, hfails _ _ _ _ hf, fun hok hd => ?_⟩
  obtain ⟨hwritten, hreads, hdeps⟩ := htruth _ _ _ _ hf hok
  obtain ⟨ts, hts, hiff⟩ := hdeps hd
  obtain ⟨y, hy, hout⟩ : ∃ y, X y ∧ cmd.out = y.product := by
    simpa only [making, show World.hasDep cmd.kind = true from hd, if_true] using hexec
  refine ⟨hwritten, fun t ht => ?_, ts, hts, hiff⟩
  have hsource := source_steady (hl _ _ _ _ hf y hy hout.symm t ht)
  exact ⟨hsource, h.source hsource ▸ hreads t ht⟩

theorem Mending.move_unmade (hX : Named X) (hcalm : env.Calm) (hm : Move env (making X) w w')
    (h : Mending X v w) (hx : X x) (hbad : ∀ e ∈ launched w'.log, e.1.out = x.product → okFate e.2 = false) :
    Unmade v w' x := by
  obtain ⟨new, hnew⟩ := hm.launched
  have hbefore : ∀ e ∈ launched w.log, e.1.out = x.product → okFate e.2 = false := fun e he =>
    hbad e (by rw [hnew]; exact List.mem_append_right _ he)
  have hunmade := h.unmade x hx hbefore
  rcases hm.ends hcalm h.near.pids with ⟨hfs, -⟩ | ⟨pr, hpr, hfs, -⟩
  · exact hunmade.later hm (by rw [hfs]) (by rw [hfs])
  · obtain ⟨hnoted, hfailed, -⟩ := h.child pr hpr
    by_cases ho : x.product = pr.cmd.out
    · obtain ⟨hdep, hproduct⟩ := land_failed hX (hfailed (hbefore _ hnoted ho.symm)) hx ho w
      have hentry : ∃ e ∈ launched w'.log, e.1.out = x.product :=
        ⟨_, by rw [hnew]; exact List.mem_append_right _ hnoted, ho.symm⟩
      refine ⟨by rw [hfs, hdep]; exact hunmade.1, ?_⟩
      rw [hfs]
      rcases hproduct with hproduct | hproduct
      · rw [hproduct]
        exact hunmade.2.imp_right fun hnone => ⟨hnone.1, hentry⟩
      · exact Or.inr ⟨hproduct, hentry⟩
    · obtain ⟨hproduct, hdep⟩ := land_apart hX (h.makes _ hnoted) hx ho w
      exact hunmade.later hm (by rw [hfs, hproduct]) (by rw [hfs, hdep])

theorem Mending.move_mended (hX : Named X) (hcalm : env.Calm) (hm : Move env (making X) w w')
    (honce : Once w'.log) (hmakes : ∀ e ∈ launched w'.log, (making X).exec e.1)
    (hchild : ∀ q ∈ w'.procs, Child v w' q) (h : Mending X v w) {f : Fate}
    (hmem : (cmd, some f) ∈ launched w'.log) (hok : f.ok = true) (hx : X x) (ho : x.product = cmd.out) :
    (∃ pr ∈ w'.procs, pr.cmd = cmd ∧ pr.fate = f ∧ pr.zombie = false) ∨
      Mended w'.fs w.makefileTime x := by
  -- the child that makes the part is the one of this command
  have hfate : ∀ pr, Child v w' pr → x.product = pr.cmd.out → pr.cmd = cmd ∧ pr.fate = f := by
    intro pr hc hout
    have hd := making_of_part (hmakes _ hc.noted) hX hx hout.symm
    have hd' := making_of_part (hmakes _ hmem) hX hx ho.symm
    have hsame : (pr.cmd, some pr.fate) = (cmd, some f) := honce.same hc.noted hmem hd hd' (hout.symm.trans ho)
    simpa using hsame
  obtain ⟨new, hnew, hrun⟩ := hm.started
  rcases List.mem_append.mp (hnew ▸ hmem) with hstarted | hbefore
  · obtain ⟨pr, hpr, rfl, hz⟩ := hrun cmd f hstarted
    exact Or.inl ⟨pr, hpr, rfl, (hfate pr (hchild pr hpr) ho).2, hz⟩
  · rcases h.mended cmd f hbefore hok x hx ho with ⟨q, hq, rfl, rfl, hz⟩ | hmended
    · rcases hm.ends hcalm h.near.pids with ⟨-, hrun⟩ | ⟨pr, hpr, hfs, hrun⟩
      · exact Or.inl ⟨q, hrun q hq hz, rfl, rfl, hz⟩
      · rcases hrun q hq hz with rfl | hq'
        · rw [hfs]
          exact Or.inr (h.land_mended hX hpr hok hx ho)
        · exact Or.inl ⟨q, hq', rfl, rfl, hz⟩
    · rcases hm.ends hcalm h.near.pids with ⟨hfs, -⟩ | ⟨pr, hpr, hfs, -⟩
      · rw [hfs]
        exact Or.inr hmended
      · have hc := h.child pr hpr
        rw [hfs]
        by_cases hout : x.product = pr.cmd.out
        · obtain ⟨-, rfl⟩ := hfate pr (hc.later hm) hout
          exact Or.inr (h.land_mended hX hpr hok hx hout)
        · obtain ⟨hproduct, hdep⟩ := land_apart hX (h.makes _ hc.noted) hx hout w
          refine Or.inr (mended_congr hmended hproduct hdep fun t ht => World.land_other ?_ w)
          exact Bool.eq_false_iff.mpr fun hw =>
            absurd (making_writes (h.makes _ hc.noted) hX hw) (by simp [ht])

theorem Mending.move (hX : Named X) (hcalm : env.Calm) (htruth : env.Truthful) (hfails : env.Fails)
    (hl : env.Layered X fun _ => 0) (hm : Move env (making X) w w') (honce : Once w'.log)
    (h : Mending X v w) : Mending X v w' := by
  have hends := hm.ends hcalm h.near.pids
  have hclock := sec_mono hm.later.clock
  have hmk := hm.later.makefileTime
  have hchild : ∀ q ∈ w'.procs, Child v w' q := by
    intro q hq
    rcases hm.child h.near.pids hq with hq | ⟨q₀, hq₀, rfl, -⟩ | ⟨cmd, f, hexec, hf, rfl, -, hlog⟩
    · exact (h.child q hq).later hm
    · obtain ⟨hnoted, hbad, hgood⟩ := (h.child q₀ hq₀).later hm
      exact ⟨hnoted, hbad, hgood⟩
    · exact h.spawned htruth hfails hl hexec hf (by rw [hlog]; exact List.mem_cons_self)
  have hmakes : ∀ e ∈ launched w'.log, (making X).exec e.1 := by
    rcases hm.launches with heq | ⟨cmd, hexec, heq⟩
    · rw [heq]
      exact h.makes
    · rw [heq]
      exact List.forall_mem_cons.mpr ⟨hexec, h.makes⟩
  refine ⟨h.near.path hcalm (making_writing hX (.single hm)), by rw [hmk]; exact h.makefile.trans hclock, fun o => ?_, hmakes, hchild,
    fun x hx => h.move_unmade hX hcalm hm hx, fun cmd f hmem hok x hx ho => ?_⟩
  · rcases hends with ⟨hfs, -⟩ | ⟨pr, -, hfs, -⟩
    · rw [hfs]
      exact (h.time o).trans hclock
    · rw [hfs]
      exact (land_time h.time pr o).trans hclock
  · rw [hmk]
    exact h.move_mended hX hcalm hm honce hmakes hchild hmem hok hx ho

theorem Mending.path (hX : Named X) (hcalm : env.Calm) (htruth : env.Truthful) (hfails : env.Fails)
    (hl : env.Layered X fun _ => 0) (hp : Path env (making X) w w') (honce : Once w'.log)
    (h : Mending X v w) : Mending X v w' := by
  refine Moves.keeps (I := fun u => Once u.log → Mending X v u) (fun u u' hm hu honce => ?_) hp
    (fun _ => h) honce
  exact (hu (honce.before (.single hm))).move hX hcalm htruth hfails hl hm honce

theorem Mending.say (h : Mending X v w) {e : Ev} (he : launched (e :: w.log) = launched w.log) :
    Mending X v (w.say e) := by
  have hlog : launched (w.say e).log = launched w.log := he
  obtain ⟨hnear, hmk, htime, hmakes, hchild, hunmade, hmended⟩ := h
  refine ⟨hnear.say e, hmk, htime, ?_, fun pr hpr => ?_, fun x hx hbad => ?_, fun cmd f hmem => ?_⟩
  · rw [hlog]
    exact hmakes
  · obtain ⟨hnoted, hbad, hgood⟩ := hchild pr hpr
    exact ⟨hlog ▸ hnoted, hbad, hgood⟩
  · rw [hlog] at hbad
    rw [Unmade, hlog]
    exact hunmade x hx hbad
  · rw [hlog] at hmem
    exact hmended cmd f hmem

/-! ### What the next run finds -/

theorem stale_iff (hr : w.rebuild = false) : x.stale w = true ↔ ¬ x.Current w.fs w.makefileTime := by
  constructor
  · intro hs hx
    rw [Part.stale, look_current hr hx] at hs
    cases hs
  · intro hx
    by_contra hs
    rw [Bool.not_eq_true, Part.stale, Part.look, hr] at hs
    split at hs
    · cases hs
    · rename_i hmissing
      have hpres : x.header = true → (w.fs x.product).isSome = true := by
        intro hh
        rw [hh, existsFile] at hmissing
        simpa [Option.isSome_iff_ne_none] using hmissing
      rcases hneeds : needsRebuild _ _ _ _ _ _ with ⟨b, m⟩
      rw [hneeds] at hs
      obtain rfl : b = false := hs
      exact hx ((needsRebuild_part hpres).mp hneeds).1

/-- A part that was made is current. -/
theorem Mending.current (h : Mending X v w) (hprocs : w.procs = []) (hx : X x)
    (hmade : ∃ e ∈ launched w.log, e.1.out = x.product ∧ okFate e.2 = true) :
    Mended w.fs w.makefileTime x := by
  obtain ⟨⟨cmd, fate⟩, he, ho, hok⟩ := hmade
  cases fate with
  | none => cases hok
  | some f =>
    refine (h.mended cmd f he hok x hx ho.symm).resolve_left ?_
    rintro ⟨pr, hpr, -⟩
    rw [hprocs] at hpr
    exact absurd hpr List.not_mem_nil

/-- A part of which nothing was made is not current unless it was. -/
theorem Mending.was_current (h : Mending X v w) (hlists : ListsBelow X (fun _ => 0) v.fs) (hx : X x)
    (hbad : ∀ e ∈ launched w.log, e.1.out = x.product → okFate e.2 = false)
    (hnow : x.Current w.fs w.makefileTime) : x.Current v.fs v.makefileTime := by
  obtain ⟨hdep, hproduct⟩ := h.unmade x hx hbad
  have hprereq := prerequisites_congr hdep
  rw [h.near.makefileTime] at hnow
  rcases hproduct with hproduct | ⟨hnone, -⟩
  · have hmended : Mended w.fs v.makefileTime x :=
      ⟨hnow, fun t ht => source_steady (hlists x hx t (hprereq ▸ ht))⟩
    exact (mended_congr hmended hproduct.symm hdep.symm fun t ht => (h.source ht).symm).current
  · -- a part that is not there is current only when it lists nothing
    obtain ⟨⟨hpres, tokens, hl, -, hdated⟩, -⟩ := hnow
    have hempty : tokens = [] := by
      by_contra hne
      obtain ⟨f, hf, -⟩ := hdated hne
      rw [hnone] at hf
      cases hf
    have hbefore : listed v.fs x.dep = some [] := by
      rw [listed, readFile, ← hdep, ← hempty]
      exact hl
    refine ⟨⟨fun hh => ?_, [], hbefore, by simp, by simp⟩, fun t ht => ?_⟩
    · rw [hnone] at hpres
      exact absurd (hpres hh) (by decide)
    · rw [Part.prerequisites, hbefore] at ht
      exact absurd ht List.not_mem_nil

/-- A part that was left alone is as current as it was. -/
theorem Mending.still_current (h : Mending X v w) (hlists : ListsBelow X (fun _ => 0) v.fs) (hx : X x)
    (hnone : ∀ e ∈ launched w.log, e.1.out ≠ x.product) (hbefore : x.Current v.fs v.makefileTime) :
    x.Current w.fs w.makefileTime := by
  obtain ⟨hdep, hproduct⟩ := h.unmade x hx fun e he ho => absurd ho (hnone e he)
  have hproduct : w.fs x.product = v.fs x.product := hproduct.resolve_right fun ⟨_, e, he, ho⟩ => hnone e he ho
  rw [h.near.makefileTime]
  exact (mended_congr ⟨hbefore, fun t ht => source_steady (hlists x hx t ht)⟩ hproduct hdep
    fun t ht => h.source ht).current

/-- And the dependency files list sources. -/
theorem Mending.lists (h : Mending X v w) (hlists : ListsBelow X (fun _ => 0) v.fs) (hprocs : w.procs = []) :
    ListsBelow X (fun _ => 0) w.fs := by
  intro x hx t ht
  by_cases hmade : ∃ e ∈ launched w.log, e.1.out = x.product ∧ okFate e.2 = true
  · exact Or.inl ((h.current hprocs hx hmade).lists t ht)
  · have hbad : ∀ e ∈ launched w.log, e.1.out = x.product → okFate e.2 = false := fun e he ho =>
      Bool.eq_false_iff.mpr fun hok => hmade ⟨e, he, ho, hok⟩
    rw [prerequisites_congr (h.unmade x hx hbad).1] at ht
    exact hlists x hx t ht

/-! ### A run -/

/-- The commands that a build of the project starts for its parts, as the files stand. -/
def Project.due (env : Env) (v : World) (p : Project) : List Cmd :=
  match pkgConfig env p.pkgdepends with
  | none => []
  | some (c, _) => staleCmds v (p.plan v v.target (p.flagText c))

theorem plan_makes {target cflags : Str} {t : Part × Cmd} (ht : t ∈ p.plan v target cflags) :
    World.hasDep t.2.kind = true ∧ t.2.out = t.1.product := by
  rcases List.mem_append.mp ht with ht | ht
  · obtain ⟨h, -, rfl⟩ := List.mem_map.mp ht
    exact ⟨rfl, rfl⟩
  · obtain ⟨f, -, rfl⟩ := List.mem_map.mp ht
    exact ⟨rfl, rfl⟩

theorem mem_due (h : cmd ∈ p.due env v) : ∃ x ∈ p.parts v v.target, x.stale v = true ∧
    World.hasDep cmd.kind = true ∧ cmd.out = x.product := by
  rw [Project.due] at h
  split at h
  · exact absurd h List.not_mem_nil
  · obtain ⟨t, ht, rfl⟩ := List.mem_map.mp h
    obtain ⟨ht, hs⟩ := List.mem_filter.mp ht
    obtain ⟨hd, ho⟩ := plan_makes ht
    exact ⟨t.1, plan_parts v _ _ p ▸ List.mem_map_of_mem ht, hs, hd, ho⟩

/-- `compile()` starts the commands that are due and, at the end, maybe that of its output. -/
theorem compile_due (hcalm : env.Calm) (hp : p.Follows v Z) (gs : List Project) (hnear : Near v Z w) :
    Near v (afterBuild v Z p) (p.compile env gs w).2.w ∧
      partCmds (execs (p.compile env gs w).2.w.log) = (p.due env v).reverse := by
  obtain ⟨⟨hout, htype⟩, hclear, -⟩ := hp
  rw [Project.due]
  cases hpkg : pkgConfig env p.pkgdepends with
  | none =>
    rw [p.compile_none hpkg]
    exact ⟨(hnear.mono fun o ho => Or.inl (addedBy_iff.mpr (Or.inl ho))).say _, rfl⟩
  | some cl =>
    obtain ⟨c, l⟩ := cl
    obtain ⟨mkCmd, hmk, heq⟩ := p.compile_produce hpkg hout htype gs w
    have hready := Planned.ready hcalm p (p.flagText c) hnear rfl hclear
    rw [heq]
    refine ⟨Near.produce hcalm (hready.near.mono fun o => Or.inl) fun o ho => Or.inr ?_, ?_⟩
    · rw [output_writes (hmk.kind _) ho, hmk.out]
    have hparts : partCmds (execs (p.ready env (p.flagText c) w).w.log) =
        (staleCmds v (p.plan v v.target (p.flagText c))).reverse := by
      rw [partCmds, hready.execs, List.filter_eq_self]
      intro cmd hcmd
      obtain ⟨t, ht, rfl⟩ := List.mem_map.mp (List.mem_reverse.mp hcmd)
      exact (plan_makes (List.mem_filter.mp ht).1).1
    rcases produce_log env mkCmd (p.after env (p.flagText c) (p.sources env (p.flagText c) w).length w) with
      ⟨-, -, fate, hlog⟩ | ⟨-, hlog⟩
    · have hkind : World.hasDep (mkCmd (p.ready env (p.flagText c) w)).kind = false := by
        rcases hmk.kind (p.ready env (p.flagText c) w) with hk | hk <;> rw [hk] <;> rfl
      rw [hlog, ← hparts, partCmds, List.map_cons, ← Project.ready,
        List.filter_cons_of_neg (by simp [hkind]), ← partCmds]
    · rw [hlog]
      exact hparts

/-- The run has started the commands `cmds` for parts so far, and has written files of `Z` alone. -/
structure Tended (X : Part → Prop) (v : World) (Z : Str → Prop) (cmds : List Cmd) (w : World) : Prop where
  near : Near v Z w
  alone : w.procs = []
  parts : partCmds (launched w.log) = cmds.reverse
  mending : Once w.log → Mending X v w

/-- The outside of the runs. -/
structure Env.Sound (env : Env) (X : Part → Prop) : Prop where
  named : Named X
  calm : env.Calm
  truthful : env.Truthful
  fails : env.Fails
  layered : env.Layered X fun _ => 0

theorem Tended.round (he : env.Sound X) {cmds : List Cmd} (gs : List Project) (i : ℕ) (hp : p.Follows v Z)
    (hX : ∀ x ∈ p.parts v v.target, X x) (h : Tended X v Z cmds w) {pre : ℕ → Bool} (hpre : pre i = true) :
    Tended X v (afterBuild v Z p) (cmds ++ p.due env v) (mainStep env pre gs w (p, i)) := by
  obtain ⟨hnear, halone, hparts, hmending⟩ := h
  obtain ⟨hnear', hdue⟩ := compile_due he.calm hp gs hnear
  obtain ⟨⟨hout, htype⟩, -, -⟩ := hp
  have halone' : Alone (p.compile env gs w).2.w := (alone_of_procs halone).compile hout htype gs
  have hlog := launched_compile he.calm ⟨hout, htype⟩ gs w
  rw [mainStep, if_pos hpre]
  dsimp only
  refine ⟨hnear'.say _, halone'.procs, ?_, fun honce => ?_⟩
  · show partCmds (launched (p.compile env gs w).2.w.log) = _
    rw [hlog, partCmds, List.map_append, List.filter_append, ← partCmds, ← partCmds, hdue, hparts,
      List.reverse_append]
  have honce' : Once (p.compile env gs w).2.w.log := honce
  have hstart : Once w.log := by
    rw [Once, hlog, partCmds, List.map_append, List.filter_append, List.map_append] at honce'
    exact honce'.of_append_right
  have hnew : Mending X v (newBuild env w).w := (hmending hstart).say rfl
  refine Mending.say ?_ rfl
  cases hpkg : pkgConfig env p.pkgdepends with
  | none =>
    rw [p.compile_none hpkg]
    exact hnew
  | some cl =>
    have hX' : ∀ x ∈ p.parts w w.target, X x := fun x hx => by
      rw [hnear.target, Project.parts_glob hnear.glob] at hx
      exact hX x hx
    exact hnew.path he.named he.calm he.truthful he.fails he.layered
      (path_compile_making he.calm hX' hpkg hout htype) honce'

theorem Tended.rounds (he : env.Sound X) (pre : ℕ → Bool) (gs : List Project) :
    ∀ (l : List (Project × ℕ)) {Z : Str → Prop} {cmds : List Cmd} {w : World}, Ahead v Z (passed pre l) →
      (∀ p ∈ passed pre l, ∀ x ∈ p.parts v v.target, X x) → Tended X v Z cmds w →
        ∃ Z', Tended X v Z' (cmds ++ (passed pre l).flatMap (Project.due env v))
          (l.foldl (mainStep env pre gs) w)
  | [], Z, cmds, _, _, _, h => ⟨Z, by simpa [passed] using h⟩
  | (p, i) :: l, Z, cmds, w, hahead, hX, h => by
    rw [List.foldl_cons]
    cases hpre : pre i with
    | false =>
      rw [passed, List.filter_cons_of_neg (by simp [hpre]), ← passed] at hahead hX ⊢
      have hskip : mainStep env pre gs w (p, i) = w := by simp [mainStep, hpre]
      rw [hskip]
      exact Tended.rounds he pre gs l hahead hX h
    | true =>
      rw [passed, List.filter_cons_of_pos (by simp [hpre]), List.map_cons, ← passed] at hahead hX ⊢
      obtain ⟨hp, hrest⟩ := hahead.cons
      obtain ⟨hXp, hXs⟩ := List.forall_mem_cons.mp hX
      rw [List.flatMap_cons, ← List.append_assoc]
      exact Tended.rounds he pre gs l hrest hXs (h.round he gs i hp hXp hpre)

/-- The projects of a run do not share parts or outputs, and what the dependency files list are sources. -/
structure Tidy (v : World) (ps : List Project) : Prop where
  outputs : ∀ p ∈ ps, p.HasOutput
  named : Named (partsOf ps v v.target)
  parts : ((ps.flatMap fun p => p.parts v v.target).map Part.product).Nodup
  apart : (ps.map Project.outPath).Nodup
  lists : ListsBelow (partsOf ps v v.target) (fun _ => 0) v.fs

theorem mem_reads {o : Str} (h : o ∈ x.reads v) : o = x.product ∨ o = x.dep ∨ o ∈ x.prerequisites v.fs := by
  rw [Part.reads] at h
  split at h
  · exact absurd h List.not_mem_nil
  · rcases List.mem_cons.mp h with h | h
    · exact Or.inl h
    · exact Or.inr (List.mem_cons.mp h)

variable {ps : List Project}

theorem mem_partsOf : x ∈ (ps.flatMap fun p => p.parts v v.target) ↔ partsOf ps v v.target x :=
  List.mem_flatMap

/-- No command writes what is looked at for another part. -/
theorem Tidy.ahead (h : Tidy v ps) : Ahead v (fun _ => False) ps := by
  obtain ⟨houtputs, hnamed, hparts, hapart, hlists⟩ := h
  have hsource : ∀ x, partsOf ps v v.target x → ∀ t ∈ x.prerequisites v.fs, isProduct t = false :=
    fun x hx t ht => source_steady (hlists x hx t ht)
  refine ⟨houtputs, undisturbed_iff.mpr ⟨fun _ _ _ _ hno => hno, ?_⟩, fun _ _ hno => hno,
    fun p hp x hx q hq hread => ?_, hapart⟩
  · refine (List.pairwise_map.mp hparts).imp_of_mem fun {x y} hx hy hne _ o ho hread => ?_
    have hX := mem_partsOf.mp hx
    have hY := mem_partsOf.mp hy
    have hunder := hnamed.under x hX
    rcases mem_reads hread with rfl | rfl | hread
    · rcases List.mem_cons.mp ho with ho | ho
      · exact hne ho.symm
      · exact hnamed.product y hY _ (List.mem_singleton.mp ho)
    · rcases List.mem_cons.mp ho with ho | ho
      · rw [hnamed.dep y hY] at ho
        exact hnamed.product x hX _ ho.symm
      · exact hne (hnamed.apart x y hX hY ((hnamed.dep x hX).trans (List.mem_singleton.mp ho).symm))
    · have hsource := hsource y hY o hread
      rcases List.mem_cons.mp ho with rfl | ho
      · rw [product_obj hunder] at hsource
        cases hsource
      · rw [List.mem_singleton.mp ho, product_obj (gccDepName_under hunder)] at hsource
        cases hsource
  · have hX : partsOf ps v v.target x := ⟨p, hp, hx⟩
    have hunder := hnamed.under x hX
    rcases mem_reads hread with heq | heq | hread
    · exact obj_ne_outPath hunder q heq.symm
    · rw [hnamed.dep x hX] at heq
      exact obj_ne_outPath (gccDepName_under hunder) q heq.symm
    · have hsource := hsource x hX _ hread
      rw [product_outPath] at hsource
      cases hsource

/-- What is due has different outputs. -/
theorem due_outs (env : Env) (v : World) : ∀ ps : List Project,
    ((ps.flatMap (Project.due env v)).map Cmd.out).Sublist
      ((ps.flatMap fun p => p.parts v v.target).map Part.product)
  | [] => List.Sublist.refl _
  | p :: ps => by
    rw [List.flatMap_cons, List.flatMap_cons, List.map_append, List.map_append]
    refine List.Sublist.append ?_ (due_outs env v ps)
    rw [Project.due]
    split
    · exact List.nil_sublist _
    · rename_i c l _
      have houts : (staleCmds v (p.plan v v.target (p.flagText c))).map Cmd.out =
          (((p.plan v v.target (p.flagText c)).filter fun t => t.1.stale v).map Prod.fst).map Part.product := by
        rw [staleCmds, List.map_map, List.map_map]
        exact List.map_congr_left fun t ht => (plan_makes (List.mem_filter.mp ht).1).2
      rw [houts, ← plan_parts v v.target (p.flagText c) p]
      exact (List.filter_sublist.map _).map _

/-- The run starts for parts what is due where it begins. -/
theorem Tidy.run {pre : ℕ → Bool} (h : Tidy v (passed pre gs.zipIdx))
    (he : env.Sound (partsOf (passed pre gs.zipIdx) v v.target)) (hprocs : v.procs = [])
    (hnone : launched v.log = []) (hmk : v.makefileTime ≤ sec v.clock)
    (htime : ∀ o, mtimeOf v.fs o ≤ sec v.clock) :
    partCmds (launched (mainLoop env pre gs v).log) =
        ((passed pre gs.zipIdx).flatMap (Project.due env v)).reverse ∧
      (mainLoop env pre gs v).procs = [] ∧ Once (mainLoop env pre gs v).log ∧
      Mending (partsOf (passed pre gs.zipIdx) v v.target) v (mainLoop env pre gs v) := by
  have hno : ∀ pr, pr ∉ v.procs := fun pr hpr => absurd (hprocs ▸ hpr) List.not_mem_nil
  have hstart : Mending (partsOf (passed pre gs.zipIdx) v v.target) v v := by
    refine ⟨.refl hprocs, hmk, htime, ?_, fun pr hpr => absurd hpr (hno pr),
      fun x _ _ => ⟨rfl, Or.inl rfl⟩, fun cmd f hmem => ?_⟩
    · rw [hnone]
      simp
    · rw [hnone] at hmem
      exact absurd hmem List.not_mem_nil
  have htended : Tended (partsOf (passed pre gs.zipIdx) v v.target) v (fun _ => False) [] v :=
    ⟨.refl hprocs, hprocs, by rw [hnone]; rfl, fun _ => hstart⟩
  obtain ⟨Z, hend⟩ := Tended.rounds he pre gs gs.zipIdx h.ahead (fun p hp x hx => ⟨p, hp, hx⟩) htended
  rw [List.nil_append] at hend
  have honce : Once (mainLoop env pre gs v).log := by
    rw [Once, mainLoop, hend.parts, List.map_reverse, List.nodup_reverse]
    exact h.parts.sublist (due_outs env v _)
  exact ⟨hend.parts, hend.alone, honce, hend.mending honce⟩

/-- A good command of this run has made the file. -/
def madeGood (es : List (Cmd × Option Fate)) (o : Str) : Bool :=
  es.any fun e => decide (e.1.out = o) && okFate e.2

theorem madeGood_iff {es : List (Cmd × Option Fate)} {o : Str} :
    madeGood es o = true ↔ ∃ e ∈ es, e.1.out = o ∧ okFate e.2 = true := by
  simp [madeGood]

/-- In a run that has started no part twice, the commands that failed are those of the parts that no good
    command has made. -/
theorem Mending.failed (hX : Named X) (h : Mending X v w) (honce : Once w.log) :
    partCmds ((launched w.log).filter fun e => !okFate e.2) =
      (partCmds (launched w.log)).filter fun cmd => !madeGood (launched w.log) cmd.out := by
  rw [partCmds, partCmds, List.filter_map, List.filter_map, List.filter_map, List.filter_filter,
    List.filter_filter]
  refine congrArg (List.map Prod.fst) (List.filter_congr fun e he => ?_)
  cases hd : World.hasDep e.1.kind with
  | false => simp [hd]
  | true =>
    have hgood : madeGood (launched w.log) e.1.out = okFate e.2 := by
      rw [Bool.eq_iff_iff, madeGood_iff]
      refine ⟨fun ⟨e', he', ho, hok⟩ => ?_, fun hok => ⟨e, he, rfl, hok⟩⟩
      obtain ⟨y, hy, hout⟩ : ∃ y, X y ∧ e.1.out = y.product := by
        simpa only [making, hd, if_true] using h.makes e he
      have hd' := making_of_part (h.makes e' he') hX hy (ho.trans hout)
      rw [← honce.same he' he hd' hd ho]
      exact hok
    simp [hd, hgood]

/-- Which parts have to be made after a run. -/
theorem stale_again {v' : World} (h : Tidy v ps) (hmending : Mending (partsOf ps v v.target) v w)
    (hprocs : w.procs = []) (hparts : partCmds (launched w.log) = (ps.flatMap (Project.due env v)).reverse)
    (hr : v.rebuild = false) (hr' : v'.rebuild = false) (hfs : v'.fs = w.fs)
    (hmk : v'.makefileTime = w.makefileTime) (hx : partsOf ps v v.target x) :
    x.stale v' = (x.stale v && !madeGood (launched w.log) x.product) := by
  have hnow : x.stale v' = true ↔ ¬ x.Current w.fs w.makefileTime := by rw [stale_iff hr', hfs, hmk]
  cases hgood : madeGood (launched w.log) x.product with
  | true =>
    have hcurrent := (hmending.current hprocs hx (madeGood_iff.mp hgood)).current
    rw [Bool.not_true, Bool.and_false]
    exact Bool.eq_false_iff.mpr fun hs => hnow.mp hs hcurrent
  | false =>
    have hbad : ∀ e ∈ launched w.log, e.1.out = x.product → okFate e.2 = false := fun e he ho =>
      Bool.eq_false_iff.mpr fun hok => absurd (madeGood_iff.mpr ⟨e, he, ho, hok⟩) (by simp [hgood])
    rw [Bool.not_false, Bool.and_true]
    cases hs : x.stale v with
    | true =>
      exact hnow.mpr fun hcurrent => (stale_iff hr).mp hs (hmending.was_current h.lists hx hbad hcurrent)
    | false =>
      have hcurrent : x.Current v.fs v.makefileTime := not_not.mp fun hno => by
        rw [(stale_iff hr).mpr hno] at hs
        cases hs
      -- no command of the run makes it
      refine Bool.eq_false_iff.mpr fun hs' => hnow.mp hs' (hmending.still_current h.lists hx ?_ hcurrent)
      intro e he ho
      have hd := making_of_part (hmending.makes e he) h.named hx ho
      have hmem : e.1 ∈ ps.flatMap (Project.due env v) := by
        rw [← List.mem_reverse, ← hparts]
        exact List.mem_filter.mpr ⟨List.mem_map_of_mem he, hd⟩
      obtain ⟨p, hp, hcmd⟩ := List.mem_flatMap.mp hmem
      obtain ⟨y, hy, hstale, -, hout⟩ := mem_due hcmd
      have hxy : x = y := List.inj_on_of_nodup_map h.parts (mem_partsOf.mpr hx)
        (List.mem_flatMap.mpr ⟨p, hp, hy⟩) (ho.symm.trans hout)
      rw [hxy, hstale] at hs
      cases hs

/-- What is due after a run: what was due and was not made. -/
theorem due_again {v' : World} (hX : ∀ x ∈ p.parts v v.target, x.stale v' =
      (x.stale v && !madeGood (launched w.log) x.product))
    (hglob : v'.glob = v.glob) (htarget : v'.target = v.target) :
    p.due env v' = (p.due env v).filter fun cmd => !madeGood (launched w.log) cmd.out := by
  rw [Project.due, Project.due]
  cases pkgConfig env p.pkgdepends with
  | none => rfl
  | some cl =>
    obtain ⟨c, l⟩ := cl
    have hplan : p.plan v' v'.target (p.flagText c) = p.plan v v.target (p.flagText c) := by
      rw [Project.plan, Project.plan, htarget, Project.fnames_glob hglob]
    dsimp only
    rw [hplan, staleCmds, staleCmds, List.filter_map, List.filter_filter]
    refine congrArg (List.map Prod.snd) (List.filter_congr fun t ht => ?_)
    have hx : t.1 ∈ p.parts v v.target := plan_parts v v.target _ p ▸ List.mem_map_of_mem ht
    rw [hX t.1 hx, Function.comp_apply, (plan_makes ht).2, Bool.and_comm]

/-- The next run starts for parts the commands that failed in the run before, in the same order, and no
    others. -/
theorem failed_parts_again (r : Run) (later : List Act) (hprocs : w.procs = []) (hr : r.rebuild = false)
    (hmakefile : isProduct r.makefile = false) (hlater : ∀ a ∈ later, a.Calm) :
    let v := startRun r.target r.rebuild r.makefile (r.before.foldl World.act w)
    let ps := passed r.pre r.projects.zipIdx
    Tidy v ps → env.Sound (partsOf ps v r.target) → (∀ o, mtimeOf v.fs o ≤ sec v.clock) →
    partCmds (launched ((r.since later).exec env (r.exec env w)).log) =
      partCmds ((launched (r.exec env w).log).filter fun e => !okFate e.2) := by
  intro v ps htidy he htime
  have halone : v.procs = [] := begun_alone r hprocs
  obtain ⟨hparts, hend, honce, hmending⟩ := htidy.run he halone rfl (htime r.makefile) htime
  have hrun : mainLoop env r.pre r.projects v = r.exec env w := rfl
  rw [hrun] at hparts hend honce hmending
  -- between the two runs nobody moves
  have hstill := Still.acts later hlater (.refl hend)
  have hfs : (r.begun later (r.exec env w)).fs = (r.exec env w).fs := hstill.fs
  have hglob : (r.begun later (r.exec env w)).glob = v.glob := hstill.glob.trans hmending.near.glob
  have hmk : (r.begun later (r.exec env w)).makefileTime = (r.exec env w).makefileTime := by
    refine Eq.trans ?_ hmending.near.makefileTime.symm
    show mtimeOf (r.begun later (r.exec env w)).fs r.makefile = mtimeOf v.fs r.makefile
    rw [hfs, mtimeOf_congr (hmending.source hmakefile)]
  have hclock : sec (r.exec env w).clock ≤ sec (r.begun later (r.exec env w)).clock :=
    sec_mono (later_acts later _).clock
  have hX : partsOf ps (r.begun later (r.exec env w)) r.target = partsOf ps v r.target :=
    partsOf_glob hglob _ _
  have htidy' : Tidy (r.begun later (r.exec env w)) ps := by
    refine ⟨htidy.outputs, hX ▸ htidy.named, ?_, htidy.apart, ?_⟩
    · simp only [Project.parts_glob hglob]
      exact htidy.parts
    · rw [hfs]
      exact hX ▸ hmending.lists htidy.lists hend
  have he' : env.Sound (partsOf ps (r.begun later (r.exec env w)) r.target) := hX ▸ he
  have htime' : ∀ o, mtimeOf (r.begun later (r.exec env w)).fs o ≤ sec (r.begun later (r.exec env w)).clock :=
    fun o => by
      rw [hfs]
      exact (hmending.time o).trans hclock
  obtain ⟨hparts', -⟩ := htidy'.run he' hstill.procs rfl (htime' r.makefile) htime'
  have hdue : ps.flatMap (Project.due env (r.begun later (r.exec env w))) =
      (ps.flatMap (Project.due env v)).filter fun cmd => !madeGood (launched (r.exec env w).log) cmd.out := by
    rw [List.filter_flatMap]
    refine List.flatMap_congr fun p hp => due_again (fun x hx => ?_) hglob rfl
    exact stale_again htidy hmending hend hparts hr hr hfs hmk ⟨p, hp, hx⟩
  rw [hmending.failed htidy.named honce]
  refine hparts'.trans ?_
  rw [hdue, ← List.filter_reverse, ← hparts]

theorem graded_sound (n : ℕ) (good : Str → Bool) (hX : Named X) : (Env.graded n good).Sound X := by
  have hok : ∀ k cmd fs f, (Env.graded n good).fork k cmd fs = some f → f.ok = good cmd.out ∧ f.reads = [] ∧
      f.depText = ": ".toList ∧ f.outcome = if good cmd.out then .written else .left := by
    intro k cmd fs f hf
    obtain ⟨g, hg, hgood⟩ := graded_grades n good k cmd fs
    rw [hf] at hg
    obtain rfl := Option.some.inj hg
    obtain rfl := Option.some.inj hf
    exact ⟨hgood, rfl, rfl, rfl⟩
  refine ⟨hX, graded_calm n good, fun k cmd fs f hf hgood => ?_, fun k cmd fs f hf hbad => ?_,
    fun k cmd fs f hf x _ _ t ht => ?_⟩
  · obtain ⟨hfate, hreads, htext, hout⟩ := hok k cmd fs f hf
    rw [← hfate, hgood, if_pos rfl] at hout
    refine ⟨hout, by simp [hreads], fun _ => ⟨[], ?_, by simp [hreads]⟩⟩
    rw [htext]
    decide
  · obtain ⟨hfate, -, -, hout⟩ := hok k cmd fs f hf
    rw [← hfate, hbad] at hout
    rw [hout]
    decide
  · rw [(hok k cmd fs f hf).2.1] at ht
    exact absurd ht List.not_mem_nil

/-- The library does not compile, the program does: the next run compiles the library again. -/
theorem failed_parts_again_two :
    let good : Str → Bool := fun o => o != "obj//u.o".toList
    (partCmds (launched ((utilThenProg.since [.tick 1]).exec (Env.graded 2 good)
      (utilThenProg.exec (Env.graded 2 good) sourcesOnly)).log)).map Cmd.out = ["obj//u.o".toList] := by
  intro good
  have hdeps : DepsApart utilThenProg.projects [] (startRun [] false [] sourcesOnly) := by
    rw [DepsApart]
    decide +kernel
  have hlists : ∀ p ∈ utilThenProg.projects, ∀ x ∈ p.parts (startRun [] false [] sourcesOnly) [],
      x.prerequisites sourcesOnly.fs = [] := by decide +kernel
  have htidy : Tidy (startRun [] false [] sourcesOnly) utilThenProg.projects := by
    refine ⟨by decide +kernel, hdeps.named rfl, by decide +kernel, by decide +kernel, ?_⟩
    rintro x ⟨p, hp, hx⟩ t ht
    exact absurd (hlists p hp x hx ▸ ht) List.not_mem_nil
  have hagain := failed_parts_again utilThenProg [.tick 1] (w := sourcesOnly) rfl rfl rfl
    (fun a ha => List.mem_singleton.mp ha ▸ trivial) htidy (graded_sound 2 good (hdeps.named rfl))
    sourcesOnly_time
  rw [hagain]
  decide +kernel

end Cake
