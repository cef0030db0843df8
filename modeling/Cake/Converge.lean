import Cake.Plan

/-! A tree settles.

    A run does not bring everything up to date: an object that was looked at before the precompiled header
    it is made with was made anew stays behind, and so does an output that was kept before a later look
    raised `newest_time`. But a run brings up to date what is made of settled files alone, and the next run
    has more of them. After as many runs as there are levels the parts are current, the run after these
    brings the outputs in line, and from then on there is nothing to do.

        settled: sources ──▶ level 0 ──▶ level 1 ──▶ … ──▶ outputs
                       run 1       run 2                              -/

namespace Cake

variable {env : Env} {X : Part → Prop} {level : Str → ℕ} {m n : ℕ} {gs : List Project} {p : Project}
  {v w w' : World} {s : St} {x : Part} {pr : Proc} {fs : FS} {cmd : Cmd}

/-- What the runs leave alone when the parts of the levels below `m` are current: files that are no
    products, these parts and their dependency files. -/
def Steady (X : Part → Prop) (level : Str → ℕ) (m : ℕ) (o : Str) : Prop :=
  isProduct o = false ∨ ∃ x, X x ∧ level x.product < m ∧ (o = x.product ∨ o = x.dep)

/-- What commands read is steady when the parts of lower levels are current. -/
def Env.Layered (env : Env) (X : Part → Prop) (level : Str → ℕ) : Prop :=
  ∀ k cmd fs f, env.fork k cmd fs = some f → ∀ x, X x → x.product = cmd.out →
    ∀ t ∈ f.reads, Steady X level (level x.product) t

/-- And so is what the dependency files list. -/
def ListsBelow (X : Part → Prop) (level : Str → ℕ) (fs : FS) : Prop :=
  ∀ x, X x → ∀ t ∈ x.prerequisites fs, Steady X level (level x.product) t

/-- The file is not older than any of these. -/
def NotOlder (T : Str → Prop) (fs : FS) (o : Str) : Prop := ∀ t, T t → mtimeOf fs t ≤ mtimeOf fs o

/-- The part is not older than the files its dependency file lists. -/
def Part.Newer (fs : FS) (x : Part) : Prop := NotOlder (· ∈ x.prerequisites fs) fs x.product

/-- Commands that make parts and outputs, but write no steady file. -/
def maturing (X : Part → Prop) (level : Str → ℕ) (m : ℕ) : Rules :=
  { making X with exec := fun cmd => (making X).exec cmd ∧ ∀ o, cmd.writes o = true → ¬ Steady X level m o }

/-- And so is what the commands have read that the run has started. -/
def ReadsBelow (X : Part → Prop) (level : Str → ℕ) (log : List Ev) : Prop :=
  ∀ cmd f, (cmd, some f) ∈ launched log → ∀ x, X x → x.product = cmd.out →
    ∀ t ∈ f.reads, Steady X level (level x.product) t

/-- The run has started `e` between the two states. -/
def Since (v w : World) (e : Cmd × Option Fate) : Prop :=
  ∃ new, launched w.log = new ++ launched v.log ∧ e ∈ new

/-- A run that has come from `v`, where the parts of the levels below `m` are current, to `w`: the steady
    files are as they were, and what has been made since is not older than any of them. -/
structure Ripening (X : Part → Prop) (level : Str → ℕ) (m : ℕ) (v w : World) : Prop where
  near : Near v (fun o => ¬ Steady X level m o) w
  going : Going X w
  time : ∀ o, mtimeOf w.fs o ≤ sec w.clock
  reads : ∀ pr ∈ w.procs, ∀ x, X x → x.product = pr.cmd.out → ∀ t ∈ pr.fate.reads,
    Steady X level (level x.product) t
  lists : ListsBelow X level w.fs
  told : ReadsBelow X level w.log
  grown : ∃ new, launched w.log = new ++ launched v.log
  made : ∀ cmd f, Since v w (cmd, some f) →
    (∃ pr ∈ w.procs, pr.cmd = cmd ∧ pr.zombie = false) ∨ NotOlder (Steady X level m) w.fs cmd.out

/-! ### Steady files -/

theorem Steady.mono {n : ℕ} {o : Str} (h : Steady X level m o) (hmn : m ≤ n) : Steady X level n o := by
  rcases h with h | ⟨x, hx, hlt, ho⟩
  · exact Or.inl h
  · exact Or.inr ⟨x, hx, hlt.trans_le hmn, ho⟩

theorem Ripening.steady (h : Ripening X level m v w) {o : Str} (ho : Steady X level m o) :
    w.fs o = v.fs o := h.near.fs o (not_not_intro ho)

theorem ReadsBelow.before {log log' : List Ev} (h : ReadsBelow X level log')
    (hlog : ∃ new, launched log' = new ++ launched log) : ReadsBelow X level log := by
  obtain ⟨new, hnew⟩ := hlog
  exact fun cmd f hmem => h cmd f (by rw [hnew]; exact List.mem_append_right _ hmem)

theorem Since.after {e : Cmd × Option Fate} (h : Since v w e)
    (hlog : ∃ new, launched w'.log = new ++ launched w.log) : Since v w' e := by
  obtain ⟨new, hnew, he⟩ := h
  obtain ⟨more, hmore⟩ := hlog
  exact ⟨more ++ new, by rw [hmore, hnew, List.append_assoc], List.mem_append_right _ he⟩

theorem Since.before {e : Cmd × Option Fate} (h : Since w w' e)
    (hlog : ∃ new, launched w.log = new ++ launched v.log) : Since v w' e := by
  obtain ⟨new, hnew, he⟩ := h
  obtain ⟨old, hold⟩ := hlog
  exact ⟨new ++ old, by rw [hnew, hold, List.append_assoc], List.mem_append_left _ he⟩

theorem not_since {e : Cmd × Option Fate} : ¬ Since v v e := by
  rintro ⟨new, hnew, he⟩
  rw [List.self_eq_append_left] at hnew
  rw [hnew] at he
  exact absurd he List.not_mem_nil

theorem prerequisites_congr {fs' : FS} (h : fs' x.dep = fs x.dep) :
    x.prerequisites fs' = x.prerequisites fs := by
  rw [Part.prerequisites, Part.prerequisites, listed, listed, readFile, readFile, h]

/-- The files of a part of level `m` or above are not steady. -/
theorem not_steady (hX : Named X) (hx : X x) (hm : m ≤ level x.product) {o : Str} (ho : o ∈ x.writes) :
    ¬ Steady X level m o := by
  have hunder := hX.under x hx
  rintro (hprod | ⟨y, hy, hlt, heq⟩)
  · rcases List.mem_cons.mp ho with rfl | ho
    · rw [product_obj hunder] at hprod
      cases hprod
    · rw [List.mem_singleton.mp ho, product_obj (gccDepName_under hunder)] at hprod
      cases hprod
  · -- two parts with a file in common are one
    have hsame : x.product = y.product := by
      rcases List.mem_cons.mp ho with rfl | ho
      · rcases heq with heq | heq
        · exact heq
        · rw [hX.dep y hy] at heq
          exact absurd heq (hX.product x hx _)
      · rw [List.mem_singleton] at ho
        rcases heq with heq | heq
        · exact absurd (heq.symm.trans ho) (hX.product y hy _)
        · exact hX.apart x y hx hy (by rw [hX.dep x hx, ← ho, heq])
    rw [hsame] at hm
    omega

/-- A command that writes to the place of a part is one that makes it. -/
theorem making_of_part (h : (making X).exec cmd) (hX : Named X) (hx : X x) (ho : cmd.out = x.product) :
    World.hasDep cmd.kind = true := by
  simp only [making] at h
  split at h
  · assumption
  · obtain ⟨q, hq⟩ := h
    exact absurd (ho.symm.trans hq) (obj_ne_outPath (hX.under x hx) q)

theorem making_writes (h : (making X).exec cmd) (hX : Named X) {o : Str} (ho : cmd.writes o = true) :
    isProduct o = true := by
  simp only [making] at h
  simp only [Cmd.writes, Bool.or_eq_true, Bool.and_eq_true, decide_eq_true_eq] at ho
  split at h
  · obtain ⟨x, hx, hout⟩ := h
    have hunder : baseobjdir <+: cmd.out := hout ▸ hX.under x hx
    rcases ho with rfl | ⟨-, rfl⟩
    · exact product_obj hunder
    · exact product_obj (gccDepName_under hunder)
  · rename_i hd
    obtain ⟨q, hout⟩ := h
    rcases ho with rfl | ⟨hd', -⟩
    · exact hout ▸ product_outPath q
    · exact absurd hd' hd

/-- The other parts do not notice when a child exits. -/
theorem land_apart (hX : Named X) (hmakes : (making X).exec pr.cmd) (hx : X x) (hne : x.product ≠ pr.cmd.out)
    (w : World) : (w.land pr).fs x.product = w.fs x.product ∧ (w.land pr).fs x.dep = w.fs x.dep := by
  have hunder := hX.under x hx
  have hdep := hX.dep x hx
  have hproduct : pr.writes x.product = false ∧ pr.writes x.dep = false := by
    simp only [making] at hmakes
    simp only [Proc.writes, Bool.or_eq_false_iff, Bool.and_eq_false_iff, decide_eq_false_iff_not]
    split at hmakes
    · obtain ⟨y, hy, hout⟩ := hmakes
      rw [hout] at hne ⊢
      refine ⟨⟨Ne.symm hne, Or.inr (Ne.symm (hX.product x hx _))⟩, ?_, Or.inr fun heq => hne ?_⟩
      · rw [hdep]
        exact hX.product y hy _
      · exact hX.apart x y hx hy (by rw [hX.dep y hy, heq])
    · rename_i hd
      obtain ⟨q, hout⟩ := hmakes
      have hd : World.hasDep pr.cmd.kind = false := Bool.eq_false_iff.mpr hd
      refine ⟨⟨Ne.symm hne, Or.inl hd⟩, ?_, Or.inl hd⟩
      rw [hout, hdep]
      exact (obj_ne_outPath (gccDepName_under hunder) q).symm
  exact ⟨World.land_other hproduct.1 w, World.land_other hproduct.2 w⟩

theorem output_not_steady (hX : Named X) (p : Project) : ¬ Steady X level m p.outPath := by
  rintro (hprod | ⟨y, hy, -, heq | heq⟩)
  · rw [product_outPath] at hprod
    cases hprod
  · exact obj_ne_outPath (hX.under y hy) p heq.symm
  · rw [hX.dep y hy] at heq
    exact obj_ne_outPath (gccDepName_under (hX.under y hy)) p heq.symm

/-! ### A child whose files land -/

theorem land_mtime (h : pr.fate.outcome = .written) (w : World) (o : Str) :
    mtimeOf (w.land pr).fs o = if pr.writes o = true then sec w.clock else mtimeOf w.fs o := by
  rw [mtimeOf, World.land_written h]
  split
  · exact Proc.file_mtime pr o w.clock
  · rfl

/-- A part whose dependency file the child writes is the one it makes. -/
theorem Able.own_part (hX : Named X) (h : Able X fs pr) (hx : X x) (hw : pr.writes x.dep = true) :
    x.product = pr.cmd.out ∧ World.hasDep pr.cmd.kind = true := by
  obtain ⟨hd, ho⟩ : World.hasDep pr.cmd.kind = true ∧ gccDepName pr.cmd.out = x.dep := by
    simpa [Proc.writes, h.out_ne_dep hX hx] using hw
  obtain ⟨y, hy, hout⟩ := h.part hd
  refine ⟨?_, hd⟩
  rw [hout]
  exact hX.apart x y hx hy (by rw [hX.dep y hy, ← hout, ho])

/-- After a child has made a part, its dependency file lists what the child has read. -/
theorem land_lists (hX : Named X) (h : Able X w.fs pr) (hx : X x) (hd : World.hasDep pr.cmd.kind = true)
    (ho : x.product = pr.cmd.out) : ∀ t, t ∈ x.prerequisites (w.land pr).fs ↔ t ∈ pr.fate.reads := by
  obtain ⟨ts, hts, hreads⟩ := h.deps hd
  have hdep : (w.land pr).fs x.dep = some (pr.file x.dep w.clock) := by
    rw [World.land_written h.written, if_pos (by simp [Proc.writes, hd, hX.dep x hx, ho])]
  have hlisted : listed (w.land pr).fs x.dep = some ts :=
    readFile_some hdep (by rw [Proc.file, if_neg (h.out_ne_dep hX hx)]; exact hts)
  intro t
  rw [Part.prerequisites, hlisted]
  exact hreads t

/-- What the dependency file of a part lists after a child has exited: what the child has read, if it has
    made the part. -/
theorem land_prerequisites (hX : Named X) (h : Able X w.fs pr) (hx : X x) :
    x.prerequisites (w.land pr).fs = x.prerequisites w.fs ∨
      x.product = pr.cmd.out ∧ ∀ t, t ∈ x.prerequisites (w.land pr).fs ↔ t ∈ pr.fate.reads := by
  by_cases hw : pr.writes x.dep = true
  · obtain ⟨hout, hd⟩ := h.own_part hX hx hw
    exact Or.inr ⟨hout, land_lists hX h hx hd hout⟩
  · refine Or.inl (prerequisites_congr ?_)
    rw [World.land_written h.written, if_neg hw]

theorem land_notOlder {T : Str → Prop} (h : pr.fate.outcome = .written)
    (htime : ∀ o, mtimeOf w.fs o ≤ sec w.clock) (hT : ∀ t, T t → pr.writes t = false) {o : Str}
    (ho : pr.writes o = true ∨ NotOlder T w.fs o) : NotOlder T (w.land pr).fs o := by
  intro t ht
  rw [land_mtime h, land_mtime h, if_neg (by rw [hT t ht]; exact Bool.false_ne_true)]
  split
  · exact htime t
  · rename_i hw
    exact ho.resolve_left hw t ht

theorem Ripening.land_notOlder (h : Ripening X level m v w) (hpr : pr ∈ w.procs) {T : Str → Prop}
    (hT : ∀ t, T t → Steady X level m t) {o : Str} (ho : pr.writes o = true ∨ NotOlder T w.fs o) :
    NotOlder T (w.land pr).fs o :=
  Cake.land_notOlder (h.going.able pr hpr).written h.time
    (fun t ht => Bool.eq_false_iff.mpr fun hw => h.near.procs pr hpr t hw (hT t ht)) ho

/-! ### One move -/

/-- The rules of `maturing` are rules of `making`, and of writing files that are not steady. -/
theorem maturing_making (hp : Path env (maturing X level m) w w') : Path env (making X) w w' :=
  Path.widen (R := maturing X level m) (fun _ hc => hc.1) (fun _ e h => by cases e <;> exact h) hp

theorem maturing_writing (hp : Path env (maturing X level m) w w') :
    Path env (writing fun o => ¬ Steady X level m o) w w' :=
  Path.widen (R := maturing X level m) (fun _ hc => hc.2) (fun _ e h => by
    cases e with
    | build v => exact absurd h.2 id
    | _ => exact h) hp

theorem making_writing (hX : Named X) (hp : Path env (making X) w w') :
    Path env (writing fun o => isProduct o = true) w w' :=
  Path.widen (R := making X) (fun _ hc _ ho => making_writes hc hX ho) (fun _ e h => by
    cases e with
    | build v => exact absurd h.2 id
    | _ => exact h) hp

theorem Ripening.move (hX : Named X) (hcalm : env.Calm) (htruth : env.Truthful)
    (hm : Move env (maturing X level m) w w') (hok : AllOk w'.log) (htold : ReadsBelow X level w'.log)
    (h : Ripening X level m v w) : Ripening X level m v w' := by
  have hpids := h.near.pids
  have hmaking := maturing_making (.single hm)
  have hwriting := maturing_writing (.single hm)
  have hends := hm.ends hcalm hpids
  have hclock := sec_mono hm.later.clock
  refine ⟨h.near.path hcalm hwriting, (Went.path hX hcalm htruth hpids hmaking h.going hok).going,
    fun o => ?_, fun q hq x hx ho t ht => ?_, fun x hx => ?_, htold, ?_, fun cmd f hcmd => ?_⟩
  · rcases hends with ⟨hfs, -⟩ | ⟨pr, hpr, hfs, -⟩
    · rw [hfs]
      exact (h.time o).trans hclock
    · rw [hfs, land_mtime (h.going.able pr hpr).written]
      split
      · exact hclock
      · exact (h.time o).trans hclock
  · rcases hm.child hpids hq with hq | ⟨q₀, hq₀, rfl, -⟩ | ⟨cmd, f, -, -, rfl, -, hlog⟩
    · exact h.reads q hq x hx ho t ht
    · exact h.reads q₀ hq₀ x hx ho t ht
    · exact htold cmd f (by rw [hlog]; exact List.mem_cons_self) x hx ho t ht
  · rcases hends with ⟨hfs, -⟩ | ⟨pr, hpr, hfs, -⟩
    · rw [hfs]
      exact h.lists x hx
    · rw [hfs]
      rcases land_prerequisites hX (h.going.able pr hpr) hx with heq | ⟨hout, hreads⟩
      · rw [heq]
        exact h.lists x hx
      · exact fun t ht => h.reads pr hpr x hx hout t ((hreads t).mp ht)
  · obtain ⟨new, hnew⟩ := hm.launched
    obtain ⟨old, hold⟩ := h.grown
    exact ⟨new ++ old, by rw [hnew, hold, List.append_assoc]⟩
  · -- running, or landed
    obtain ⟨new, hnew, hrun⟩ := hm.started
    obtain ⟨old, hold⟩ := h.grown
    obtain ⟨all, hall, hcmd⟩ := hcmd
    rw [hnew, hold, ← List.append_assoc, List.append_cancel_right_eq] at hall
    rcases List.mem_append.mp (hall ▸ hcmd) with hcmd | hcmd
    · exact Or.inl (hrun cmd f hcmd)
    · rcases h.made cmd f ⟨old, hold, hcmd⟩ with ⟨q, hq, rfl, hz⟩ | hmade
      · rcases hends with ⟨-, hrun⟩ | ⟨pr, hpr, hfs, hrun⟩
        · exact Or.inl ⟨q, hrun q hq hz, rfl, hz⟩
        · rcases hrun q hq hz with rfl | hq'
          · rw [hfs]
            exact Or.inr (h.land_notOlder hpr (fun _ => id) (Or.inl (by simp [Proc.writes])))
          · exact Or.inl ⟨q, hq', rfl, hz⟩
      · rcases hends with ⟨hfs, -⟩ | ⟨pr, hpr, hfs, -⟩
        · rw [hfs]
          exact Or.inr hmade
        · rw [hfs]
          exact Or.inr (h.land_notOlder hpr (fun _ => id) (Or.inr hmade))

/-- A part up to level `m` that is not older than what it lists stays so, also when it is made anew. -/
theorem Ripening.land_newer (hX : Named X) (h : Ripening X level m v w) (hpr : pr ∈ w.procs) (hx : X x)
    (hm : level x.product ≤ m) (hn : x.Newer w.fs) : x.Newer (w.land pr).fs := by
  rw [Part.Newer]
  rcases land_prerequisites hX (h.going.able pr hpr) hx with heq | ⟨hout, hreads⟩
  · rw [heq]
    exact h.land_notOlder hpr (fun t ht => (h.lists x hx t ht).mono hm) (Or.inr hn)
  · refine h.land_notOlder hpr (fun t ht => ?_) (Or.inl (by simp [Proc.writes, hout]))
    exact (h.reads pr hpr x hx hout t ((hreads t).mp ht)).mono hm

/-- What holds between two states of such a run when its commands are all successes. -/
structure Ripened (X : Part → Prop) (level : Str → ℕ) (m : ℕ) (v w w' : World) : Prop where
  ripening : Ripening X level m v w'
  newer : ∀ x, X x → level x.product ≤ m → x.Newer w.fs → x.Newer w'.fs
  notOlder : ∀ T : Str → Prop, (∀ t, T t → Steady X level m t) → ∀ o, NotOlder T w.fs o → NotOlder T w'.fs o

theorem Ripened.trans {u : World} (h : Ripened X level m v u w) (k : Ripened X level m v w w') :
    Ripened X level m v u w' :=
  ⟨k.ripening, fun x hx hm hn => k.newer x hx hm (h.newer x hx hm hn),
    fun T hT o ho => k.notOlder T hT o (h.notOlder T hT o ho)⟩

theorem Ripened.move (hX : Named X) (hcalm : env.Calm) (htruth : env.Truthful)
    (hm : Move env (maturing X level m) w w') (hok : AllOk w'.log) (htold : ReadsBelow X level w'.log)
    (h : Ripening X level m v w) : Ripened X level m v w w' := by
  refine ⟨h.move hX hcalm htruth hm hok htold, fun x hx hlev hn => ?_, fun T hT o ho => ?_⟩
  · rcases hm.ends hcalm h.near.pids with ⟨hfs, -⟩ | ⟨pr, hpr, hfs, -⟩
    · rw [hfs]
      exact hn
    · rw [hfs]
      exact h.land_newer hX hpr hx hlev hn
  · rcases hm.ends hcalm h.near.pids with ⟨hfs, -⟩ | ⟨pr, hpr, hfs, -⟩
    · rw [hfs]
      exact ho
    · rw [hfs]
      exact h.land_notOlder hpr hT (Or.inr ho)

theorem Ripened.path (hX : Named X) (hcalm : env.Calm) (htruth : env.Truthful)
    (hm : Path env (maturing X level m) w w') (h : Ripening X level m v w) (hok : AllOk w'.log)
    (htold : ReadsBelow X level w'.log) : Ripened X level m v w w' := by
  refine Moves.keeps (I := fun u => AllOk u.log → ReadsBelow X level u.log → Ripened X level m v w u)
    (fun u u' hm hu hok htold => ?_) hm (fun _ _ => ⟨h, fun _ _ _ hn => hn, fun _ _ _ ho => ho⟩) hok htold
  have hbefore := hu (hok.before (.single hm)) (htold.before hm.launched)
  exact hbefore.trans (.move hX hcalm htruth hm hok htold hbefore.ripening)

/-! ### The looks -/

/-- The part is not older than what it lists, and `newest_time` has seen all of that, or a command that
    makes it has been started since. -/
def Looked (v w : World) (x : Part) : Prop :=
  (x.Newer w.fs ∧ ∀ t ∈ x.prerequisites w.fs, mtimeOf w.fs t ≤ w.newestTime) ∨
    ∃ cmd f, Since v w (cmd, some f) ∧ cmd.out = x.product

/-- The parts of the levels below `m` need not be made. -/
def Ripe (X : Part → Prop) (level : Str → ℕ) (m : ℕ) (w : World) : Prop :=
  ∀ x, X x → level x.product < m → x.Current w.fs w.makefileTime

theorem Ripe.reads_steady (hl : ListsBelow X level v.fs) (hx : X x) (hm : level x.product < m) :
    ∀ o ∈ x.reads v, Steady X level m o := by
  intro o ho
  rw [Part.reads] at ho
  split at ho
  · exact absurd ho List.not_mem_nil
  · rcases List.mem_cons.mp ho with rfl | ho
    · exact Or.inr ⟨x, hx, hm, Or.inl rfl⟩
    · rcases List.mem_cons.mp ho with rfl | ho
      · exact Or.inr ⟨x, hx, hm, Or.inr rfl⟩
      · exact (hl x hx o ho).mono hm.le

theorem Looked.of_stands {mk : ℕ} (h : Stands w.fs mk w.newestTime x.dep x.product) : Looked v w x := by
  obtain ⟨tokens, hl, hpass⟩ := h
  refine Or.inl ⟨fun t ht => ?_, fun t ht => ?_⟩
  all_goals rw [Part.prerequisites, hl] at ht
  · exact (passes_iff.mp (hpass t ht).1).2.2
  · exact (hpass t ht).2

theorem stands_of_look (h : (x.look w n).1 = false) :
    Stands w.fs w.makefileTime (x.look w n).2 x.dep x.product := by
  rw [Part.look] at h ⊢
  split at h
  · cases h
  · rename_i hthere
    rw [if_neg hthere]
    exact (stands_of_needsRebuild (Prod.ext h rfl)).2

theorem ForkLog.looked {cmd : Cmd} (hforks : env.Forks) (h : ForkLog env cmd w w')
    (hp : Path env (maturing X level m) w w') (ho : cmd.out = x.product) : Looked w w' x := by
  obtain ⟨-, ⟨fs, he⟩, -⟩ := h
  obtain ⟨f, hf⟩ := hforks w.nfork cmd fs
  obtain ⟨new, hlaunched, hexecs⟩ := hp.started (fun hb => hb)
  rw [he, hf] at hexecs
  refine Or.inr ⟨cmd, f, ⟨new, hlaunched, ?_⟩, ho⟩
  rw [← List.singleton_append, List.append_cancel_right_eq] at hexecs
  rw [← hexecs]
  exact List.mem_singleton_self _

theorem Looked.before {u : World} (h : Looked w u x) (hlog : ∃ new, launched w.log = new ++ launched v.log) :
    Looked v u x :=
  h.imp_right fun ⟨cmd, f, hsince, ho⟩ => ⟨cmd, f, hsince.before hlog, ho⟩

/-- A state `v` to go on from, and the outside. -/
structure Ground (env : Env) (X : Part → Prop) (level : Str → ℕ) (m : ℕ) (v : World) : Prop where
  named : Named X
  calm : env.Calm
  forks : env.Forks
  truthful : env.Truthful
  lists : ListsBelow X level v.fs
  ripe : Ripe X level m v
  plain : v.rebuild = false ∨ m = 0

/-- A run begins in `v`. -/
structure Setting (env : Env) (X : Part → Prop) (level : Str → ℕ) (m : ℕ) (v : World) : Prop
    extends Ground env X level m v where
  layered : env.Layered X level

/-- The steady files are those of `v`. -/
abbrev Kin (X : Part → Prop) (level : Str → ℕ) (m : ℕ) (v w : World) : Prop :=
  Near v (fun o => ¬ Steady X level m o) w

namespace Ground

/-- A command that is started for a part keeps to the rules. -/
theorem exec (h : Ground env X level m v) (hx : X x) (hnear : Kin X level m v w) {n : ℕ}
    (hlook : (x.look w n).1 = true) {cmd : Cmd} (hd : World.hasDep cmd.kind = true)
    (ho : cmd.out = x.product) : (maturing X level m).exec cmd := by
  refine ⟨making_part hd hx ho, fun o hw => not_steady h.named hx ?_ (writes_part ho hw)⟩
  by_contra hlt
  rw [not_le] at hlt
  have hr : v.rebuild = false := h.plain.resolve_right (by omega)
  rw [hnear.look (fun o ho hno => hno (Ripe.reads_steady h.lists hx hlt o ho)),
    look_current hr (h.ripe x hx hlt)] at hlook
  cases hlook

theorem kin (h : Ground env X level m v) (hp : Path env (maturing X level m) w w')
    (hw : Kin X level m v w) : Kin X level m v w' := hw.path h.calm (maturing_writing hp)

theorem doCompile (h : Ground env X level m v) (cflags fname : Str) (hne : s.b.jobs ≠ [])
    (hx : X (sourcePart v.target fname)) (hw : Kin X level m v s.w) :
    Path env (maturing X level m) s.w (doCompile env cflags fname s).w ∧
      Looked s.w (Cake.doCompile env cflags fname s).w (sourcePart v.target fname) := by
  have hy := h.kin (path_yield env _ s.w) hw
  have hpath : Path env (maturing X level m) s.w (Cake.doCompile env cflags fname s).w := by
    refine path_asked (fun hasks => ?_) fun _ _ => trivial
    rw [asksRebuild_look, hw.target] at hasks
    rw [hw.target]
    exact h.exec hx hy hasks rfl rfl
  refine ⟨hpath, ?_⟩
  · rcases doCompile_log env cflags fname s hne with ⟨-, hlog⟩ | ⟨hasks, -⟩
    · exact hlog.looked h.forks hpath (by rw [hw.target]; rfl)
    · rw [asksRebuild] at hasks
      rw [Cake.doCompile]
      dsimp only [countSource, compileCmd] at hasks ⊢
      rcases hr : needsRebuild _ _ _ _ _ _ with ⟨_ | _, newest⟩
      · have hst := (stands_of_needsRebuild hr).2
        rw [hy.target] at hst
        exact Looked.of_stands (x := sourcePart v.target fname) hst
      · rw [hr] at hasks
        cases hasks

theorem makePch (h : Ground env X level m v) (pch cflags : Str) (cpp : Bool)
    (hx : X (headerPart v.target pch)) (hw : Kin X level m v s.w) :
    Path env (maturing X level m) s.w (makePch env pch cflags cpp s).w ∧
      Looked s.w (Cake.makePch env pch cflags cpp s).w (headerPart v.target pch) := by
  have hy := h.kin (path_yield env _ s.w) hw
  have hstill : ∀ n, (s.w.yield env).newestTime ≤ n → Path env (maturing X level m) s.w
      { s.w.yield env with newestTime := n } := fun n hn => (path_yield env _ s.w).tail (.aside _ _ hn)
  have hle := look_newest (s.w.yield env) (s.w.yield env).newestTime (headerPart v.target pch)
  rw [makePch_eq]
  dsimp only
  rw [hw.target]
  split
  · rename_i hfound
    have hexec : (maturing X level m).exec (pchCmd v.target cflags cpp pch) := h.exec hx hy hfound rfl rfl
    have hpath : Path env (maturing X level m) _ (buildPch env (pchCmd v.target cflags cpp pch)
        ⟨{ s.b with pchname := mkpchname (objdir v.target) pch }, { s.w.yield env with
          newestTime := ((headerPart v.target pch).look (s.w.yield env) (s.w.yield env).newestTime).2 }⟩).w :=
      path_buildPch hexec _
    exact ⟨(hstill _ hle).trans hpath,
      ((buildPch_log env _ _).looked h.forks hpath rfl).before (hstill _ hle).launched⟩
  · rename_i hfound
    exact ⟨hstill _ hle, .of_stands (stands_of_look (Bool.eq_false_iff.mpr hfound))⟩

end Ground

/-- Between two states all the parts have been looked at. -/
def Toured (env : Env) (X : Part → Prop) (level : Str → ℕ) (m : ℕ) (xs : List Part) (w w' : World) : Prop :=
  ∀ x ∈ xs, ∃ u, Path env (maturing X level m) w u ∧ Path env (maturing X level m) u w' ∧ Looked w u x

theorem Toured.nil : Toured env X level m [] w w' := fun _ hx => absurd hx List.not_mem_nil

theorem Toured.append {xs ys : List Part} {u : World} (hx : Toured env X level m xs w u)
    (hy : Toured env X level m ys u w') (hwu : Path env (maturing X level m) w u)
    (huw : Path env (maturing X level m) u w') : Toured env X level m (xs ++ ys) w w' := by
  intro x hmem
  rcases List.mem_append.mp hmem with hmem | hmem
  · obtain ⟨u', hp, hq, hlooked⟩ := hx x hmem
    exact ⟨u', hp, hq.trans huw, hlooked⟩
  · obtain ⟨u', hp, hq, hlooked⟩ := hy x hmem
    exact ⟨u', hwu.trans hp, hq, hlooked.before hwu.launched⟩

theorem Toured.last {xs : List Part} (hp : Path env (maturing X level m) w w')
    (h : ∀ x ∈ xs, Looked w w' x) : Toured env X level m xs w w' := fun x hx => ⟨w', hp, .refl, h x hx⟩

namespace Ground

theorem compileAll (h : Ground env X level m v) (cflags : Str) : ∀ (fs : List Str) (s : St),
    s.b.jobs ≠ [] → (∀ f ∈ fs, X (sourcePart v.target f)) → Kin X level m v s.w →
    Path env (maturing X level m) s.w (compileAll env cflags fs s).w ∧
      Toured env X level m (fs.map (sourcePart v.target)) s.w (Cake.compileAll env cflags fs s).w
  | [], _, _, _, _ => ⟨.refl, .nil⟩
  | f :: fs, s, hne, hX, hw => by
    obtain ⟨hf, hfs⟩ := List.forall_mem_cons.mp hX
    obtain ⟨hstep, hlooked⟩ := h.doCompile cflags f hne hf hw
    obtain ⟨hrest, htour⟩ := h.compileAll cflags fs (Cake.doCompile env cflags f s)
      (doCompile_ne_nil env cflags f hne) hfs (h.kin hstep hw)
    exact ⟨hstep.trans hrest, (Toured.last hstep (List.forall_mem_singleton.mpr hlooked)).append htour hstep hrest⟩

theorem header (h : Ground env X level m v) (cflags : Str) (hX : ∀ x ∈ p.parts v v.target, X x)
    (hw : Kin X level m v w) :
    Path env (maturing X level m) (newBuild env w).w (p.header env cflags w).w ∧
      ∀ x ∈ p.headerParts v.target, Looked (newBuild env w).w (p.header env cflags w).w x := by
  rw [Project.header, Project.pchStep, Project.headerParts]
  cases hfind : p.files.find? isHeader with
  | none => exact ⟨.refl, fun _ hx => absurd hx List.not_mem_nil⟩
  | some hd =>
    obtain ⟨hp, hlooked⟩ := h.makePch (s := newBuild env w) hd cflags p.makingCpp (header_part hX hfind)
      (hw.say _)
    exact ⟨hp, List.forall_mem_singleton.mpr hlooked⟩

/-- The sources after the header. -/
theorem sources (h : Ground env X level m v) (cflags : Str) (hX : ∀ x ∈ p.parts v v.target, X x)
    (hw : Kin X level m v (p.header env cflags w).w) :
    Path env (maturing X level m) (p.header env cflags w).w
        (p.after env cflags (p.sources env cflags w).length w).w ∧
      Toured env X level m ((p.fnames v).map (sourcePart v.target)) (p.header env cflags w).w
        (p.after env cflags (p.sources env cflags w).length w).w := by
  have hglob : w.glob = v.glob := ((path_header_all env p cflags w).glob h.calm).symm.trans hw.glob
  have hnames : p.sources env cflags w = p.fnames v := by
    rw [p.sources_calm h.calm, Project.fnames_glob hglob]
  rw [Project.after, List.take_length, hnames]
  exact h.compileAll cflags (p.fnames v) (p.header env cflags w) (header_busy env p cflags w)
    (fun f hf => source_part hX hf) hw

/-- The output after the sources. -/
theorem output_path (h : Ground env X level m v) {t : St} (htrue : p.compile env gs w = (true, t))
    {c : Str} {l : List Str} (hpkg : pkgConfig env p.pkgdepends = some (c, l)) :
    Path env (maturing X level m) (p.after env (p.flagText c) (p.sources env (p.flagText c) w).length w).w
      t.w := by
  obtain ⟨-, hout, htype⟩ := compile_builds htrue
  obtain ⟨mkCmd, hmk, heq⟩ := p.compile_produce hpkg hout htype gs w
  have hexec : (maturing X level m).exec (mkCmd (decision env
      (p.after env (p.flagText c) (p.sources env (p.flagText c) w).length w))) := by
    refine ⟨making_output (hmk.kind _) (hmk.out _), fun o ho => ?_⟩
    rw [output_writes (hmk.kind _) ho, hmk.out]
    exact output_not_steady h.named p
  have hproduce := path_produce (R := maturing X level m) hexec fun _ _ => trivial
  rwa [← heq, htrue] at hproduce

/-- A build that returns true. -/
theorem compile (h : Ground env X level m v) {t : St} (hX : ∀ x ∈ p.parts v v.target, X x)
    (hw : Kin X level m v w) (htrue : p.compile env gs w = (true, t)) :
    Path env (maturing X level m) (newBuild env w).w t.w ∧
      Toured env X level m (p.parts v v.target) (newBuild env w).w t.w := by
  obtain ⟨⟨c, l, hpkg⟩, -⟩ := compile_builds htrue
  obtain ⟨hhead, hheader⟩ := h.header (p.flagText c) hX hw
  obtain ⟨hsources, htour⟩ := h.sources (p.flagText c) hX (h.kin hhead (hw.say _))
  have hlast := h.output_path htrue hpkg
  refine ⟨(hhead.trans hsources).trans hlast, fun x hx => ?_⟩
  obtain ⟨u, hu, hrest, hlooked⟩ := (Toured.last hhead hheader).append htour hhead hsources x hx
  exact ⟨u, hu, hrest.trans hlast, hlooked⟩

end Ground

/-! ### A run -/

theorem Ripening.say (h : Ripening X level m v w) {e : Ev} (he : launched (e :: w.log) = launched w.log) :
    Ripening X level m v (w.say e) := by
  obtain ⟨hnear, ⟨htime, hable, hdone⟩, hclock, hreads, hlists, htold, hgrown, hmade⟩ := h
  refine ⟨hnear.say e, ⟨htime, hable, fun cmd f hmem => hdone cmd f (he ▸ hmem)⟩, hclock, hreads, hlists,
    htold.before ⟨[], he.symm⟩, ?_, fun cmd f hsince => hmade cmd f ?_⟩
  · obtain ⟨new, hnew⟩ := hgrown
    exact ⟨new, he.trans hnew⟩
  · obtain ⟨new, hnew, hmem⟩ := hsince
    exact ⟨new, he.symm.trans hnew, hmem⟩

/-- What is not running any more and has been started since is not older than any steady file. -/
theorem Ripening.landed (h : Ripening X level m v w) (hprocs : w.procs = []) {f : Fate}
    (hsince : Since v w (cmd, some f)) : NotOlder (Steady X level m) w.fs cmd.out := by
  rcases h.made cmd f hsince with ⟨pr, hpr, -⟩ | hmade
  · rw [hprocs] at hpr
    exact absurd hpr List.not_mem_nil
  · exact hmade

/-- When nothing runs any more, a part up to level `m` that was looked at is not older than what it lists. -/
theorem Looked.isNewer {u : World} (hx : X x) (hm : level x.product ≤ m) (h : Looked v u x)
    (hend : Ripened X level m v u w) (hprocs : w.procs = [])
    (hlog : ∃ new, launched w.log = new ++ launched u.log) : x.Newer w.fs := by
  rcases h with ⟨hnewer, -⟩ | ⟨cmd, f, hsince, hout⟩
  · exact hend.newer x hx hm hnewer
  · intro t ht
    rw [← hout]
    exact hend.ripening.landed hprocs (hsince.after hlog) t ((hend.ripening.lists x hx t ht).mono hm)

/-- When nothing runs any more, the parts up to level `m` that were looked at on the way are not older than
    what they list. -/
theorem Toured.newer (hX : Named X) (hcalm : env.Calm) (htruth : env.Truthful) {xs : List Part}
    (h : Toured env X level m xs w w') (hw : Ripening X level m v w) (hok : AllOk w'.log)
    (htold : ReadsBelow X level w'.log) (hprocs : w'.procs = []) (hx : x ∈ xs) (hmem : X x)
    (hm : level x.product ≤ m) : x.Newer w'.fs := by
  obtain ⟨u, hu, hrest, hlooked⟩ := h x hx
  have hmid := Ripened.path hX hcalm htruth hu hw (hok.before hrest) (htold.before hrest.launched)
  refine (hlooked.before hw.grown).isNewer hmem hm ?_ hprocs hrest.launched
  exact .path hX hcalm htruth hrest hmid.ripening hok htold

/-- What a build has read is known when what commands read is. -/
theorem ReadsBelow.compile (hl : env.Layered X level) {t : St} (h : ReadsBelow X level w.log)
    (htrue : p.compile env gs w = (true, t)) : ReadsBelow X level t.w.log := by
  have hpath := path_compile_all env p gs w
  rw [htrue] at hpath
  refine Moves.keeps (I := fun u => ReadsBelow X level u.log) (fun u u' hm hu cmd f hmem x hx ho => ?_) hpath h
  rcases hm.launches with heq | ⟨c, -, heq⟩
  · exact hu cmd f (heq ▸ hmem) x hx ho
  · rcases List.mem_cons.mp (heq ▸ hmem) with hnew | hmem
    · obtain ⟨rfl, hf⟩ := Prod.mk.injEq .. ▸ hnew
      exact hl _ _ _ _ hf.symm x hx ho
    · exact hu cmd f hmem x hx ho

/-- A build that returned true: its parts up to level `m` are not older than what they list, and those of
    earlier builds still are not. -/
theorem Ground.build (h : Ground env X level m v) {t : St} (hX : ∀ x ∈ p.parts v v.target, X x)
    (hland : Landing X w) (hw : Ripening X level m v w) (htrue : p.compile env gs w = (true, t))
    (htold : ReadsBelow X level t.w.log) : Landing X t.w ∧ Ripened X level m v w t.w ∧
      ∀ x ∈ p.parts v v.target, level x.product ≤ m → x.Newer t.w.fs := by
  have hparts : ∀ x ∈ p.parts w w.target, X x := fun x hx => by
    rw [hw.near.target, Project.parts_glob hw.near.glob] at hx
    exact hX x hx
  obtain ⟨hland', -⟩ := hland.compile h.named h.forks h.calm h.truthful hparts htrue
  obtain ⟨hpath, htour⟩ := h.compile hX hw.near htrue
  have hnew : Ripening X level m v (newBuild env w).w := hw.say rfl
  have hripened : Ripened X level m v (newBuild env w).w t.w :=
    .path h.named h.calm h.truthful hpath hnew hland'.ok htold
  exact ⟨hland', ⟨hripened.ripening, hripened.newer, hripened.notOlder⟩, fun x hx hm =>
    htour.newer h.named h.calm h.truthful hnew hland'.ok htold hland'.alone.procs hx (hX x hx) hm⟩

/-- The same when what all commands read is known. -/
theorem Setting.build (h : Setting env X level m v) {t : St} (hX : ∀ x ∈ p.parts v v.target, X x)
    (hland : Landing X w) (hw : Ripening X level m v w) (htrue : p.compile env gs w = (true, t)) :
    Landing X t.w ∧ Ripened X level m v w t.w ∧
      ∀ x ∈ p.parts v v.target, level x.product ≤ m → x.Newer t.w.fs :=
  h.toGround.build hX hland hw htrue (hw.told.compile h.layered htrue)

/-- The run after `k` builds that returned true. -/
structure Matured (gs : List Project) (X : Part → Prop) (level : Str → ℕ) (m : ℕ) (v : World) (k : ℕ)
    (w : World) : Prop where
  landing : Landing X w
  ripening : Ripening X level m v w
  newer : ∀ i < k, ∀ p, gs[i]? = some p → ∀ x ∈ p.parts v v.target, level x.product ≤ m → x.Newer w.fs

theorem Matured.build (h : Setting env (partsOf gs v v.target) level m v) {k : ℕ} {t : St}
    (hp : gs[k]? = some p) (hw : Matured gs (partsOf gs v v.target) level m v k w)
    (htrue : p.compile env gs w = (true, t)) :
    Matured gs (partsOf gs v v.target) level m v (k + 1) (t.w.say (.leave k true)) := by
  have hX : ∀ x ∈ p.parts v v.target, partsOf gs v v.target x := fun x hx =>
    ⟨p, List.mem_of_getElem? hp, hx⟩
  obtain ⟨⟨⟨hpids, hprocs⟩, ⟨htime, hable, hdone⟩, hok⟩, hripened, hnewer⟩ :=
    h.build hX hw.landing hw.ripening htrue
  refine ⟨⟨⟨⟨hpids.nodup, hpids.bound⟩, hprocs⟩, ⟨htime, hable, hdone⟩, hok⟩, hripened.ripening.say rfl,
    fun i hi q hq x hx hm => ?_⟩
  rcases Nat.lt_succ_iff_lt_or_eq.mp hi with hi | rfl
  · exact hripened.newer x ⟨q, List.mem_of_getElem? hq, hx⟩ hm (hw.newer i hi q hq x hx hm)
  · obtain rfl : p = q := Option.some.inj (hp.symm.trans hq)
    exact hnewer x hx hm

theorem Ripening.refl (hprocs : v.procs = []) (hgoing : Going X v) (htime : ∀ o, mtimeOf v.fs o ≤ sec v.clock)
    (hlists : ListsBelow X level v.fs) (htold : ReadsBelow X level v.log) : Ripening X level m v v :=
  ⟨.refl hprocs, hgoing, htime, fun _ hpr => absurd (hprocs ▸ hpr) List.not_mem_nil, hlists, htold,
    ⟨[], rfl⟩, fun _ _ h => absurd h not_since⟩

/-- A run begins. -/
theorem Setting.start (h : Setting env X level m v) (hprocs : v.procs = []) (hnone : launched v.log = [])
    (hmk : v.makefileTime ≤ sec v.clock) (htime : ∀ o, mtimeOf v.fs o ≤ sec v.clock) :
    Matured gs X level m v 0 v := by
  have hnothing : ∀ e, e ∉ launched v.log := fun e he => absurd (hnone ▸ he) List.not_mem_nil
  have hgoing : Going X v := ⟨hmk, fun pr hpr => absurd (hprocs ▸ hpr) List.not_mem_nil,
    fun cmd f hmem => absurd hmem (hnothing _)⟩
  exact ⟨⟨alone_of_procs hprocs, hgoing, fun e he => absurd he (hnothing e)⟩,
    .refl hprocs hgoing htime h.lists fun cmd f hmem => absurd hmem (hnothing _),
    fun i hi => absurd hi (Nat.not_lt_zero i)⟩

/-- A run whose builds have all returned true brings one more level up to date. -/
theorem ripe_mainLoop (h : Setting env (partsOf gs v v.target) level m v)
    (h0 : Matured gs (partsOf gs v v.target) level m v 0 v) (hnone : returns v.log = [])
    (hall : ∀ i < gs.length, (i, true) ∈ returns (mainLoop env (fun _ => true) gs v).log) :
    Matured gs (partsOf gs v v.target) level m v gs.length (mainLoop env (fun _ => true) gs v) ∧
      Ripe (partsOf gs v v.target) level (m + 1) (mainLoop env (fun _ => true) gs v) := by
  obtain ⟨hwalked, hmatured⟩ := mainLoop_true h.calm h0 hnone hall fun k p w t hp _ hw htrue =>
    hw.build h hp htrue
  obtain ⟨hwhole, -⟩ := whole_mainLoop h.forks h.calm h.truthful h.named h0.landing hnone hall
  refine ⟨hmatured, fun x ⟨p, hp, hx⟩ hm => ?_⟩
  have hparts : p.parts (mainLoop env (fun _ => true) gs v) v.target = p.parts v v.target :=
    Project.parts_glob hwalked.glob _ p
  obtain ⟨i, hi⟩ := List.getElem?_of_mem hp
  rw [hwalked.makefileTime]
  exact ⟨hwhole.parts p hp x (hparts.symm ▸ hx),
    hmatured.newer i (List.getElem?_eq_some_iff.mp hi).1 p hi x hx (Nat.lt_succ_iff.mp hm)⟩

/-! ### The outputs -/

/-- A build that returned true has kept an output that is up to date and changed no file, or its last command
    is the one of the output. -/
theorem compile_answer (hforks : env.Forks) {t : St} (htrue : p.compile env gs w = (true, t)) {c : Str}
    {l : List Str} (hpkg : pkgConfig env p.pkgdepends = some (c, l)) :
    t.w.newestTime = (p.ready env (p.flagText c) w).w.newestTime ∧
      ((p.ready env (p.flagText c) w).b.nfailed = 0 ∧ upToDate (p.ready env (p.flagText c) w) p.outPath = true ∧
          t.w.fs = (p.ready env (p.flagText c) w).w.fs ∧
          launched t.w.log = launched (p.ready env (p.flagText c) w).w.log ∨
        ∃ cmd f, cmd.out = p.outPath ∧
          execs t.w.log = (cmd, some f) :: execs (p.ready env (p.flagText c) w).w.log) := by
  obtain ⟨-, hout, htype⟩ := compile_builds htrue
  obtain ⟨mkCmd, hmk, heq⟩ := p.compile_produce hpkg hout htype gs w
  have hnewest := produce_newest env mkCmd
    (p.after env (p.flagText c) (p.sources env (p.flagText c) w).length w)
  rw [← heq, htrue] at hnewest
  rw [htrue, produce] at heq
  rw [← decision] at heq
  refine ⟨hnewest, ?_⟩
  rw [Project.ready]
  generalize decision env (p.after env (p.flagText c) (p.sources env (p.flagText c) w).length w) = d at heq ⊢
  split at heq
  · exact absurd (congrArg Prod.fst heq) Bool.noConfusion
  · rename_i hfailed
    split at heq
    · rename_i hup
      rw [hmk.out] at hup
      simp only [Prod.mk.injEq] at heq
      obtain ⟨-, rfl⟩ := heq
      exact Or.inl ⟨not_not.mp hfailed, hup, rfl, rfl⟩
    · obtain ⟨-, ⟨fs, he⟩, -⟩ := buildOutput_log env (mkCmd d) d
      obtain ⟨f, hf⟩ := hforks d.w.nfork (mkCmd d) fs
      rw [← heq, hf] at he
      exact Or.inr ⟨mkCmd d, f, hmk.out d, he⟩

/-- The newest command of a build was started since any earlier state of it. -/
theorem since_newest {R R' : Rules} (hb : ¬ R.build) (hb' : ¬ R'.build) {u : World}
    {e : Cmd × Option Fate} (hp : Path env R v u) (hq : Path env R' v w) (he : execs w.log = e :: execs u.log) :
    Since v w e := by
  obtain ⟨old, -, hold⟩ := hp.started hb
  obtain ⟨new, hnew, hexecs⟩ := hq.started hb'
  rw [he, hold, ← List.cons_append, List.append_cancel_right_eq] at hexecs
  exact ⟨new, hnew, by rw [← hexecs]; exact List.mem_cons_self⟩

/-- The output of a build that returned true is not older than any steady file, or it was kept. -/
theorem Setting.output (h : Setting env X level m v) {t : St} (hX : ∀ x ∈ p.parts v v.target, X x)
    (hland : Landing X w) (hw : Ripening X level m v w) (htrue : p.compile env gs w = (true, t)) :
    ∃ c l, pkgConfig env p.pkgdepends = some (c, l) ∧
      t.w.newestTime = (p.ready env (p.flagText c) w).w.newestTime ∧
      (NotOlder (Steady X level m) t.w.fs p.outPath ∨
        (p.ready env (p.flagText c) w).b.nfailed = 0 ∧
          upToDate (p.ready env (p.flagText c) w) p.outPath = true ∧
          t.w.fs = (p.ready env (p.flagText c) w).w.fs) := by
  obtain ⟨⟨c, l, hpkg⟩, -⟩ := compile_builds htrue
  obtain ⟨hnewest, hanswer⟩ := compile_answer h.forks htrue hpkg
  refine ⟨c, l, hpkg, hnewest, ?_⟩
  rcases hanswer with ⟨hfailed, hup, hfs, -⟩ | ⟨cmd, f, hout, he⟩
  · exact Or.inr ⟨hfailed, hup, hfs⟩
  · left
    obtain ⟨hland', hripened, -⟩ := h.build hX hland hw htrue
    obtain ⟨hhead, -⟩ := h.header (p := p) (p.flagText c) hX hw.near
    obtain ⟨hsources, -⟩ := h.sources (p.flagText c) hX (h.kin hhead (hw.near.say _))
    have hsince := since_newest (fun hb => hb) (fun hb => hb)
      ((hhead.trans hsources).trans (path_decision _)) (h.compile hX hw.near htrue).1 he
    rw [← hout]
    exact hripened.ripening.landed hland'.alone.procs (hsince.before hw.grown)

/-- A file that the dependency file of one of the first `k` projects' parts lists. -/
def ListedBefore (gs : List Project) (v : World) (k : ℕ) (t : Str) : Prop :=
  ∃ x ∈ partsBefore gs v k, t ∈ x.prerequisites v.fs

/-- The run after `k` builds that have found all their parts current. -/
structure Aligned (gs : List Project) (v : World) (k : ℕ) (w : World) : Prop where
  newest : w.newestTime = newestAfter v.fs 0 (partsBefore gs v k)
  outputs : ∀ j < k, ∀ q, gs[j]? = some q → NotOlder (ListedBefore gs v (j + 1)) w.fs q.outPath

theorem seenAfter_current (hr : v.rebuild = false) : ∀ (xs : List Part) (n : ℕ),
    (∀ x ∈ xs, x.Current v.fs v.makefileTime) → seenAfter v n xs = newestAfter v.fs n xs
  | [], _, _ => rfl
  | x :: xs, n, h => by
    obtain ⟨hx, hxs⟩ := List.forall_mem_cons.mp h
    have hcons := newestAfter_append v.fs n [x] xs
    rw [List.singleton_append] at hcons
    rw [hcons, ← seenAfter_current hr xs _ hxs, seenAfter, List.foldl_cons, look_current hr hx]
    rfl

theorem ListedBefore.steady (hl : ListsBelow (partsOf gs v v.target) level v.fs)
    (hbelow : ∀ x, partsOf gs v v.target x → level x.product < m) {k : ℕ} {t : Str}
    (ht : ListedBefore gs v k t) : Steady (partsOf gs v v.target) level m t := by
  obtain ⟨x, hx, ht⟩ := ht
  exact (hl x (partsOf_before hx) t ht).mono (hbelow x (partsOf_before hx)).le

theorem Aligned.build (h : Setting env (partsOf gs v v.target) level m v) (hr : v.rebuild = false)
    (hbelow : ∀ x, partsOf gs v v.target x → level x.product < m) {k : ℕ} {t : St} (hp : gs[k]? = some p)
    (hland : Landing (partsOf gs v v.target) w) (hw : Ripening (partsOf gs v v.target) level m v w)
    (ha : Aligned gs v k w) (htrue : p.compile env gs w = (true, t)) :
    Aligned gs v (k + 1) (t.w.say (.leave k true)) := by
  have hX : ∀ x ∈ p.parts v v.target, partsOf gs v v.target x := fun x hx =>
    ⟨p, List.mem_of_getElem? hp, hx⟩
  have hcurrent : ∀ x ∈ p.parts v v.target, x.Current v.fs v.makefileTime := fun x hx =>
    h.ripe x (hX x hx) (hbelow x (hX x hx))
  obtain ⟨-, hripened, -⟩ := h.build hX hland hw htrue
  obtain ⟨c, l, -, hnewest, hout⟩ := h.output hX hland hw htrue
  -- nothing has to be made, so every prerequisite is seen
  have hquiet : Undisturbed v (fun o => ¬ Steady (partsOf gs v v.target) level m o) (p.parts v v.target) := by
    refine undisturbed_iff.mpr
      ⟨fun x hx o ho hno => ?_, List.pairwise_iff_forall_sublist.mpr fun hsub hs => ?_⟩
    · exact hno (Ripe.reads_steady h.lists (hX x hx) (hbelow x (hX x hx)) o ho)
    · have hx := hcurrent _ (hsub.subset List.mem_cons_self)
      rw [Part.stale, look_current hr hx] at hs
      cases hs
  have hready := Planned.ready h.calm p (p.flagText c) hw.near ha.newest hquiet
  have hseen : t.w.newestTime = newestAfter v.fs 0 (partsBefore gs v (k + 1)) := by
    rw [hnewest, hready.newest, seenAfter_current hr _ _ hcurrent, partsBefore_succ hp, newestAfter_append]
  refine ⟨hseen, fun j hj q hq => ?_⟩
  have hsteady : ∀ i t, ListedBefore gs v i t → Steady (partsOf gs v v.target) level m t := fun i t ht =>
    ht.steady h.lists hbelow
  rcases Nat.lt_succ_iff_lt_or_eq.mp hj with hj | rfl
  · exact hripened.notOlder _ (hsteady _) _ (ha.outputs j hj q hq)
  · obtain rfl : p = q := Option.some.inj (hp.symm.trans hq)
    rcases hout with hout | ⟨-, hup, hfs⟩
    · exact fun t ht => hout t (hsteady _ t ht)
    · intro t' ht
      obtain ⟨-, f, hf, -, hle⟩ := upToDate_fresh hup
      obtain ⟨x, hx, hlisted⟩ := id ht
      have hbefore := (newestAfter_le (n := 0).mp le_rfl).2 x hx t' hlisted
      show mtimeOf t.w.fs t' ≤ mtimeOf t.w.fs p.outPath
      rw [hfs, mtimeOf_some hf, ← hfs, mtimeOf, hripened.ripening.steady (hsteady _ t' ht), ← mtimeOf]
      rw [← hnewest, hseen] at hle
      exact hbefore.trans hle

/-- A run that has found all its parts current brings the outputs in line. -/
theorem aligned_mainLoop (h : Setting env (partsOf gs v v.target) level m v) (hr : v.rebuild = false)
    (hbelow : ∀ x, partsOf gs v v.target x → level x.product < m)
    (h0 : Matured gs (partsOf gs v v.target) level m v 0 v) (hnewest : v.newestTime = 0)
    (hnone : returns v.log = [])
    (hall : ∀ i < gs.length, (i, true) ∈ returns (mainLoop env (fun _ => true) gs v).log) :
    Covered gs v.target (mainLoop env (fun _ => true) gs v) := by
  have hstart : Aligned gs v 0 v := ⟨hnewest, fun j hj => absurd hj (Nat.not_lt_zero j)⟩
  obtain ⟨hwalked, hmatured, haligned⟩ := mainLoop_true h.calm (P := fun k w =>
    Matured gs (partsOf gs v v.target) level m v k w ∧ Aligned gs v k w) ⟨h0, hstart⟩ hnone hall
    fun k p w t hp _ ⟨hw, ha⟩ htrue =>
      ⟨hw.build h hp htrue, ha.build h hr hbelow hp hw.landing hw.ripening htrue⟩
  obtain ⟨-, hripe⟩ := ripe_mainLoop h h0 hnone hall
  have hparts : ∀ p : Project, p.parts (mainLoop env (fun _ => true) gs v) v.target = p.parts v v.target :=
    Project.parts_glob hwalked.glob _
  -- the dependency files are steady, so they list what they listed
  have hlists : ∀ p ∈ gs, ∀ x ∈ p.parts v v.target,
      x.prerequisites (mainLoop env (fun _ => true) gs v).fs = x.prerequisites v.fs := fun p hp x hx =>
    prerequisites_congr (hmatured.ripening.steady (Or.inr ⟨x, ⟨p, hp, hx⟩, hbelow x ⟨p, hp, hx⟩, Or.inr rfl⟩))
  refine ⟨fun p hp x hx => ?_, fun i j p q hij hp hq x hx t ht => ?_⟩
  · rw [hparts] at hx
    exact (hripe x ⟨p, hp, hx⟩ (Nat.lt_succ_of_lt (hbelow x ⟨p, hp, hx⟩))).newer
  · rw [hparts] at hx
    rw [hlists p (List.mem_of_getElem? hp) x hx] at ht
    have hj := (List.getElem?_eq_some_iff.mp hq).1
    exact haligned.outputs j hj q hq t ⟨x, mem_partsBefore_of (Nat.lt_succ_of_le hij) hp hx, ht⟩

/-! ### Run after run -/

/-- Between two runs of `r`, when the parts of the levels below `m` are current. -/
structure Poised (r : Run) (X : Part → Prop) (level : Str → ℕ) (m : ℕ) (w : World) : Prop where
  parts : partsOf r.projects w r.target = X
  procs : w.procs = []
  time : ∀ o, mtimeOf w.fs o ≤ sec w.clock
  lists : ListsBelow X level w.fs
  ripe : ∀ x, X x → level x.product < m → x.Current w.fs (mtimeOf w.fs r.makefile)

/-- The outside of the runs of `r`. -/
structure Outside (env : Env) (r : Run) (X : Part → Prop) (level : Str → ℕ) : Prop where
  named : Named X
  calm : env.Calm
  forks : env.Forks
  truthful : env.Truthful
  layered : env.Layered X level
  makefile : isProduct r.makefile = false
  pre : r.pre = fun _ => true

variable {r : Run} {l : List Act}

/-- The run, when this has happened before it. -/
def Run.since (r : Run) (l : List Act) : Run := { r with before := l }

/-- The state it begins in. -/
def Run.begun (r : Run) (l : List Act) (w : World) : World :=
  startRun r.target r.rebuild r.makefile (l.foldl World.act w)

theorem since_exec (hpre : r.pre = fun _ => true) (l : List Act) (w : World) :
    (r.since l).exec env w = mainLoop env (fun _ => true) r.projects (r.begun l w) := by
  rw [Run.exec, Run.since, hpre]
  rfl

/-- All the builds of the run have returned true. -/
def AllTrue (r : Run) (w : World) : Prop := ∀ i < r.projects.length, (i, true) ∈ returns w.log

theorem later_acts (as : List Act) : ∀ w : World, Later w (as.foldl World.act w) := by
  induction as with
  | nil => exact .refl
  | cons a as ih => exact fun w => (w.later_act a).trans (ih (w.act a))

theorem partsOf_glob (h : v.glob = w.glob) (gs : List Project) (target : Str) :
    partsOf gs v target = partsOf gs w target := by
  funext x
  simp only [partsOf, Project.parts_glob h]

theorem Poised.begun (h : Poised r X level m w) (hl : ∀ a ∈ l, a.Calm) :
    Poised r X level m (r.begun l w) ∧ (r.begun l w).fs = w.fs ∧ (r.begun l w).glob = w.glob := by
  have hstill := Still.acts l hl (.refl h.procs)
  have hlater : sec w.clock ≤ sec (r.begun l w).clock := sec_mono (later_acts l w).clock
  have hfs : (r.begun l w).fs = w.fs := hstill.fs
  refine ⟨⟨(partsOf_glob hstill.glob _ _).trans h.parts, hstill.procs, fun o => ?_, ?_, ?_⟩, hfs, hstill.glob⟩
  · rw [hfs]
    exact (h.time o).trans hlater
  · rw [hfs]
    exact h.lists
  · rw [hfs]
    exact h.ripe

theorem Poised.setting (h : Poised r X level m w) (ho : Outside env r X level)
    (hplain : r.rebuild = false ∨ m = 0) (hl : ∀ a ∈ l, a.Calm) :
    Setting env X level m (r.begun l w) ∧ Matured r.projects X level m (r.begun l w) 0 (r.begun l w) := by
  obtain ⟨hbegun, -⟩ := h.begun hl
  have hset : Setting env X level m (r.begun l w) :=
    ⟨⟨ho.named, ho.calm, ho.forks, ho.truthful, hbegun.lists, hbegun.ripe, hplain⟩, ho.layered⟩
  exact ⟨hset, hset.start hbegun.procs rfl (hbegun.time r.makefile) hbegun.time⟩

/-- A run whose builds all return true takes the tree one level further. -/
theorem Poised.run (h : Poised r X level m w) (ho : Outside env r X level)
    (hplain : r.rebuild = false ∨ m = 0) (hl : ∀ a ∈ l, a.Calm) (hall : AllTrue r ((r.since l).exec env w)) :
    Poised r X level (m + 1) ((r.since l).exec env w) := by
  obtain ⟨hset, h0⟩ := h.setting ho hplain hl
  obtain rfl := (h.begun hl).1.parts
  rw [since_exec ho.pre] at hall ⊢
  obtain ⟨hmatured, hripe⟩ := ripe_mainLoop (v := r.begun l w) hset h0 rfl hall
  have hnear := hmatured.ripening.near
  refine ⟨partsOf_glob hnear.glob _ _, hmatured.landing.alone.procs, hmatured.ripening.time,
    hmatured.ripening.lists, fun x hx hm => ?_⟩
  have hmk : (mainLoop env (fun _ => true) r.projects (r.begun l w)).makefileTime =
      mtimeOf (mainLoop env (fun _ => true) r.projects (r.begun l w)).fs r.makefile := by
    rw [hnear.makefileTime, mtimeOf_congr (hmatured.ripening.steady (Or.inl ho.makefile))]
    rfl
  exact hmk ▸ hripe x hx hm

/-- After a run that has found all the parts current there is nothing to do. -/
theorem Poised.settled (h : Poised r X level m w) (ho : Outside env r X level) (hr : r.rebuild = false)
    (hbelow : ∀ x, X x → level x.product < m) (hl : ∀ a ∈ l, a.Calm)
    (hall : AllTrue r ((r.since l).exec env w)) {later : List Act} (hlater : ∀ a ∈ later, a.Calm) :
    launched ((r.since later).exec env ((r.since l).exec env w)).log = [] := by
  obtain ⟨hset, h0⟩ := h.setting ho (Or.inl hr) hl
  obtain rfl := (h.begun hl).1.parts
  rw [since_exec ho.pre l] at hall ⊢
  exact (next_idle_iff (v := r.begun l w) (r := r.since later) ho.forks ho.calm ho.truthful ho.named h0.landing rfl
    hall hr (congrFun ho.pre) hlater rfl ho.makefile rfl).mpr (aligned_mainLoop hset hr hbelow h0 rfl rfl hall)

/-- A history of runs of one makefile, all of whose builds return true. -/
theorem poised_history (h : Poised r X level 0 w) (ho : Outside env r X level) (hr : r.rebuild = false)
    {ls : List (List Act)} (hls : ∀ l ∈ ls, ∀ a ∈ l, a.Calm)
    (hall : ∀ k < ls.length, AllTrue r (history env ((ls.take (k + 1)).map r.since) w)) :
    ∀ k ≤ ls.length, Poised r X level k (history env ((ls.take k).map r.since) w)
  | 0, _ => h
  | k + 1, hk => by
    have ih := poised_history h ho hr hls hall k (Nat.le_of_succ_le hk)
    have htrue := hall k hk
    rw [List.take_succ_eq_append_getElem hk, List.map_append, history, List.foldl_append] at htrue ⊢
    exact ih.run ho (Or.inl hr) (hls _ (List.getElem_mem hk)) htrue

/-- A tree settles: when what is read for the parts comes from lower levels, of which there are `d`, and
    more than `d` runs have gone well with nothing edited between them, the next one starts nothing. -/
theorem runs_settle {d : ℕ} {ls : List (List Act)} {later : List Act} (hforks : env.Forks) (hcalm : env.Calm)
    (htruth : env.Truthful) (hr : r.rebuild = false) (hpre : ∀ i, r.pre i = true)
    (hmakefile : isProduct r.makefile = false) (hprocs : w.procs = [])
    (htime : ∀ o, mtimeOf w.fs o ≤ sec w.clock) (hdeps : DepsApart r.projects r.target w)
    (hlayered : env.Layered (partsOf r.projects w r.target) level)
    (hlists : ListsBelow (partsOf r.projects w r.target) level w.fs)
    (hlevels : ∀ x, partsOf r.projects w r.target x → level x.product < d) (hmany : d < ls.length)
    (hls : ∀ l ∈ ls, ∀ a ∈ l, a.Calm) (hlater : ∀ a ∈ later, a.Calm)
    (hall : ∀ k < ls.length, AllTrue r (history env ((ls.take (k + 1)).map r.since) w)) :
    launched ((r.since later).exec env (history env (ls.map r.since) w)).log = [] := by
  have ho : Outside env r (partsOf r.projects w r.target) level :=
    ⟨hdeps.named rfl, hcalm, hforks, htruth, hlayered, hmakefile, funext hpre⟩
  have h0 : Poised r (partsOf r.projects w r.target) level 0 w :=
    ⟨rfl, hprocs, htime, hlists, fun x _ hm => absurd hm (Nat.not_lt_zero _)⟩
  obtain ⟨k, hk⟩ : ∃ k, ls.length = k + 1 := Nat.exists_eq_add_one_of_ne_zero (by omega)
  have hlt : k < ls.length := by omega
  have hpoised := poised_history h0 ho hr hls hall k hlt.le
  have htrue := hall k hlt
  have hlast : ls = ls.take k ++ [ls[k]] := by
    rw [← List.take_succ_eq_append_getElem hlt, List.take_of_length_le hk.le]
  rw [List.take_succ_eq_append_getElem hlt, List.map_append, history, List.foldl_append] at htrue
  rw [hlast, List.map_append, history, List.foldl_append]
  exact hpoised.settled ho hr (fun x hx => (hlevels x hx).trans_le (by omega)) (hls _ (List.getElem_mem hlt))
    htrue hlater

theorem reading_layered (X : Part → Prop) (level : Str → ℕ) : Env.reading.Layered X level := by
  intro k cmd fs f hf x hx ho t ht
  rw [Env.reading] at hf
  dsimp only at hf
  split at hf <;> obtain rfl := Option.some.inj hf
  · rw [List.mem_singleton.mp ht]
    exact Or.inl (by decide)
  · exact absurd ht List.not_mem_nil

theorem set_time {n : ℕ} {f : File} (h : ∀ o, mtimeOf fs o ≤ n) (hf : f.mtime ≤ n) (p o : Str) :
    mtimeOf (fs.set p (some f)) o ≤ n := by
  rw [mtimeOf, FS.set]
  split
  · exact hf
  · exact h o

theorem sourcesOnly_time : ∀ o, mtimeOf sourcesOnly.fs o ≤ sec sourcesOnly.clock :=
  set_time (set_time (fun _ => Nat.zero_le _) (by decide) _) (by decide) _

theorem progBuilt_time : ∀ o, mtimeOf progBuilt.fs o ≤ sec progBuilt.clock :=
  set_time (set_time (set_time sourcesOnly_time (by decide) _) (by decide) _) (by decide) _

theorem progBuilt_lists : ListsBelow (partsOf utilThenProg.projects progBuilt []) level progBuilt.fs := by
  have hlists : ∀ p ∈ utilThenProg.projects, ∀ x ∈ p.parts progBuilt [], ∀ t ∈ x.prerequisites progBuilt.fs,
      isProduct t = false := by decide +kernel
  rintro x ⟨p, hp, hx⟩ t ht
  exact Or.inl (hlists p hp x hx t ht)

/-- Two runs bring the tree up to date whose first run has kept the program: the third starts nothing. -/
theorem runs_settle_two :
    launched ((utilThenProg.since [.tick 1]).exec Env.reading
      (history Env.reading ([[], [.tick 1]].map utilThenProg.since) progBuilt)).log = [] := by
  refine runs_settle (d := 1) reading_forks reading_calm reading_truthful rfl (fun _ => rfl) rfl rfl
    progBuilt_time (by rw [DepsApart]; decide +kernel) (reading_layered _ fun _ => 0) progBuilt_lists
    (fun x _ => Nat.zero_lt_one) (by decide) ?_ (fun a ha => List.mem_singleton.mp ha ▸ trivial) ?_
  · simp [Act.Calm]
  · simp only [AllTrue]
    decide +kernel

/-! ### A build from scratch -/

/-- What this run has changed is not older than any steady file. -/
def Remade (X : Part → Prop) (level : Str → ℕ) (m : ℕ) (v w : World) : Prop :=
  ∀ o, w.fs o = v.fs o ∨ NotOlder (Steady X level m) w.fs o

theorem Remade.move (hm : Move env (maturing X level m) w w') (hcalm : env.Calm) (hw : Ripening X level m v w)
    (h : Remade X level m v w) : Remade X level m v w' := by
  intro o
  rcases hm.ends hcalm hw.near.pids with ⟨hfs, -⟩ | ⟨pr, hpr, hfs, -⟩
  · rw [hfs]
    exact h o
  · rw [hfs]
    by_cases ho : pr.writes o = true
    · exact Or.inr (hw.land_notOlder hpr (fun _ => id) (Or.inl ho))
    · rcases h o with h | h
      · left
        rw [World.land_written (hw.going.able pr hpr).written, if_neg ho, h]
      · exact Or.inr (hw.land_notOlder hpr (fun _ => id) (Or.inr h))

theorem Remade.path (hX : Named X) (hcalm : env.Calm) (htruth : env.Truthful)
    (hp : Path env (maturing X level m) w w') (hw : Ripening X level m v w) (hok : AllOk w'.log)
    (htold : ReadsBelow X level w'.log) (h : Remade X level m v w) : Remade X level m v w' := by
  refine And.right (Moves.keeps (I := fun u => AllOk u.log → ReadsBelow X level u.log →
    Ripening X level m v u ∧ Remade X level m v u) (fun u u' hm hu hok htold => ?_) hp (fun _ _ => ⟨hw, h⟩)
    hok htold)
  obtain ⟨hripe, hfresh⟩ := hu (hok.before (.single hm)) (htold.before hm.launched)
  exact ⟨hripe.move hX hcalm htruth hm hok htold, hfresh.move hm hcalm hripe⟩

theorem Remade.compile (hset : Setting env X level m v) {t : St} (hX : ∀ x ∈ p.parts v v.target, X x)
    (hland : Landing X w) (hw : Ripening X level m v w) (htrue : p.compile env gs w = (true, t))
    (h : Remade X level m v w) : Remade X level m v t.w := by
  obtain ⟨hland', hripened, -⟩ := hset.build hX hland hw htrue
  obtain ⟨hpath, -⟩ := hset.compile hX hw.near htrue
  exact Remade.path hset.named hset.calm hset.truthful hpath (hw.say rfl) hland'.ok hripened.ripening.told h

/-- A forced build whose sources have all been compiled does not keep its output. -/
theorem Setting.forced (h : Setting env X level m v) (hr : v.rebuild = true) {t : St}
    (hX : ∀ x ∈ p.parts v v.target, X x) (hsource : p.fnames v ≠ []) (hland : Landing X w)
    (hw : Ripening X level m v w) (htrue : p.compile env gs w = (true, t)) :
    NotOlder (Steady X level m) t.w.fs p.outPath := by
  obtain ⟨c, l, -, -, hout⟩ := h.output hX hland hw htrue
  refine hout.resolve_right ?_
  rintro ⟨hfailed, hup, -⟩
  obtain ⟨hnone, -⟩ := nothing_compiled h.forks hland.alone.pids p (p.flagText c) hfailed
    (upToDate_fresh hup).1
  have hreads : ∀ x : Part, x.reads v = [] := fun x => if_pos hr
  have hquiet : Undisturbed v (fun o => ¬ Steady X level m o) (p.parts v v.target) :=
    undisturbed_iff.mpr ⟨fun x _ o ho => by simp [hreads] at ho,
      List.pairwise_of_forall fun x y _ o _ ho => by simp [hreads] at ho⟩
  have hcmds := (Planned.ready h.calm p (p.flagText c) hw.near rfl hquiet).execs
  obtain ⟨f, hf⟩ := List.exists_mem_of_ne_nil _ hsource
  -- the compile of the first source has been started
  have hmem : compileCmd (p.pchName v.target) v.target (p.flagText c) f ∈
      staleCmds v (p.plan v v.target (p.flagText c)) := by
    refine List.mem_map.mpr ⟨(sourcePart v.target f, _), List.mem_filter.mpr
      ⟨List.mem_append_right _ (List.mem_map_of_mem hf), ?_⟩, rfl⟩
    rw [Part.stale, look_rebuild hr]
  rw [← List.mem_reverse, ← hcmds] at hmem
  obtain ⟨e, he, hcmd⟩ := List.mem_map.mp hmem
  have hstarted : (e.1.out, e.2) ∈ started (p.ready env (p.flagText c) w).w.log :=
    List.mem_map.mpr ⟨e, List.mem_filter.mpr ⟨he, by rw [hcmd]; rfl⟩, rfl⟩
  rw [hnone] at hstarted
  exact absurd hstarted List.not_mem_nil

/-- The outputs are not older than any steady file, so what the dependency files list covers nothing. -/
theorem Poised.scratch (h : Poised r X (fun _ => 0) 1 w)
    (hout : ∀ p ∈ r.projects, NotOlder (Steady X (fun _ => 0) 0) w.fs p.outPath) :
    Covered r.projects r.target w := by
  have hX : ∀ p ∈ r.projects, ∀ x ∈ p.parts w r.target, X x := fun p hp x hx => by
    rw [← h.parts]
    exact ⟨p, hp, hx⟩
  refine ⟨fun p hp x hx => ?_, fun i j p q _ hp hq x hx t ht => ?_⟩
  · exact (h.ripe x (hX p hp x hx) Nat.zero_lt_one).newer
  · exact hout q (List.mem_of_getElem? hq) t (h.lists x (hX p (List.mem_of_getElem? hp) x hx) t ht)

/-- A build from scratch: the tree has no products, or everything is made anew. -/
def Scratch (r : Run) (w : World) : Prop :=
  (∀ o, isProduct o = true → w.fs o = none) ∨ r.rebuild = true ∧ ∀ p ∈ r.projects, p.fnames w ≠ []

theorem scratch_mainLoop (h : Setting env (partsOf gs v v.target) (fun _ => 0) 0 v)
    (h0 : Matured gs (partsOf gs v v.target) (fun _ => 0) 0 v 0 v) (hnone : returns v.log = [])
    (hall : ∀ i < gs.length, (i, true) ∈ returns (mainLoop env (fun _ => true) gs v).log)
    (hscratch : (∀ o, isProduct o = true → v.fs o = none) ∨
      v.rebuild = true ∧ ∀ p ∈ gs, p.fnames v ≠ []) :
    ∀ p ∈ gs, NotOlder (Steady (partsOf gs v v.target) (fun _ => 0) 0)
      (mainLoop env (fun _ => true) gs v).fs p.outPath := by
  have hparts : ∀ (k : ℕ) (p : Project), gs[k]? = some p → ∀ x ∈ p.parts v v.target, partsOf gs v v.target x :=
    fun k p hp x hx => ⟨p, List.mem_of_getElem? hp, hx⟩
  obtain ⟨hwhole, -⟩ := whole_mainLoop h.forks h.calm h.truthful h.named h0.landing hnone hall
  rcases hscratch with hclean | ⟨hr, hsources⟩
  · -- what is there now was made in this run
    obtain ⟨-, -, hfresh⟩ := mainLoop_true h.calm (P := fun k w =>
      Matured gs (partsOf gs v v.target) (fun _ => 0) 0 v k w ∧
        Remade (partsOf gs v v.target) (fun _ => 0) 0 v w)
      ⟨h0, fun o => Or.inl rfl⟩ hnone hall fun k p w t hp _ ⟨hw, hf⟩ htrue =>
        ⟨hw.build h hp htrue, hf.compile h (hparts k p hp) hw.landing hw.ripening htrue⟩
    intro p hp
    refine (hfresh p.outPath).resolve_left fun hsame => ?_
    obtain ⟨f, hf, -⟩ := hwhole.outputs p hp
    rw [hsame, hclean _ (product_outPath p)] at hf
    cases hf
  · obtain ⟨-, -, hforced⟩ := mainLoop_true h.calm (P := fun k w =>
      Matured gs (partsOf gs v v.target) (fun _ => 0) 0 v k w ∧ ∀ i < k, ∀ p, gs[i]? = some p →
        NotOlder (Steady (partsOf gs v v.target) (fun _ => 0) 0) w.fs p.outPath)
      ⟨h0, fun i hi => absurd hi (Nat.not_lt_zero i)⟩ hnone hall fun k p w t hp _ ⟨hw, hf⟩ htrue => by
        refine ⟨hw.build h hp htrue, fun i hi q hq => ?_⟩
        rcases Nat.lt_succ_iff_lt_or_eq.mp hi with hi | rfl
        · obtain ⟨-, hripened, -⟩ := h.build (hparts k p hp) hw.landing hw.ripening htrue
          exact hripened.notOlder _ (fun _ => id) _ (hf i hi q hq)
        · obtain rfl : p = q := Option.some.inj (hp.symm.trans hq)
          exact h.forced hr (hparts _ p hp) (hsources p (List.mem_of_getElem? hp)) hw.landing hw.ripening htrue
    intro p hp
    obtain ⟨i, hi⟩ := List.getElem?_of_mem hp
    exact hforced i (List.getElem?_eq_some_iff.mp hi).1 p hi

/-- A build from scratch settles the tree at once when what is read for the parts is no product: the next
    run starts nothing. -/
theorem scratch_settles {later : List Act} (hforks : env.Forks) (hcalm : env.Calm) (htruth : env.Truthful)
    (hpre : ∀ i, r.pre i = true) (hmakefile : isProduct r.makefile = false) (hprocs : w.procs = [])
    (htime : ∀ o, mtimeOf w.fs o ≤ sec w.clock) (hdeps : DepsApart r.projects r.target w)
    (hlayered : env.Layered (partsOf r.projects w r.target) fun _ => 0)
    (hlists : ListsBelow (partsOf r.projects w r.target) (fun _ => 0) w.fs) (hscratch : Scratch r w)
    (hl : ∀ a ∈ l, a.Calm) (hlater : ∀ a ∈ later, a.Calm) (hall : AllTrue r ((r.since l).exec env w)) :
    launched ((({ r with rebuild := false } : Run).since later).exec env
      ((r.since l).exec env w)).log = [] := by
  have ho : Outside env r (partsOf r.projects w r.target) fun _ => 0 :=
    ⟨hdeps.named rfl, hcalm, hforks, htruth, hlayered, hmakefile, funext hpre⟩
  have h : Poised r (partsOf r.projects w r.target) (fun _ => 0) 0 w :=
    ⟨rfl, hprocs, htime, hlists, fun x _ hm => absurd hm (Nat.not_lt_zero _)⟩
  obtain ⟨hset, h0⟩ := h.setting ho (Or.inr rfl) hl
  obtain ⟨hparts, hfs, hglob⟩ := h.begun hl
  have hnext := h.run ho (Or.inr rfl) hl hall
  rw [since_exec ho.pre l] at hall hnext ⊢
  rw [← hparts.parts] at hset h0 hnext ho
  have hbegun : (∀ o, isProduct o = true → (r.begun l w).fs o = none) ∨
      (r.begun l w).rebuild = true ∧ ∀ p ∈ r.projects, p.fnames (r.begun l w) ≠ [] := by
    rw [hfs]
    refine hscratch.imp_right fun ⟨hr, hsources⟩ => ⟨hr, fun p hp => ?_⟩
    rw [Project.fnames_glob hglob]
    exact hsources p hp
  have hout := scratch_mainLoop (v := r.begun l w) hset h0 rfl hall hbegun
  exact (next_idle_iff (v := r.begun l w) (r := ({ r with rebuild := false } : Run).since later) hforks hcalm
    htruth ho.named h0.landing rfl hall rfl hpre hlater rfl hmakefile rfl).mpr (hnext.scratch hout)

/-- The program was built before the source of the library was written; after a forced run nothing is left
    to do. -/
theorem scratch_settles_built :
    launched ((utilThenProg.since [.tick 1]).exec Env.reading
      ((({ utilThenProg with rebuild := true } : Run).since []).exec Env.reading progBuilt)).log = [] := by
  refine scratch_settles (r := { utilThenProg with rebuild := true }) (l := []) reading_forks reading_calm
    reading_truthful (fun _ => rfl) rfl rfl progBuilt_time (by rw [DepsApart]; decide +kernel)
    (reading_layered _ _) progBuilt_lists (Or.inr ⟨rfl, by decide +kernel⟩)
    (fun a ha => absurd ha List.not_mem_nil) (fun a ha => List.mem_singleton.mp ha ▸ trivial) ?_
  rw [AllTrue]
  decide +kernel

end Cake
