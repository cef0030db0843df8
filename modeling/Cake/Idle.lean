import Cake.Stages

/-! When the second run has nothing to do.

    A run keeps an output that is not older than what `newest_time` has seen. A part that the run has made has
    shown `newest_time` little of what it lists: the look that found it out of date stopped at the first
    newer file, or read none. So an output may be kept in the first run and be older than a file that is
    listed for a part before it, and then the second run, which sees all that is listed, makes it anew.
    Whether this happens can be told from the tree before the first run.

        first run    part before: made, its list unseen ──▶ output kept
        second run   part before: current, its list seen ──▶ output made -/

namespace Cake

variable {env : Env} {X : Part → Prop} {gs : List Project} {p : Project} {v w : World} {x y : Part} {k : ℕ}
  {o : Outlook} {pre : ℕ → Bool} {t : Str}

/-! ### What the outlook touches -/

theorem outlookAt_none (hp : gs[k]? = none) : outlookAt env pre gs v (k + 1) = outlookAt env pre gs v k := by
  have hlen : gs.zipIdx.length ≤ k := by
    rw [List.length_zipIdx]
    exact List.getElem?_eq_none_iff.mp hp
  rw [outlookAt, outlookAt, List.take_of_length_le hlen, List.take_of_length_le (by omega)]

/-- A run may write files under `obj/`, and the outputs that do not surely stay. -/
theorem outlookAt_touched (hprocs : v.procs = []) : ∀ {k : ℕ}, t ∈ (outlookAt env pre gs v k).touched →
    baseobjdir <+: t ∨ ∃ (j : ℕ) (q : Project), j < k ∧ gs[j]? = some q ∧ t = q.outPath ∧
      ¬ q.Stays v (outlookAt env pre gs v j)
  | 0, ht => by
    rw [outlookAt, List.take_zero, List.foldl_nil, Outlook.begin, hprocs] at ht
    exact absurd ht List.not_mem_nil
  | k + 1, ht => by
    have hbefore : t ∈ (outlookAt env pre gs v k).touched → baseobjdir <+: t ∨ ∃ (j : ℕ) (q : Project),
        j < k + 1 ∧ gs[j]? = some q ∧ t = q.outPath ∧ ¬ q.Stays v (outlookAt env pre gs v j) := fun ht => by
      refine (outlookAt_touched hprocs ht).imp_right ?_
      rintro ⟨j, q, hj, hq⟩
      exact ⟨j, q, Nat.lt_succ_of_lt hj, hq⟩
    cases hp : gs[k]? with
    | none => exact hbefore (outlookAt_none hp ▸ ht)
    | some p =>
      rw [outlookAt_succ hp, Outlook.step] at ht
      split at ht
      · rw [Outlook.build] at ht
        split at ht
        · exact hbefore ht
        · split at ht
          · exact (outlook_touched ht).elim hbefore Or.inl
          · rename_i hstays
            rcases List.mem_cons.mp ht with rfl | ht
            · exact Or.inr ⟨k, p, Nat.lt_succ_self k, hp, rfl, hstays⟩
            · exact (outlook_touched ht).elim hbefore Or.inl
      · exact hbefore ht

/-- The projects have different outputs. -/
theorem outPath_index (houts : (gs.map Project.outPath).Nodup) {i j : ℕ} {q : Project} (hp : gs[i]? = some p)
    (hq : gs[j]? = some q) (ho : p.outPath = q.outPath) : i = j := by
  obtain ⟨hi, rfl⟩ := List.getElem?_eq_some_iff.mp hp
  obtain ⟨hj, rfl⟩ := List.getElem?_eq_some_iff.mp hq
  rw [List.nodup_iff_injective_get] at houts
  have hi' : i < (gs.map Project.outPath).length := by rwa [List.length_map]
  have hj' : j < (gs.map Project.outPath).length := by rwa [List.length_map]
  have hfin : (⟨i, hi'⟩ : Fin _) = ⟨j, hj'⟩ := houts (by simpa using ho)
  exact Fin.mk.inj hfin

/-- Before a project nothing writes its output. -/
theorem output_untouched (hprocs : v.procs = []) (houts : (gs.map Project.outPath).Nodup)
    (hp : gs[k]? = some p) : (outlookAt env pre gs v k).touches p.outPath = false := by
  refine touches_iff.mpr fun ht => ?_
  rcases outlookAt_touched hprocs ht with hunder | ⟨j, q, hj, hq, ho, -⟩
  · exact obj_ne_outPath hunder p rfl
  · have heq := outPath_index houts hp hq ho
    omega

/-! ### The files of the parts -/

theorem part_writes_product (hX : Named X) (hx : X x) (ht : t ∈ x.writes) : isProduct t = true := by
  have hunder := hX.under x hx
  rw [Part.writes, List.mem_cons, List.mem_singleton] at ht
  rcases ht with rfl | rfl
  · exact product_obj hunder
  · exact product_obj (gccDepName_under hunder)

/-- Two parts with a file in common have the same product. -/
theorem parts_meet (hX : Named X) (hx : X x) (hy : X y) (ht : t ∈ x.writes) (ht' : t ∈ y.writes) :
    x.product = y.product := by
  rw [Part.writes, List.mem_cons, List.mem_singleton] at ht ht'
  rcases ht with rfl | rfl <;> rcases ht' with h | h
  · exact h
  · exact absurd h (hX.product x hx _)
  · exact absurd h.symm (hX.product y hy _)
  · exact hX.apart x y hx hy (by rw [hX.dep x hx, hX.dep y hy, h])

theorem part_writes_ne_outPath (hX : Named X) (hx : X x) (q : Project) : q.outPath ∉ x.writes := by
  have hunder := hX.under x hx
  rw [Part.writes, List.mem_cons, List.mem_singleton]
  rintro (h | h)
  · exact obj_ne_outPath hunder q h.symm
  · exact obj_ne_outPath (gccDepName_under hunder) q h.symm

/-! ### The outputs of a run -/

/-- As the tree stands when the first run begins, it makes the output anew, or the output is not older than
    any file a compile may read that it may start for a part before. -/
def Project.Lasting (env : Env) (gs : List Project) (v : World) (k : ℕ) (p : Project) : Prop :=
  p.Relinked v (outlookAt env (fun _ => true) gs v k) ∨
    ∀ x ∈ partsBefore gs v (k + 1), (p.headed v (outlookAt env (fun _ => true) gs v k)).touches x.product = true →
      ∀ t, env.MayRead gs v x.product t → (p.headed v (outlookAt env (fun _ => true) gs v k)).touches t = false ∧
        mtimeOf v.fs t ≤ mtimeOf v.fs p.outPath

/-- A file that is listed for a part of the first `k` projects. -/
def ListedIn (gs : List Project) (v : World) (k : ℕ) (fs : FS) (t : Str) : Prop :=
  ∃ x ∈ partsBefore gs v k, t ∈ x.prerequisites fs

/-- The run that began in `v`, after `k` builds that have returned true. -/
structure Followed (env : Env) (gs : List Project) (v : World) (k : ℕ) (w : World) : Prop where
  staged : Staged env gs v k w
  foreseen : Foreseen v (outlookAt env (fun _ => true) gs v k) w

theorem ListedIn.steady {j m : ℕ} (hl : ListsBelow (partsOf gs v v.target) (stageOf v gs) w.fs)
    (hm : 2 * j ≤ m + 1) (h : ListedIn gs v j w.fs t) : Steady (partsOf gs v v.target) (stageOf v gs) m t := by
  obtain ⟨x, hx, ht⟩ := h
  have hlt := stageOf_before hx
  exact (hl x (partsOf_before hx) t ht).mono (by omega)

/-- Outputs of earlier builds. -/
theorem Built.outputs {u w' : World} (hw : Staged env gs v k w) (h : Built env gs v k p w u w') {j : ℕ}
    {q : Project} (hj : j < k) (ho : NotOlder (ListedIn gs v (j + 1) w.fs) w.fs q.outPath) :
    NotOlder (ListedIn gs v (j + 1) w'.fs) w'.fs q.outPath := by
  have hsame : ListedIn gs v (j + 1) w'.fs = ListedIn gs v (j + 1) w.fs := by
    funext t
    refine propext (exists_congr fun x => and_congr_right fun hx => ?_)
    have hlt := stageOf_before hx
    have hdep : Steady (partsOf gs v v.target) (stageOf v gs) (2 * k) x.dep :=
      Or.inr ⟨x, partsOf_before hx, by omega, Or.inr rfl⟩
    rw [prerequisites_congr ((h.ripened.ripening.steady (hdep.mono (Nat.le_succ _))).trans
      (h.headed.ripened.ripening.steady hdep))]
  have hsteady : ∀ t, ListedIn gs v (j + 1) w.fs t → Steady (partsOf gs v v.target) (stageOf v gs) (2 * k) t :=
    fun t ht => ht.steady hw.lists (by omega)
  rw [hsame]
  exact h.ripened.notOlder _ (fun t ht => (hsteady t ht).mono (Nat.le_succ _)) _
    (h.headed.ripened.notOlder _ hsteady _ ho)

/-- An output that is kept. -/
theorem Followed.kept (ho : Orderly env gs v) (hprocs : v.procs = []) (houts : (gs.map Project.outPath).Nodup)
    (hp : gs[k]? = some p) (hlasting : p.Lasting env gs v k) (h : Followed env gs v k w) (cflags : Str)
    {u w' : World} (hb : Built env gs v k p w u w') (hn : (p.ready env cflags w).b.nfailed = 0)
    (hup : upToDate (p.ready env cflags w) p.outPath = true)
    (hnewest : w'.newestTime = (p.ready env cflags w).w.newestTime)
    (hfs : w'.fs = (p.ready env cflags w).w.fs)
    (hlaunched : launched w'.log = launched (p.ready env cflags w).w.log) :
    NotOlder (ListedIn gs v (k + 1) w'.fs) w'.fs p.outPath := by
  obtain ⟨hcount, f, hf, -, hle⟩ := upToDate_fresh hup
  have hlast : ∀ {n : ℕ}, n ≤ f.mtime → n ≤ mtimeOf w'.fs p.outPath := fun hn => by
    rw [hfs, mtimeOf_some hf]
    exact hn
  rintro t ⟨x, hx, ht⟩
  rcases hb.seen x hx with hstarted | hseen
  · -- a command that makes the part has been started
    have hX := partsOf_before hx
    obtain ⟨cmd, f', hmem, hout, hreads⟩ := hb.filed.read hb.landing.alone.procs hX hstarted
    have hmay : env.MayRead gs v x.product t :=
      ⟨f', hb.answered.answers cmd f' hmem x hX hout.symm, hb.landing.ok _ hmem, (hreads t).mp ht⟩
    have hout' : (outlookAt env (fun _ => true) gs v k).touches p.outPath = false :=
      output_untouched hprocs houts hp
    obtain ⟨hst, -⟩ := nothing_compiled ho.forks h.staged.answered.near.pids p cflags hn hcount
    have hconfined := h.foreseen.unstarted ho.calm cflags hst
    obtain ⟨huntouched, hdate⟩ := hlasting.resolve_left
      (h.foreseen.relinked ho.forks ho.calm cflags hout' hn hup) x hx (by
        by_contra hno
        rw [Bool.not_eq_true, touches_iff] at hno
        exact hno (hconfined.launched _ (hlaunched ▸ hmem) _ (by simp [Cmd.writes, hout]))) t hmay
    have hstays : (p.headed v (outlookAt env (fun _ => true) gs v k)).touches p.outPath = false :=
      touches_iff.mpr fun hin => by
        rcases looks_touched hin with hin | ⟨y, hy, hin⟩
        · exact touches_iff.mp hout' hin
        · exact part_writes_ne_outPath ho.named ⟨p, List.mem_of_getElem? hp, (headerPart_mem hy).1⟩ p hin
    rw [hfs, mtimeOf_congr (hconfined.near.fs t (touches_iff.mp huntouched)),
      mtimeOf_congr (hconfined.near.fs _ (touches_iff.mp hstays))]
    exact hdate
  · exact hlast ((hseen t ht).trans (hnewest ▸ hle))

/-- One build. -/
theorem Followed.build (ho : Orderly env gs v) (hp : gs[k]? = some p) (h : Followed env gs v k w) {s : St}
    (htrue : p.compile env gs w = (true, s)) : Followed env gs v (k + 1) (s.w.say (.leave k true)) := by
  obtain ⟨⟨c, l, hpkg⟩, -⟩ := compile_builds htrue
  have hforeseen := h.foreseen.compile (p := p) ho.forks ho.calm gs
  rw [htrue] at hforeseen
  refine ⟨(((h.staged.compile ho hp htrue hpkg).built ho hp h.staged).staged ho hp).leave k true, ?_⟩
  rw [outlookAt_succ hp, Outlook.step, if_pos rfl]
  exact ⟨hforeseen.confined.say rfl rfl, hforeseen.seen, hforeseen.exact⟩

/-- After a build no output up to its own is older than what is listed by then. -/
theorem Followed.outputs (ho : Orderly env gs v) (hprocs : v.procs = [])
    (houts : (gs.map Project.outPath).Nodup) (hp : gs[k]? = some p) (hlasting : p.Lasting env gs v k)
    (h : Followed env gs v k w) {s : St} (htrue : p.compile env gs w = (true, s))
    (hbefore : ∀ j < k, ∀ q, gs[j]? = some q → NotOlder (ListedIn gs v (j + 1) w.fs) w.fs q.outPath) :
    ∀ j < k + 1, ∀ q, gs[j]? = some q → NotOlder (ListedIn gs v (j + 1) s.w.fs) s.w.fs q.outPath := by
  intro j hj q hq
  obtain ⟨⟨c, l, hpkg⟩, -⟩ := compile_builds htrue
  have hb := (h.staged.compile ho hp htrue hpkg).built ho hp h.staged
  rcases Nat.lt_succ_iff_lt_or_eq.mp hj with hj | rfl
  · exact hb.outputs h.staged hj (hbefore j hj q hq)
  obtain rfl : p = q := Option.some.inj (hp.symm.trans hq)
  obtain ⟨hnewest, ⟨hn, hup, hfs, hlaunched⟩ | ⟨cmd, f, hout, he⟩⟩ := compile_answer ho.forks htrue hpkg
  · exact h.kept ho hprocs houts hp hlasting (p.flagText c) hb hn hup hnewest hfs hlaunched
  · -- the last command of the build is that of the output
    have hX : ∀ x ∈ p.parts w w.target, partsOf gs v v.target x := by
      rw [(h.staged.parts hp).1]
      exact (h.staged.parts hp).2
    have hready : Path env (making (partsOf gs v v.target)) (p.header env (p.flagText c) w).w
        (p.ready env (p.flagText c) w).w := by
      rw [Project.ready]
      exact (path_after_making ho.calm hX _).trans (path_decision _)
    have hsince := since_newest (fun hb => hb) (fun hb => hb) hready hb.path he
    have hlanded := hb.ripened.ripening.landed hb.landing.alone.procs hsince
    rw [hout] at hlanded
    exact fun t ht => hlanded t (ht.steady hb.ripened.ripening.lists (by omega))

/-- A run begins in `v`: nothing has happened in it, and no file is from the future. -/
structure Opening (v : World) : Prop where
  procs : v.procs = []
  launched : launched v.log = []
  landed : landed v.log = []
  returns : returns v.log = []
  newest : v.newestTime = 0
  time : ∀ o, mtimeOf v.fs o ≤ sec v.clock
  makefile : v.makefileTime ≤ sec v.clock

theorem Opening.landing (h : Opening v) (X : Part → Prop) : Landing X v := by
  have hnothing : ∀ e, e ∉ Cake.launched v.log := fun e he => absurd (h.launched ▸ he) List.not_mem_nil
  exact ⟨alone_of_procs h.procs, ⟨h.makefile, fun pr hpr => absurd (h.procs ▸ hpr) List.not_mem_nil,
    fun cmd f hmem => absurd hmem (hnothing _)⟩, fun e he => absurd he (hnothing e)⟩

theorem Opening.followed (ho : Orderly env gs v) (h : Opening v) : Followed env gs v 0 v := by
  have hnothing : ∀ e, e ∉ Cake.launched v.log := fun e he => absurd (h.launched ▸ he) List.not_mem_nil
  have hforeseen := Foreseen.begin (alone_of_procs h.procs).pids h.launched h.landed h.newest
  refine ⟨⟨h.landing _, h.time, fun x hx t ht => ho.order.steady ho.named hx (Or.inl ht),
    fun x _ hlt => absurd hlt (Nat.not_lt_zero _), ⟨.refl h.procs, fun cmd f hmem => absurd hmem (hnothing _)⟩,
    ⟨fun pr hpr => absurd (h.procs ▸ hpr) List.not_mem_nil, fun cmd f hmem => absurd hmem (hnothing _),
      fun x _ _ => ⟨rfl, rfl⟩⟩, fun x hx => ?_⟩, hforeseen⟩
  rw [partsBefore, List.take_zero] at hx
  exact absurd hx List.not_mem_nil

/-- When the outputs last, everything is covered in the end. -/
theorem covered_mainLoop (ho : Orderly env gs v) (hv : Opening v) (houts : (gs.map Project.outPath).Nodup)
    (hall : ∀ i < gs.length, (i, true) ∈ returns (mainLoop env (fun _ => true) gs v).log)
    (hlasting : ∀ (k : ℕ) (p : Project), gs[k]? = some p → p.Lasting env gs v k) :
    Covered gs v.target (mainLoop env (fun _ => true) gs v) := by
  obtain ⟨hwalked, hend, houtputs⟩ := mainLoop_true ho.calm (P := fun k w => Followed env gs v k w ∧
    ∀ j < k, ∀ q, gs[j]? = some q → NotOlder (ListedIn gs v (j + 1) w.fs) w.fs q.outPath)
    ⟨hv.followed ho, fun j hj => absurd hj (Nat.not_lt_zero j)⟩ hv.returns hall fun k p w t hp _ ⟨hw, hout⟩ htrue =>
      ⟨hw.build ho hp htrue, hw.outputs ho hv.procs houts hp (hlasting k p hp) htrue hout⟩
  refine ⟨fun p hp x hx => ?_, fun i j p q hij hp hq x hx t ht => ?_⟩
  all_goals rw [Project.parts_glob hwalked.glob] at hx
  · obtain ⟨i, hi⟩ := List.getElem?_of_mem hp
    have hle := stageOf_part hi hx
    have hlt := (List.getElem?_eq_some_iff.mp hi).1
    exact (hend.staged.ripe x ⟨p, hp, hx⟩ (by omega)).newer
  · have hj := (List.getElem?_eq_some_iff.mp hq).1
    exact houtputs j hj q hq t ⟨x, mem_partsBefore_of (Nat.lt_succ_of_le hij) hp hx, ht⟩

/-! ### Compiles that read sources -/

/-- What is listed and read for the parts is no product, all compiles that make a part read the same files,
    and the parts are distinct. -/
structure FromSources (env : Env) (gs : List Project) (v : World) : Prop where
  plain : ∀ x, partsOf gs v v.target x → ∀ t, t ∈ x.prerequisites v.fs ∨ env.MayRead gs v x.product t →
    isProduct t = false
  alike : ∀ x f f', partsOf gs v v.target x → env.Answers gs v x.product f → env.Answers gs v x.product f' →
    f.ok = true → f'.ok = true → ∀ t, t ∈ f.reads → t ∈ f'.reads
  distinct : ((partsBefore gs v gs.length).map Part.product).Nodup

theorem FromSources.inOrder (h : FromSources env gs v) : InOrder env gs v :=
  fun _ p hp x hx t ht => Or.inl (h.plain x ⟨p, List.mem_of_getElem? hp, hx⟩ t ht)

/-- All looks have been clear so far, and what may have been written are files of parts that had to be made,
    and outputs. -/
structure Surveyed (v : World) (xs : List Part) (o : Outlook) : Prop where
  sure : o.sure = true
  touched : ∀ t ∈ o.touched, (∃ x ∈ xs, x.stale v = true ∧ t ∈ x.writes) ∨ ∃ q : Project, t = q.outPath

theorem Surveyed.mono {xs ys : List Part} (h : Surveyed v xs o) (hsub : ∀ x ∈ xs, x ∈ ys) : Surveyed v ys o :=
  ⟨h.sure, fun t ht => (h.touched t ht).imp_left (Exists.imp fun x hx => ⟨hsub x hx.1, hx.2⟩)⟩

theorem Surveyed.look {xs : List Part} (hX : Named X) (hxs : ∀ y ∈ xs, X y) (hx : X x)
    (hplain : ∀ t ∈ x.prerequisites v.fs, isProduct t = false) (hnew : x.product ∉ xs.map Part.product)
    (h : Surveyed v xs o) : Surveyed v (xs ++ [x]) (o.look v x) := by
  have hclear : x.Clear v o := by
    refine fun t ht => touches_iff.mpr fun htouched => ?_
    have hwrites : t ∈ x.writes ∨ isProduct t = false := by
      rw [Part.reads] at ht
      split at ht
      · exact absurd ht List.not_mem_nil
      · rw [Part.writes, ← hX.dep x hx]
        simp only [List.mem_cons] at ht ⊢
        rcases ht with ht | ht | ht
        · exact Or.inl (Or.inl ht)
        · exact Or.inl (Or.inr (Or.inl ht))
        · exact Or.inr (hplain t ht)
    rcases h.touched t htouched with ⟨y, hy, -, hty⟩ | ⟨q, rfl⟩
    · rcases hwrites with hwrites | hno
      · exact hnew (List.mem_map.mpr ⟨y, hy, parts_meet hX (hxs y hy) hx hty hwrites⟩)
      · rw [part_writes_product hX (hxs y hy) hty] at hno
        cases hno
    · rcases hwrites with hwrites | hno
      · exact part_writes_ne_outPath hX hx q hwrites
      · rw [product_outPath] at hno
        cases hno
  rw [Outlook.look, if_pos hclear]
  refine ⟨h.sure, fun t ht => ?_⟩
  have hmore : Surveyed v (xs ++ [x]) o := h.mono fun y hy => List.mem_append_left _ hy
  have hbefore := hmore.touched t
  dsimp only at ht
  split at ht
  · rename_i hstale
    rcases List.mem_append.mp ht with ht | ht
    · exact Or.inl ⟨x, List.mem_append_right _ (List.mem_singleton_self x), hstale, ht⟩
    · exact hbefore ht
  · exact hbefore ht

theorem Surveyed.looks (hX : Named X) : ∀ {ys xs : List Part} {o : Outlook}, (∀ y ∈ xs ++ ys, X y) →
    (∀ y ∈ ys, ∀ t ∈ y.prerequisites v.fs, isProduct t = false) → ((xs ++ ys).map Part.product).Nodup →
    Surveyed v xs o → Surveyed v (xs ++ ys) (ys.foldl (Outlook.look v) o)
  | [], xs, o, _, _, _, h => by rwa [List.append_nil]
  | y :: ys, xs, o, hmem, hplain, hnodup, h => by
    rw [← List.singleton_append, ← List.append_assoc] at hmem hnodup ⊢
    obtain ⟨hy, hys⟩ := List.forall_mem_cons.mp hplain
    refine Surveyed.looks hX hmem hys hnodup (h.look hX (fun x hx => ?_) ?_ hy fun hin => ?_)
    · exact hmem x (List.mem_append_left _ (List.mem_append_left _ hx))
    · exact hmem y (List.mem_append_left _ (List.mem_append_right _ (List.mem_singleton_self y)))
    · rw [List.map_append, List.nodup_append, List.map_append, List.nodup_append] at hnodup
      exact hnodup.1.2.2 _ hin _ List.mem_cons_self rfl

theorem partsBefore_sublist (k : ℕ) : (partsBefore gs v k).Sublist (partsBefore gs v gs.length) := by
  rw [partsBefore, partsBefore, List.take_length]
  exact (List.take_sublist k gs).flatMap _

/-- Before a project, and when its header or all its parts have been looked at, all looks have been clear. -/
theorem FromSources.surveyed_parts (h : FromSources env gs v) (hX : Named (partsOf gs v v.target))
    (hp : gs[k]? = some p) {o : Outlook} (ho : Surveyed v (partsBefore gs v k) o) :
    Surveyed v (partsBefore gs v (k + 1)) (p.headed v o) ∧
      Surveyed v (partsBefore gs v (k + 1)) (p.outlook v o) := by
  have hmem : ∀ x ∈ partsBefore gs v (k + 1), partsOf gs v v.target x := fun _ => partsOf_before
  have hnodup := h.distinct.sublist
    ((partsBefore_sublist (k + 1)).map Part.product)
  have ho : Surveyed v (partsBefore gs v k) { o with compiled := false } := ⟨ho.sure, ho.touched⟩
  rw [partsBefore_succ hp] at hmem hnodup ⊢
  have hplain : ∀ x ∈ p.parts v v.target, ∀ t ∈ x.prerequisites v.fs, isProduct t = false := fun x hx t ht =>
    h.plain x (hmem x (List.mem_append_right _ hx)) t (Or.inl ht)
  refine ⟨?_, Surveyed.looks hX hmem hplain hnodup ho⟩
  have hheader : ∀ x ∈ p.headerParts v.target, x ∈ p.parts v v.target := fun x hx => (headerPart_mem hx).1
  have hsub : (partsBefore gs v k ++ p.headerParts v.target).Sublist (partsBefore gs v k ++ p.parts v v.target) :=
    (List.sublist_append_left _ _).append_left _
  exact (Surveyed.looks hX (fun x hx => hmem x (hsub.subset hx)) (fun x hx => hplain x (hheader x hx))
    (hnodup.sublist (hsub.map _)) ho).mono fun x hx => hsub.subset hx

theorem FromSources.surveyed (h : FromSources env gs v) (hX : Named (partsOf gs v v.target))
    (hprocs : v.procs = []) : ∀ {k : ℕ}, k ≤ gs.length →
    Surveyed v (partsBefore gs v k) (outlookAt env (fun _ => true) gs v k)
  | 0, _ => by
    refine ⟨rfl, fun t ht => ?_⟩
    rw [outlookAt, List.take_zero, List.foldl_nil, Outlook.begin, hprocs] at ht
    exact absurd ht List.not_mem_nil
  | k + 1, hk => by
    have ih := h.surveyed hX hprocs (Nat.le_of_succ_le hk)
    have hp : gs[k]? = some gs[k] := List.getElem?_eq_getElem hk
    obtain ⟨-, hparts⟩ := h.surveyed_parts hX hp ih
    rw [outlookAt_succ hp, Outlook.step, if_pos rfl, Outlook.build]
    split
    · rw [partsBefore_succ hp]
      exact ih.mono fun x hx => List.mem_append_left _ hx
    · split
      · exact hparts
      · refine ⟨hparts.sure, fun t ht => ?_⟩
        rcases List.mem_cons.mp ht with rfl | ht
        · exact Or.inr ⟨_, rfl⟩
        · exact hparts.touched t ht

/-- A part whose command may have been started by then has to be made. -/
theorem FromSources.stale (h : FromSources env gs v) (hX : Named (partsOf gs v v.target)) (hprocs : v.procs = [])
    (hp : gs[k]? = some p) (hx : partsOf gs v v.target x)
    (ht : (p.headed v (outlookAt env (fun _ => true) gs v k)).touches x.product = true) : x.stale v = true := by
  obtain ⟨hheaded, -⟩ := h.surveyed_parts hX hp (h.surveyed hX hprocs (List.getElem?_eq_some_iff.mp hp).1.le)
  have hwrites : x.product ∈ x.writes := List.mem_cons_self
  rcases hheaded.touched x.product (by simpa [Outlook.touches] using ht) with ⟨y, hy, hstale, hty⟩ | ⟨q, hq⟩
  · have hY := partsOf_before hy
    rwa [← part_ext hX hx hY (parts_meet hX hY hx hty hwrites)]
  · exact absurd hq (obj_ne_outPath (hX.under x hx) q)

/-- An output that the run need not make anew stays. -/
theorem FromSources.stays (h : FromSources env gs v) (hX : Named (partsOf gs v v.target)) (hprocs : v.procs = [])
    (houts : (gs.map Project.outPath).Nodup) (hp : gs[k]? = some p)
    (hno : ¬ p.Relinked v (outlookAt env (fun _ => true) gs v k)) :
    p.Stays v (outlookAt env (fun _ => true) gs v k) := by
  obtain ⟨-, hparts⟩ := h.surveyed_parts hX hp (h.surveyed hX hprocs (List.getElem?_eq_some_iff.mp hp).1.le)
  simp only [Project.Relinked, not_or, not_exists, not_and, not_lt, Bool.not_eq_true] at hno
  obtain ⟨hold, hshown, hcompiled⟩ := hno
  refine ⟨hparts.sure, hcompiled, output_untouched hprocs houts hp, ?_⟩
  obtain ⟨hdated, -⟩ := isOlder_dated.mp hold
  exact isOlder_dated.mpr ⟨hdated, newestOf_le.mpr ⟨Nat.zero_le _, hshown⟩⟩

/-- A part that had to be made and is current in the end was made in this run. -/
theorem Followed.started (ho : Orderly env gs v) (hfrom : FromSources env gs v) (h : Followed env gs v k w)
    (hx : partsOf gs v v.target x) (hcurrent : x.Current w.fs w.makefileTime) (hstale : x.stale v = true) :
    StartedFor w.log x := by
  by_contra hno
  obtain ⟨hproduct, hdep⟩ := h.staged.filed.unmade x hx hno
  have hnear := h.staged.answered.near
  have hlook : x.look w 0 = x.look v 0 := by
    refine look_congr hnear.rebuild hnear.makefileTime (fun o hin => ?_) 0
    rw [Part.reads] at hin
    split at hin
    · exact absurd hin List.not_mem_nil
    · simp only [List.mem_cons] at hin
      rcases hin with rfl | rfl | hin
      · exact hproduct
      · exact hdep
      · exact hnear.fs o (by simp [hfrom.plain x hx o (Or.inl hin)])
  rw [look_current (hnear.rebuild.trans ho.plain) hcurrent] at hlook
  rw [Part.stale, ← hlook] at hstale
  cases hstale

/-- What a compile may read is listed in the end for a part that was made. -/
theorem Followed.listed (hfrom : FromSources env gs v) (h : Followed env gs v k w)
    (hx : partsOf gs v v.target x) (hstarted : StartedFor w.log x) (hmay : env.MayRead gs v x.product t) :
    t ∈ x.prerequisites w.fs := by
  obtain ⟨cmd, f, hmem, hout, hreads⟩ := h.staged.filed.read h.staged.landing.alone.procs hx hstarted
  obtain ⟨f', hanswers, hok, ht⟩ := hmay
  exact (hreads t).mpr (hfrom.alike x f' f hx hanswers (h.staged.answered.answers cmd f hmem x hx hout.symm) hok
    (h.staged.landing.ok _ hmem) t ht)

/-- When everything is covered in the end, the outputs have lasted. -/
theorem FromSources.lasting (ho : Orderly env gs v) (hv : Opening v) (houts : (gs.map Project.outPath).Nodup)
    (hfrom : FromSources env gs v)
    (hall : ∀ i < gs.length, (i, true) ∈ returns (mainLoop env (fun _ => true) gs v).log)
    (hcovered : Covered gs v.target (mainLoop env (fun _ => true) gs v)) (hp : gs[k]? = some p) :
    p.Lasting env gs v k := by
  rw [Project.Lasting, or_iff_not_imp_left]
  intro hno x hx htouched t hmay
  obtain ⟨i, hi, q, hq, hmem⟩ := mem_partsBefore.mp hx
  have hX := partsOf_before hx
  have hplain := hfrom.plain x hX t (Or.inr hmay)
  obtain ⟨hwalked, hend⟩ := mainLoop_true ho.calm (hv.followed ho) hv.returns hall
    fun k p w t hp _ hw htrue => hw.build ho hp htrue
  obtain ⟨hwhole, hothers⟩ := whole_mainLoop ho.forks ho.calm ho.truthful ho.named (hv.landing _) hv.returns hall
  have hparts : ∀ p : Project, p.parts (mainLoop env (fun _ => true) gs v) v.target = p.parts v v.target :=
    Project.parts_glob hwalked.glob _
  have hcurrent : x.Current (mainLoop env (fun _ => true) gs v).fs
      (mainLoop env (fun _ => true) gs v).makefileTime := by
    rw [hwalked.makefileTime]
    exact ⟨hwhole.parts q (List.mem_of_getElem? hq) x (by rwa [hparts]),
      hcovered.parts q (List.mem_of_getElem? hq) x (by rwa [hparts])⟩
  have hstarted := hend.started ho hfrom hX hcurrent (hfrom.stale ho.named hv.procs hp hX htouched)
  have hdate := hcovered.outputs i k q p (Nat.lt_succ_iff.mp hi) hq hp x (by rwa [hparts]) t
    (hend.listed hfrom hX hstarted hmay)
  -- the output has stayed
  have huntouched : p.outPath ∉ (outlookAt env (fun _ => true) gs v gs.length).touched := fun hin => by
    rcases outlookAt_touched hv.procs hin with hunder | ⟨j, p', -, hp', hout, hstays⟩
    · exact obj_ne_outPath hunder p rfl
    · obtain rfl := outPath_index houts hp hp' hout
      obtain rfl : p = p' := Option.some.inj (hp.symm.trans hp')
      exact hstays (hfrom.stays ho.named hv.procs houts hp hno)
  rw [mtimeOf_congr (hothers t hplain), mtimeOf_congr (hend.foreseen.confined.near.fs _ huntouched)] at hdate
  refine ⟨touches_iff.mpr fun hin => ?_, hdate⟩
  obtain ⟨hheaded, -⟩ := hfrom.surveyed_parts ho.named hp
    (hfrom.surveyed ho.named hv.procs (List.getElem?_eq_some_iff.mp hp).1.le)
  have hproduct : isProduct t = true := by
    rcases hheaded.touched t hin with ⟨y, hy, -, hty⟩ | ⟨q, rfl⟩
    · exact part_writes_product ho.named (partsOf_before hy) hty
    · exact product_outPath q
  rw [hplain] at hproduct
  cases hproduct

/-! ### The second run -/

/-- A run whose builds have all returned true, and a second run with nothing changed. When the projects are in
    order and the outputs last, as can be told from the tree the first run begins with, the second one starts
    nothing. Where the compiles read sources alone this is exactly when it does. -/
theorem second_run_idle (hforks : env.Forks) (hcalm : env.Calm) (htruth : env.Truthful) {r : Run}
    (hr : r.rebuild = false) (hpre : ∀ i, r.pre i = true) (hmakefile : isProduct r.makefile = false)
    (hprocs : w.procs = []) (htime : ∀ o, mtimeOf (r.start w).fs o ≤ sec (r.start w).clock)
    (hdeps : DepsApart r.projects r.target (r.start w)) (houts : (r.projects.map Project.outPath).Nodup)
    (hall : AllTrue r (r.exec env w)) {later : List Act} (hlater : ∀ a ∈ later, a.Calm) :
    (InOrder env r.projects (r.start w) →
      (∀ (k : ℕ) (p : Project), r.projects[k]? = some p → p.Lasting env r.projects (r.start w) k) →
      launched ((r.since later).exec env (r.exec env w)).log = []) ∧
    (FromSources env r.projects (r.start w) →
      (launched ((r.since later).exec env (r.exec env w)).log = [] ↔
        ∀ (k : ℕ) (p : Project), r.projects[k]? = some p → p.Lasting env r.projects (r.start w) k)) := by
  have hbefore := (alone_of_procs hprocs).same (World.same_acts r.before w)
  have hv : Opening (r.start w) := ⟨hbefore.procs, rfl, rfl, rfl, rfl, htime, htime r.makefile⟩
  have hexec : r.exec env w = mainLoop env (fun _ => true) r.projects (r.start w) := by
    rw [Run.exec, funext hpre]
    rfl
  have ho : InOrder env r.projects (r.start w) → Orderly env r.projects (r.start w) := fun horder =>
    ⟨hdeps.named rfl, hcalm, hforks, htruth, horder, hr⟩
  rw [AllTrue, hexec] at hall
  have hnext := next_idle_iff (r := r.since later) hforks hcalm htruth (hdeps.named rfl) (hv.landing _) rfl hall hr
    hpre hlater rfl hmakefile rfl
  rw [hexec]
  have henough : InOrder env r.projects (r.start w) →
      (∀ (k : ℕ) (p : Project), r.projects[k]? = some p → p.Lasting env r.projects (r.start w) k) →
      launched ((r.since later).exec env (mainLoop env (fun _ => true) r.projects (r.start w))).log = [] :=
    fun horder hlasting => hnext.mpr (covered_mainLoop (ho horder) hv houts hall hlasting)
  exact ⟨henough, fun hfrom => ⟨fun hidle k p hp =>
    hfrom.lasting (ho hfrom.inOrder) hv houts hall (hnext.mp hidle) hp, henough hfrom.inOrder⟩⟩

theorem reading_reads {n : ℕ} {cmd : Cmd} {fs : FS} {f : Fate} (hf : Env.reading.fork n cmd fs = some f) :
    ∀ t, t ∈ f.reads ↔ t = "u.c".toList ∧ cmd.ins = ["u.c".toList] ∧ (fs "u.c".toList).isSome = true := by
  intro t
  rw [Env.reading] at hf
  dsimp only at hf
  split at hf
  · rename_i hc
    obtain rfl := Option.some.inj hf
    rw [List.mem_singleton, and_iff_left hc]
  · rename_i hc
    obtain rfl := Option.some.inj hf
    exact ⟨fun ht => absurd ht List.not_mem_nil, fun ht => absurd ht.2 hc⟩

/-- The program was linked after the source of the library was written. -/
def progLater : World := { progBuilt with fs := progBuilt.fs.set "bin/prog".toList (some ⟨25, []⟩) }

theorem progLater_sources : FromSources Env.reading utilThenProg.projects (utilThenProg.start progLater) := by
  have hlists : ∀ p ∈ utilThenProg.projects, ∀ x ∈ p.parts (utilThenProg.start progLater) [],
      ∀ t ∈ x.prerequisites (utilThenProg.start progLater).fs, isProduct t = false := by decide +kernel
  have hpkg : ∀ p ∈ utilThenProg.projects, p.pkgdepends = [] := by decide +kernel
  have hins : ∀ p ∈ utilThenProg.projects, ∀ q ∈ utilThenProg.projects,
      ∀ t ∈ p.plan (utilThenProg.start progLater) [] (p.flagText []),
      ∀ t' ∈ q.plan (utilThenProg.start progLater) [] (q.flagText []),
      t.1.product = t'.1.product → t.2.ins = t'.2.ins := by decide +kernel
  refine ⟨fun x hx t ht => ?_, fun x f f' _ hf hf' _ _ t ht => ?_, by decide +kernel⟩
  · rcases ht with ht | ⟨f, ⟨_, _, _, _, _, _, _, hfork⟩, _, ht⟩
    · obtain ⟨p, hp, hx⟩ := hx
      exact hlists p hp x hx t ht
    · rw [((reading_reads hfork t).mp ht).1]
      decide
  · obtain ⟨y, cmd, _, fs, ⟨p, hp, c, l, hc, hplan⟩, hy, hfs, hfork⟩ := hf
    obtain ⟨y', cmd', _, fs', ⟨q, hq, c', l', hc', hplan'⟩, hy', hfs', hfork'⟩ := hf'
    rw [hpkg p hp] at hc
    rw [hpkg q hq] at hc'
    obtain ⟨rfl, -⟩ := Prod.mk.injEq .. ▸ Option.some.inj hc
    obtain ⟨rfl, -⟩ := Prod.mk.injEq .. ▸ Option.some.inj hc'
    obtain ⟨rfl, hsource, hthere⟩ := (reading_reads hfork t).mp ht
    refine (reading_reads hfork' _).mpr ⟨rfl, ?_, ?_⟩
    · rw [← hins p hp q hq _ hplan _ hplan' (hy.trans hy'.symm)]
      exact hsource
    · rw [hfs' _ (by decide), ← hfs _ (by decide)]
      exact hthere

/-- The first run keeps the program, and the second one has nothing to do. -/
theorem second_run_idle_kept :
    launched ((utilThenProg.since [.tick 1]).exec Env.reading (utilThenProg.exec Env.reading progLater)).log = [] := by
  have hlater : ∀ a ∈ [Act.tick 1], a.Calm := fun a ha => List.mem_singleton.mp ha ▸ trivial
  refine ((second_run_idle reading_forks reading_calm reading_truthful (r := utilThenProg) rfl (fun _ => rfl) rfl
    (w := progLater) rfl (set_time progBuilt_time (by decide) _) (by rw [DepsApart]; decide +kernel) (by decide)
    (by rw [AllTrue]; decide +kernel) hlater).2 progLater_sources).mpr fun k p hp => ?_
  have hcases : k = 0 ∨ k = 1 := by
    have hlt : k < 2 := (List.getElem?_eq_some_iff.mp hp).1
    omega
  rcases hcases with rfl | rfl
  · obtain rfl := Option.some.inj hp
    left
    decide +kernel
  · obtain rfl := Option.some.inj hp
    right
    rintro x - - t ⟨f, ⟨_, _, _, _, _, _, _, hfork⟩, -, ht⟩
    rw [((reading_reads hfork t).mp ht).1]
    decide +kernel

/-- The second run links the program, which the first one has kept. -/
theorem second_run_relinks :
    Env.reading.Forks ∧ Env.reading.Calm ∧ Env.reading.Truthful ∧ progBuilt.procs = [] ∧
    (∀ t f, progBuilt.fs t = some f → f.mtime ≤ sec progBuilt.clock) ∧
    DepsApart utilThenProg.projects [] progBuilt ∧
    (∀ i < utilThenProg.projects.length, (i, true) ∈ returns (utilThenProg.exec Env.reading progBuilt).log) ∧
    launched (({ utilThenProg with before := [.tick 1] } : Run).exec Env.reading
      (utilThenProg.exec Env.reading progBuilt)).log ≠ [] := by
  refine ⟨reading_forks, reading_calm, reading_truthful, rfl, fun t f hf => ?_, ?_, ?_, ?_⟩
  · simp only [progBuilt, sourcesOnly, FS.set] at hf
    split_ifs at hf <;> obtain rfl := Option.some.inj hf <;> decide
  · rw [DepsApart]
    decide +kernel
  · decide +kernel
  · decide +kernel

end Cake
