import Cake.Project
import Cake.Steps
import Cake.Schedule

/-! The objects a build has in hand.

    `held` counts the objects in `linklist` and the objects of the busy slots. A `do_compile` adds one,
    the object of its source; nothing else adds any. So the running compilers write objects of sources
    that were asked for, each at most as often as it was asked for. -/

namespace Cake

/-- What a pattern or name of `m_files` stands for. -/
def expand (w : World) (pattern : Str) : List Str :=
  if (w.glob pattern).isEmpty then [pattern] else w.glob pattern

/-- `do_compile` on each name in turn. -/
def compileAll (env : Env) (cflags : Str) (fnames : List Str) (s : St) : St :=
  fnames.foldl (fun s f => doCompile env cflags f s) s

/-- The names `do_compile` is called with for a list of patterns. -/
def visited (env : Env) (cflags : Str) : List Str → St → List Str
  | [], _ => []
  | p :: ps, s => expand s.w p ++ visited env cflags ps (compilePattern env cflags s p)

/-- The objects the busy slots are to write. -/
def busyNames (js : List Job) : Multiset Str :=
  ((js.filter (fun j => j.cmd.isActive)).map (·.objname) : List Str)

/-- The objects in `linklist` and in the busy slots. -/
def Build.held (b : Build) : Multiset Str := (b.linklist : Multiset Str) + busyNames b.jobs

variable {env : Env} {j : Job} {js : List Job}

theorem busyNames_busy (h : j.cmd.isActive = true) :
    busyNames (j :: js) = j.objname ::ₘ busyNames js := by
  simp [busyNames, h]

theorem busyNames_free (h : j.cmd.isActive = false) : busyNames (j :: js) = busyNames js := by
  simp [busyNames, h]

theorem harvest_held (ok : Bool) (code : ℕ) (o : Str) (b : Build) :
    ((harvest ok code o b).linklist : Multiset Str) ≤ o ::ₘ (b.linklist : Multiset Str) := by
  rw [harvest]
  split
  · exact Multiset.le_cons_self _ _
  · split
    · exact Multiset.le_cons_self _ _
    · rw [← Multiset.coe_add, add_comm, Multiset.coe_singleton, Multiset.singleton_add]

theorem startJob_active (env : Env) (cmd : Cmd) (s : St) :
    (startJob env cmd s).1.cmd.isActive = true := by
  rw [startJob_eq]
  exact Command.begin_active rfl

/-- A slot is harvested and given to the next job. -/
theorem refill_held (env : Env) (cmd : Cmd) (ok : Bool) (code : ℕ) (b : Build) (w : World)
    (js : List Job) (h : j.cmd.isActive = true) :
    ((startJob env cmd ⟨harvest ok code j.objname b, w⟩).2.b.linklist : Multiset Str) +
        busyNames ((startJob env cmd ⟨harvest ok code j.objname b, w⟩).1 :: js) ≤
      cmd.out ::ₘ ((b.linklist : Multiset Str) + busyNames (j :: js)) := by
  rw [busyNames_busy (startJob_active env cmd _), busyNames_busy h]
  simp only [startJob_eq, Multiset.add_cons]
  refine (Multiset.cons_le_cons_iff _).mpr ?_
  rw [← Multiset.cons_add]
  exact add_le_add_left (harvest_held ..) _

theorem poll_held (env : Env) (cmd : Cmd) : ∀ (js : List Job) (s : St),
    ((pollSlots env cmd js s).1 = true →
      ((pollSlots env cmd js s).2.2.b.linklist : Multiset Str) +
          busyNames (pollSlots env cmd js s).2.1 ≤
        cmd.out ::ₘ ((s.b.linklist : Multiset Str) + busyNames js)) ∧
    ((pollSlots env cmd js s).1 = false → (pollSlots env cmd js s).2.2.b = s.b)
  | [], s => by simp [pollSlots]
  | j :: js, s => by
    rw [pollSlots]
    cases hact : j.cmd.isActive with
    | false =>
      refine ⟨fun _ => ?_, by simp [startJob_eq]⟩
      simp only [Bool.false_eq_true, if_false]
      rw [busyNames_busy (startJob_active env cmd s), busyNames_free hact, Multiset.add_cons,
        startJob_eq]
    | true =>
      simp only [if_true]
      rcases j.cmd.queryComplete env s.w with ⟨_ | _, c, w⟩
      · obtain ⟨hf, hn⟩ := poll_held env cmd js { s with w := w }
        refine ⟨fun h => ?_, hn⟩
        dsimp only
        rw [busyNames_busy hact, busyNames_busy hact, Multiset.add_cons, Multiset.add_cons,
          Multiset.cons_swap]
        exact (Multiset.cons_le_cons_iff _).mpr (hf h)
      · exact ⟨fun _ => refill_held env cmd true c.exitcode s.b w js hact, by simp [startJob_eq]⟩

/-- The loop finds a slot unless every slot is busy. -/
theorem poll_busy (env : Env) (cmd : Cmd) : ∀ (js : List Job) (s : St),
    (pollSlots env cmd js s).1 = false → ∀ j ∈ js, j.cmd.isActive = true
  | [], _, _ => by simp
  | j :: js, s, h => by
    unfold pollSlots at h
    cases hact : j.cmd.isActive with
    | false => simp [hact, startJob_eq] at h
    | true =>
      simp only [hact, if_true] at h
      rcases hq : j.cmd.queryComplete env s.w with ⟨_ | _, c, w⟩
      · rw [hq] at h
        exact List.forall_mem_cons.mpr ⟨hact, poll_busy env cmd js { s with w := w } h⟩
      · rw [hq] at h
        simp at h

theorem steal_held (env : Env) (cmd : Cmd) (r : ℕ) (s : St)
    (hact : ∀ j ∈ s.b.jobs, j.cmd.isActive = true) :
    (stealSlot env cmd r s).b.held ≤ cmd.out ::ₘ s.b.held := by
  rw [stealSlot]
  cases hr : s.b.jobs[r]? with
  | none => exact Multiset.le_cons_self _ _
  | some j =>
    obtain ⟨hlt, rfl⟩ := List.getElem?_eq_some_iff.mp hr
    have hj := hact _ (List.getElem_mem hlt)
    dsimp only
    rcases s.b.jobs[r].cmd.wait env s.w with ⟨ok, c, w⟩
    have hs := refill_held env cmd ok c.exitcode s.b w
      (s.b.jobs.take r ++ s.b.jobs.drop (r + 1)) hj
    have hperm : ∀ i : Job, busyNames (s.b.jobs.take r ++ i :: s.b.jobs.drop (r + 1)) =
        busyNames (i :: (s.b.jobs.take r ++ s.b.jobs.drop (r + 1))) := fun i => by
      unfold busyNames
      rw [Multiset.coe_eq_coe]
      exact (List.perm_middle.filter _).map _
    have hself : s.b.jobs = s.b.jobs.take r ++ s.b.jobs[r] :: s.b.jobs.drop (r + 1) := by
      rw [List.cons_getElem_drop_succ, List.take_append_drop]
    simp only [Build.held, startJob_eq, harvest_jobs] at hs ⊢
    rw [List.set_eq_take_append_cons_drop, if_pos hlt, hperm]
    rw [← hperm s.b.jobs[r], ← hself] at hs
    exact hs

/-- `add_compile_job` takes one more object in hand. -/
theorem addCompileJob_held (env : Env) (cmd : Cmd) (s : St) :
    (addCompileJob env cmd s).b.held ≤ cmd.out ::ₘ s.b.held := by
  obtain ⟨hf, hn⟩ := poll_held env cmd s.b.jobs s
  have hb := poll_busy env cmd s.b.jobs s
  rw [addCompileJob]
  rcases hq : pollSlots env cmd s.b.jobs s with ⟨_ | _, jobs, t⟩
  · rw [hq] at hn hb
    have ht : t.b = s.b := hn rfl
    rw [← ht] at hb ⊢
    exact steal_held env cmd _ { t with w := { t.w with nrand := t.w.nrand + 1 } } (hb rfl)
  · rw [hq] at hf
    exact hf rfl

theorem drain_held (env : Env) : ∀ (js : List Job) (s : St),
    busyNames (drain env js s).1 = 0 ∧
      ((drain env js s).2.b.linklist : Multiset Str) ≤ (s.b.linklist : Multiset Str) + busyNames js
  | [], s => ⟨rfl, Multiset.le_add_right _ _⟩
  | j :: js, s => by
    rw [drain]
    cases hact : j.cmd.isActive with
    | false =>
      obtain ⟨hz, hl⟩ := drain_held env js s
      simp only [Bool.false_eq_true, if_false]
      rw [busyNames_free hact, busyNames_free hact]
      exact ⟨hz, hl⟩
    | true =>
      simp only [if_true]
      rcases hw : j.cmd.wait env s.w with ⟨ok, c, w⟩
      obtain ⟨hz, hl⟩ := drain_held env js ⟨harvest ok c.exitcode j.objname s.b, w⟩
      refine ⟨(busyNames_free (wait_free hact hw)).trans hz, hl.trans ?_⟩
      rw [busyNames_busy hact, Multiset.add_cons, ← Multiset.cons_add]
      exact add_le_add_left (harvest_held ..) _

/-- After `complete_jobs` no slot is busy and no object is new. -/
theorem completeJobs_held (env : Env) (s : St) :
    busyNames (completeJobs env s).b.jobs = 0 ∧ (completeJobs env s).b.held ≤ s.b.held := by
  obtain ⟨hz, hl⟩ := drain_held env s.b.jobs s
  refine ⟨hz, ?_⟩
  have hz' : busyNames (completeJobs env s).b.jobs = 0 := hz
  rw [Build.held, hz', add_zero]
  exact hl

/-- `do_compile` takes the object of its source in hand. -/
theorem doCompile_held (env : Env) (cflags fname : Str) (s : St) :
    (doCompile env cflags fname s).b.held ≤
      mkobjname (objdir s.w.target) fname ::ₘ s.b.held := by
  have ht : (s.w.yield env).target = s.w.target :=
    (path_yield env .all s.w).later.target
  rw [doCompile]
  dsimp only [countSource]
  rw [← ht]
  rcases needsRebuild _ _ _ _ _ _ with ⟨_ | _, newest⟩
  · simp only [settle, Bool.not_false, if_true, Build.held]
    rw [← Multiset.coe_add, add_right_comm, add_comm _ (_ : Multiset Str), Multiset.coe_singleton,
      Multiset.singleton_add]
    exact le_rfl
  · exact addCompileJob_held env _ _

/-! ### The sources of a project -/

theorem compilePattern_eq (env : Env) (cflags : Str) (s : St) (p : Str) :
    compilePattern env cflags s p = compileAll env cflags (expand s.w p) s := by
  unfold compilePattern expand
  dsimp only
  split <;> rfl

/-- The patterns of a project are compiled name by name. -/
theorem compilePatterns_eq (env : Env) (cflags : Str) : ∀ (ps : List Str) (s : St),
    ps.foldl (compilePattern env cflags) s = compileAll env cflags (visited env cflags ps s) s
  | [], _ => rfl
  | p :: ps, s => by
    rw [List.foldl_cons, compilePatterns_eq env cflags ps, visited, compileAll, compileAll,
      List.foldl_append, compilePattern_eq]
    rfl

/-- The build object after the precompiled header. -/
def Project.header (env : Env) (p : Project) (cflags : Str) (w : World) : St :=
  p.pchStep env cflags (newBuild env w)

/-- The names `do_compile` is called with. -/
def Project.sources (env : Env) (p : Project) (cflags : Str) (w : World) : List Str :=
  visited env cflags p.patterns (p.header env cflags w)

/-- The build object after `k` sources. -/
def Project.after (env : Env) (p : Project) (cflags : Str) (k : ℕ) (w : World) : St :=
  compileAll env cflags ((p.sources env cflags w).take k) (p.header env cflags w)

theorem Project.compile_eq (env : Env) (gs : List Project) (p : Project) (w : World) {c : Str}
    {l : List Str} (h : pkgConfig env p.pkgdepends = some (c, l)) :
    p.compile env gs w = p.outputStep env gs (p.flagText c) l
      (p.after env (p.flagText c) (p.sources env (p.flagText c) w).length w) := by
  rw [Project.compile]
  dsimp only
  rw [h, Project.after, List.take_length, Project.sources, ← compilePatterns_eq]
  rfl

theorem doCompile_target (env : Env) (cflags fname : Str) (s : St) :
    (doCompile env cflags fname s).w.target = s.w.target :=
  (path_doCompile (R := .all) trivial fun _ _ _ => trivial).later.target

theorem compileAll_held (env : Env) (cflags : Str) (fs : List Str) (s : St) :
    (compileAll env cflags fs s).b.held ≤
      ((fs.map (mkobjname (objdir s.w.target)) : List Str) : Multiset Str) + s.b.held := by
  induction fs generalizing s with
  | nil => simp [compileAll]
  | cons f fs ih =>
    refine (ih (doCompile env cflags f s)).trans ?_
    rw [doCompile_target, List.map_cons, ← Multiset.cons_coe, Multiset.cons_add, ← Multiset.add_cons]
    exact add_le_add_right (doCompile_held env cflags f s) _

theorem buildPch_held (env : Env) (cmd : Cmd) (s : St) : (buildPch env cmd s).b.held = s.b.held := by
  rw [buildPch]; dsimp only; split <;> [rfl; (split <;> rfl)]

theorem makePch_held (env : Env) (pch cflags : Str) (cpp : Bool) (s : St) :
    (makePch env pch cflags cpp s).b.held = s.b.held :=
  makePch_keeps (P := fun t => t.b.held = s.b.held) (fun _ _ => rfl)
    fun t ht => (buildPch_held env _ t).trans ht

theorem Project.header_held (env : Env) (p : Project) (cflags : Str) (w : World) :
    (p.header env cflags w).b.held = 0 ∧ (p.header env cflags w).w.target = w.target := by
  have hb : (newBuild env w).b.held = 0 := by
    simp [newBuild, Build.held, busyNames, Command.isActive, Command.idle]
  rw [Project.header, Project.pchStep]
  split
  · exact ⟨hb, rfl⟩
  · refine ⟨(makePch_held ..).trans hb, ?_⟩
    exact (path_makePch (R := .all) (s := newBuild env w) trivial).later.target

theorem produce_held (env : Env) (mkCmd : St → Cmd) (s : St) :
    (produce env mkCmd s).2.b.held ≤ s.b.held := by
  have hd := (completeJobs_held env { s with w := s.w.yield env }).2
  unfold produce
  dsimp only
  split
  · exact hd
  · split
    · exact hd
    · rw [buildOutput]
      dsimp only
      split <;> [exact hd; (split <;> exact hd)]

theorem Project.output_held (env : Env) (gs : List Project) (p : Project) (cflags : Str)
    (l : List Str) (s : St) : (p.outputStep env gs cflags l s).2.b.held ≤ s.b.held := by
  rw [Project.outputStep]
  split
  · exact le_rfl
  · split
    · exact produce_held ..
    · exact produce_held ..
    · exact le_rfl

/-- The running compilers write objects of these names, each at most as often as it is listed. Names that are
    distinct keep them apart. -/
structure BusyWith (names : List Str) (t : St) : Prop where
  within : (((active t).map (·.objname) : List Str) : Multiset Str) ≤ (names : Multiset Str)
  apart : names.Nodup → ((active t).map (·.objname)).Nodup

theorem busyWith_of_held {names : List Str} {t : St} (h : t.b.held ≤ (names : Multiset Str)) :
    BusyWith names t := by
  have hle : (((active t).map (·.objname) : List Str) : Multiset Str) ≤ (names : Multiset Str) :=
    (Multiset.le_add_left _ _).trans h
  exact ⟨hle, fun hn => Multiset.coe_nodup.mp (Multiset.nodup_of_le hle (Multiset.coe_nodup.mpr hn))⟩

/-- Between any two calls of `compile()` on the build object the running compilers write objects of the sources
    it has been called with so far, and at its end objects of the project's sources. When pkg-config fails
    there are none. -/
theorem running_objects (env : Env) (gs : List Project) (p : Project) (w : World) :
    (∀ c l, pkgConfig env p.pkgdepends = some (c, l) →
      let names := (p.sources env (p.flagText c) w).map (mkobjname (objdir w.target))
      (∀ k, BusyWith (names.take k) (p.after env (p.flagText c) k w)) ∧
        BusyWith names (p.compile env gs w).2) ∧
    (pkgConfig env p.pkgdepends = none → active (p.compile env gs w).2 = []) := by
  refine ⟨fun c l hpkg => ?_, fun hpkg => ?_⟩
  · intro names
    obtain ⟨hz, htgt⟩ := p.header_held env (p.flagText c) w
    have hafter : ∀ k, (p.after env (p.flagText c) k w).b.held ≤ (names.take k : Multiset Str) := fun k => by
      have h := compileAll_held env (p.flagText c) ((p.sources env (p.flagText c) w).take k)
        (p.header env (p.flagText c) w)
      rwa [hz, add_zero, htgt, List.map_take] at h
    refine ⟨fun k => busyWith_of_held (hafter k), busyWith_of_held ?_⟩
    rw [p.compile_eq env gs w hpkg]
    refine (p.output_held ..).trans ((hafter _).trans ?_)
    exact Multiset.coe_le.mpr (List.take_sublist _ _).subperm
  · rw [Project.compile]
    simp only [hpkg]
    rw [active, List.filter_eq_nil_iff]
    intro j hj
    rw [List.eq_of_mem_replicate hj]
    exact Bool.noConfusion

/-- Two sources, two slots: two compilers, two objects. -/
theorem running_objects_run :
    let p := { Project.fresh .program "prog".toList with files := ["a.c".toList, "b.c".toList] }
    (active (p.after (Env.quiet 2) (p.flagText []) 2 World.empty)).length = 2 ∧
      ((active (p.after (Env.quiet 2) (p.flagText []) 2 World.empty)).map (·.objname)).Nodup := by
  intro p
  have hbusy := ((running_objects (Env.quiet 2) [p] p World.empty).1 _ _ rfl).1 2
  exact ⟨by decide +kernel, hbusy.apart (by decide +kernel)⟩

/-- One source named twice, two slots: two compilers write the same object. -/
theorem running_objects_clash :
    let p := { Project.fresh .program "prog".toList with files := ["a.c".toList, "a.c".toList] }
    (active (p.after (Env.quiet 2) (p.flagText []) 2 World.empty)).map (·.objname) =
      ["obj//a.o".toList, "obj//a.o".toList] := by
  decide +kernel

end Cake
