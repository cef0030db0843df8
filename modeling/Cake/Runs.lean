import Cake.Issued

/-! Runs.

    `main` walks `g_projects` once. Its steps keep what every project's moves and the note of
    `compile()`'s return keep (`mainLoop_induct`); a history of runs keeps, in addition, what the start
    of a process and the time between two runs keep (`history_keeps`).

    The walk is in the order of creation and looks at no answer of `compile()`: a linker runs after the
    projects created earlier, whatever became of them, and before those created later. -/

namespace Cake

variable {env : Env} {R : Rules} {fits : Str → Str → Prop} {gs : List Project}

/-- Induction over the loop of `main`. -/
theorem mainLoop_induct (env : Env) (pre : ℕ → Bool) (gs : List Project)
    {P : ℕ → World → Prop} {w : World} (h0 : P 0 w)
    (hstep : ∀ i p v, gs[i]? = some p → P i v → P (i + 1) (mainStep env pre gs v (p, i))) :
    P gs.length (mainLoop env pre gs w) := by
  have key : ∀ (l : List Project) (k : ℕ) (v : World), gs.drop k = l → k + l.length = gs.length →
      P k v → P gs.length ((l.zipIdx k).foldl (mainStep env pre gs) v) := by
    intro l
    induction l with
    | nil =>
      intro k v _ hlen hv
      have : k = gs.length := by simpa using hlen
      exact this ▸ hv
    | cons p l ih =>
      intro k v hdrop hlen hv
      have hget : gs[k]? = some p := by
        rw [← Nat.add_zero k, ← List.getElem?_drop, hdrop]; rfl
      have hrest : gs.drop (k + 1) = l := by
        rw [← List.drop_drop, hdrop]; rfl
      rw [List.zipIdx_cons, List.foldl_cons]
      exact ih (k + 1) _ hrest (by simp only [List.length_cons] at hlen; omega) (hstep k p v hget hv)
  exact key gs 0 w rfl (by simp) h0

/-! ### Histories -/

/-- Everything a directory listing of the history may answer fits its pattern. -/
structure Listings (env : Env) (rs : List Run) (w : World) (fits : Str → Str → Prop) : Prop where
  env : env.Lists fits
  before : ∀ r ∈ rs, ∀ g, Act.relist g ∈ r.before → ∀ pat, ∀ f ∈ g pat, fits pat f
  start : w.Lists fits

/-- The moves of a history. -/
inductive Step (env : Env) (fits : Str → Str → Prop) (rs : List Run) (w : World) : World → Prop
  | move {r : Run} {p : Project} {w' : World} (hr : r ∈ rs) (hp : p ∈ r.projects)
      (h : Move env (p.rules env fits r.projects r.target) w w') : Step env fits rs w w'
  | before {r : Run} {a : Act} (hr : r ∈ rs) (ha : a ∈ r.before) : Step env fits rs w (w.act a)
  | start {r : Run} (hr : r ∈ rs) :
      Step env fits rs w (startRun r.target r.rebuild r.makefile w)
  | leave (i : ℕ) (ret : Bool) : Step env fits rs w (w.say (.leave i ret))

abbrev Trace (env : Env) (fits : Str → Str → Prop) (rs : List Run) : World → World → Prop :=
  Relation.ReflTransGen (Step env fits rs)

variable {rs : List Run}

theorem Path.trace {r : Run} {p : Project} {w w' : World} (hr : r ∈ rs) (hp : p ∈ r.projects)
    (h : Path env (p.rules env fits r.projects r.target) w w') : Trace env fits rs w w' :=
  Relation.ReflTransGen.mono (fun _ _ hm => Step.move hr hp hm) _ _ h

theorem lists_before (env : Env) {r : Run} (hr : r ∈ rs)
    (h : ∀ r ∈ rs, ∀ g, Act.relist g ∈ r.before → ∀ pat, ∀ f ∈ g pat, fits pat f) :
    ∀ (as : List Act) (w : World), (∀ a ∈ as, a ∈ r.before) → w.Lists fits →
      Trace env fits rs w (as.foldl World.act w) ∧ (as.foldl World.act w).Lists fits
  | [], w, _, hw => ⟨.refl, hw⟩
  | a :: as, w, has, hw => by
    obtain ⟨ha, has⟩ := List.forall_mem_cons.mp has
    have hact : (w.act a).Lists fits := by
      cases a with
      | exit pid => rw [World.Lists, World.act, World.glob_finish]; exact hw
      | relist g => exact h r hr g ha
      | tick d => exact hw
      | edit p data => exact hw
      | restore p f => exact hw
    obtain ⟨ht, hl⟩ := lists_before env hr h as (w.act a) has hact
    exact ⟨.head (.before hr ha) ht, hl⟩

/-- `main` moves along the steps of its run. -/
theorem trace_mainLoop {r : Run} (hr : r ∈ rs) (henv : env.Lists fits) {w : World}
    (hw : w.Lists fits) (ht : w.target = r.target) :
    Trace env fits rs w (mainLoop env r.pre r.projects w) ∧
      (mainLoop env r.pre r.projects w).Lists fits := by
  have h := mainLoop_induct env r.pre r.projects (P := fun _ v => Trace env fits rs w v ∧
    v.Lists fits ∧ v.target = r.target) ⟨.refl, hw, ht⟩ ?_
  · exact ⟨h.1, h.2.1⟩
  · rintro i p v hp ⟨hpath, hl, hv⟩
    rw [mainStep]
    split
    · have hc : Path env (p.rules env fits r.projects v.target) v (p.compile env r.projects v).2.w :=
        path_compile_rules henv hl
      rw [hv] at hc
      refine ⟨(hpath.trans (hc.trace hr (List.mem_of_getElem? hp))).tail (.leave i _), ?_, ?_⟩
      · exact hc.lists henv hl
      · exact hc.later.target.trans hv
    · exact ⟨hpath, hl, hv⟩

theorem trace_run {r : Run} (hr : r ∈ rs) {w : World} (hl : Listings env rs w fits) :
    Trace env fits rs w (r.exec env w) ∧ (r.exec env w).Lists fits := by
  obtain ⟨hb, hw⟩ := lists_before env hr hl.before r.before w (fun _ h => h) hl.start
  have hs : (startRun r.target r.rebuild r.makefile (r.before.foldl World.act w)).Lists fits := hw
  obtain ⟨hm, hlm⟩ := trace_mainLoop hr hl.env hs rfl
  exact ⟨(hb.tail (.start hr)).trans hm, hlm⟩

/-- A history moves along its steps. -/
theorem trace_history : ∀ (rs' : List Run) (w : World), (∀ r ∈ rs', r ∈ rs) →
    Listings env rs w fits → Trace env fits rs w (history env rs' w) ∧
      Listings env rs (history env rs' w) fits
  | [], w, _, hl => ⟨.refl, hl⟩
  | r :: rs', w, hrs, hl => by
    obtain ⟨hr, hrs⟩ := List.forall_mem_cons.mp hrs
    obtain ⟨ht, hw⟩ := trace_run hr hl
    obtain ⟨ht', hl'⟩ := trace_history rs' (r.exec env w) hrs ⟨hl.env, hl.before, hw⟩
    exact ⟨ht.trans ht', hl'⟩

/-! ### The order of the projects -/

/-- The projects whose `compile()` has returned in this run, with the answers, newest first. -/
def returns : List Ev → List (ℕ × Bool)
  | [] => []
  | .run _ :: _ => []
  | .leave i ret :: log => (i, ret) :: returns log
  | _ :: log => returns log

/-- The outputs that were kept in this run, newest first. -/
def keeps : List Ev → List Str
  | [] => []
  | .run _ :: _ => []
  | .kept cmd _ :: log => cmd.out :: keeps log
  | _ :: log => keeps log

theorem Move.returns {w w' : World} (h : Move env R w w') : returns w'.log = returns w.log := by
  rcases h.log_cases with heq | ⟨e, heq, he⟩
  · rw [heq]
  · rw [heq]
    cases e <;> first | rfl | exact he.elim

theorem Move.keeps {w w' : World} (h : Move env R w w') : keeps w.log ⊆ keeps w'.log := by
  rcases h.log_cases with heq | ⟨e, heq, he⟩
  · rw [heq]; exact List.Subset.refl _
  · rw [heq]
    cases e with
    | run v => exact he.elim
    | kept cmd v => exact List.subset_cons_self _ _
    | _ => exact List.Subset.refl _

/-- `compile()` does not note its own return. -/
theorem compile_returns (env : Env) (p : Project) (gs : List Project) (w : World) :
    returns (p.compile env gs w).2.w.log = returns w.log := by
  have henv : env.Lists (fun _ _ => True) := fun _ _ _ _ _ _ => trivial
  have hpath : Path env (p.rules env (fun _ _ => True) gs w.target) w (p.compile env gs w).2.w :=
    path_compile_rules henv fun _ _ _ => trivial
  exact Moves.keeps (I := fun v => returns v.log = returns w.log)
    (fun _ _ hm hu => hm.returns.trans hu) hpath rfl

/-- A linker was started by the project with this index, after exactly the earlier projects whose pre
    step passed. -/
def LinkedInOrder (pre : ℕ → Bool) (gs : List Project) (start : List Ev) (e : Ev)
    (earlier : List Ev) : Prop :=
  match e with
  | .exec cmd _ => start <:+ earlier → cmd.kind = .link → ∃ i p, gs[i]? = some p ∧
      p.type = .program ∧ cmd.out = p.outPath ∧ cmd.libs = p.archives gs ∧
      (returns earlier).map Prod.fst = ((List.range i).filter pre).reverse
  | _ => True

/-- `compile()` of one project. -/
theorem linkedInOrder_compile (env : Env) {pre : ℕ → Bool} {start : List Ev} {i : ℕ} {p : Project} {v : World}
    (hp : gs[i]? = some p) (hr : (returns v.log).map Prod.fst = ((List.range i).filter pre).reverse)
    (hv : Logs.Every (LinkedInOrder pre gs start) v.log) :
    returns (p.compile env gs v).2.w.log = returns v.log ∧
      Logs.Every (LinkedInOrder pre gs start) (p.compile env gs v).2.w.log := by
  have henv : env.Lists (fun _ _ => True) := fun _ _ _ _ _ _ => trivial
  have hpath : Path env (.execs (p.Issues env (fun _ _ => True) gs v.target))
      v (p.compile env gs v).2.w :=
    path_compile henv (fun _ _ _ => trivial) trivial (fun _ h => h) (fun _ _ _ => trivial)
      (fun _ _ _ _ _ _ _ _ _ => trivial)
  refine Moves.keeps (I := fun u => returns u.log = returns v.log ∧
    Logs.Every (LinkedInOrder pre gs start) u.log) (fun u u' hm ⟨hu, hall⟩ => ?_) hpath ⟨rfl, hv⟩
  refine ⟨hm.returns.trans hu, hm.every (fun e he => ?_) hall⟩
  cases e with
  | exec cmd fate =>
    intro _ hk
    cases he.1 with
    | compile => cases hk
    | pch => cases hk
    | link htype _ ho _ hl => exact ⟨i, p, hp, htype, ho, hl, by rw [hu, hr]⟩
    | ar _ hk' => rw [hk] at hk'; cases hk'
  | _ => trivial

/-- At the moment a program is linked, the projects whose `compile()` has returned in this run are
    those created before it whose pre step passed, each once, whatever the answers were. -/
theorem linkers_run_in_order (env : Env) (pre : ℕ → Bool) (calls : List Call) (target : Str)
    (rebuild : Bool) (mk : Str) (w : World) :
    Logs.Every (LinkedInOrder pre (makefile calls) (startRun target rebuild mk w).log)
      (mainLoop env pre (makefile calls) (startRun target rebuild mk w)).log := by
  generalize makefile calls = gs
  set w0 := startRun target rebuild mk w
  have hstart : Logs.Every (LinkedInOrder pre gs w0.log) w0.log := by
    refine ⟨fun later e earlier hlog => ?_⟩
    cases e with
    | exec cmd fate =>
      -- an event of an earlier run
      intro hsuf
      have := hsuf.length_le
      rw [hlog] at this
      simp at this
      omega
    | _ => trivial
  refine (mainLoop_induct env pre gs (P := fun i v =>
    (returns v.log).map Prod.fst = ((List.range i).filter pre).reverse ∧
      Logs.Every (LinkedInOrder pre gs w0.log) v.log) ⟨rfl, hstart⟩ ?_).2
  rintro i p v hp ⟨hr, hv⟩
  rw [List.range_succ, List.filter_append, List.reverse_append]
  rw [mainStep]
  cases hpre : pre i with
  | false => simpa [hpre] using ⟨hr, hv⟩
  | true =>
    obtain ⟨hr', hv'⟩ := linkedInOrder_compile env hp hr hv
    simp only [if_true, World.say, List.filter_cons, hpre, List.filter_nil]
    exact ⟨by simp [returns, hr', hr], hv'.cons trivial⟩

/-- Every library of the program that is being linked has been compiled, successfully. -/
def DepsReady (gs : List Project) (e : Ev) (earlier : List Ev) : Prop :=
  match e with
  | .exec cmd _ => cmd.kind = .link → ∀ p ∈ gs, p.outPath = cmd.out → ∀ d ∈ p.depends,
      (gs[d]?).any (fun l => l.type = .staticLibrary) = true → (d, true) ∈ returns earlier
  | _ => True

instance (gs : List Project) : ∀ e log, Decidable (DepsReady gs e log)
  | .exec _ _, log => by unfold DepsReady; infer_instance
  | .run _, _ | .build _, _ | .wrote _ _, _ | .reaped _, _ | .stolen _, _ | .echild, _ | .edit _ _, _
  | .skip _ _, _ | .kept _ _, _ | .leave _ _, _ => isTrue trivial

/-- A program created before its library is linked before the library is compiled; a library that
    does not compile does not keep its program from being linked. -/
theorem deps_not_ready :
    (let gs := makefile [.program "prog".toList, .library "util".toList, .depend 0 1,
       .addFiles 0 ["main.c".toList], .addFiles 1 ["util.c".toList]]
     ¬ Logs.Every (DepsReady gs)
       (mainLoop (Env.quiet 1) (fun _ => true) gs (startRun [] false [] World.empty)).log) ∧
    (let gs := makefile [.library "util".toList, .program "prog".toList, .depend 1 0,
       .addFiles 0 ["util.c".toList], .addFiles 1 ["main.c".toList]]
     let env := Env.exits 1 (fun k => some (.exited (if k = 0 then 1 else 0)))
     ¬ Logs.Every (DepsReady gs)
       (mainLoop env (fun _ => true) gs (startRun [] false [] World.empty)).log) := by
  constructor <;> decide +kernel

end Cake
