import Cake.Paths
import Cake.Runs

/-! Who made the products.

    Under `obj/`, `bin/` and `lib/` only the commands of cake write. In a history that begins with none
    of these files, a product that is there is what its last writer left (`lastWrote`), and every
    writer was issued by some project of some run (`Made`). What a skipped object or a kept output is
    made of is then a question about the commands that can have its path as output. -/

namespace Cake

/-! ### A child's files -/

/-- The child writes the file when it succeeds. -/
def Proc.writes (pr : Proc) (o : Str) : Bool :=
  decide (pr.cmd.out = o) || (World.hasDep pr.cmd.kind && decide (gccDepName pr.cmd.out = o))

/-- What the child leaves there. -/
def Proc.file (pr : Proc) (o : Str) (now : ℕ) : File :=
  if pr.cmd.out = o then ⟨sec now, []⟩ else ⟨sec now, pr.fate.depText⟩

/-- The last child that wrote the file, and when. -/
def lastWrote (o : Str) : List Ev → Option (Proc × ℕ)
  | [] => none
  | .wrote pr v :: log => if pr.writes o then some (pr, v.clock) else lastWrote o log
  | _ :: log => lastWrote o log

theorem lastWrote_mem {o : Str} {pr : Proc} {now : ℕ} : ∀ {log : List Ev},
    lastWrote o log = some (pr, now) → (∃ v, .wrote pr v ∈ log ∧ v.clock = now) ∧ pr.writes o = true
  | e :: log, h => by
    have hrest : lastWrote o log = some (pr, now) →
        (∃ v, .wrote pr v ∈ e :: log ∧ v.clock = now) ∧ pr.writes o = true := fun h => by
      obtain ⟨⟨v, hm, hv⟩, hw⟩ := lastWrote_mem h
      exact ⟨⟨v, List.mem_cons_of_mem _ hm, hv⟩, hw⟩
    cases e with
    | wrote q v =>
      rw [lastWrote] at h
      split at h
      · rename_i hq
        simp only [Option.some.injEq, Prod.mk.injEq] at h
        obtain ⟨rfl, rfl⟩ := h
        exact ⟨⟨v, List.mem_cons_self .., rfl⟩, hq⟩
      · exact hrest h
    | _ => exact hrest h

/-- Two files that the same children write have the same last writer. -/
theorem lastWrote_congr {o q : Str} : ∀ {log : List Ev},
    (∀ pr v, .wrote pr v ∈ log → pr.writes o = pr.writes q) → lastWrote o log = lastWrote q log
  | [], _ => rfl
  | e :: log, h => by
    have ih : lastWrote o log = lastWrote q log :=
      lastWrote_congr fun pr v hm => h pr v (List.mem_cons_of_mem _ hm)
    cases e with
    | wrote pr v => rw [lastWrote, lastWrote, h pr v (List.mem_cons_self ..), ih]
    | _ => exact ih

theorem lastWrote_isSome {o : Str} : ∀ (new : List Ev) {log : List Ev},
    (lastWrote o log).isSome = true → (lastWrote o (new ++ log)).isSome = true
  | [], _, h => h
  | e :: new, log, h => by
    have ih := lastWrote_isSome new h
    cases e with
    | wrote pr v =>
      rw [List.cons_append, lastWrote]
      split
      · rfl
      · exact ih
    | _ => exact ih

namespace World

/-- A file after a child's files have landed: the child's, or the one that was there. -/
theorem land_some {pr : Proc} {w : World} {o : Str} {f : File} (h : (w.land pr).fs o = some f) :
    (pr.fate.outcome = .written ∧ pr.writes o = true ∧ f = pr.file o w.clock) ∨
      (w.fs o = some f ∧ (pr.fate.outcome = .written → pr.writes o = false)) := by
  unfold land at h
  cases ho : pr.fate.outcome with
  | left =>
    rw [ho] at h
    exact Or.inr ⟨h, by simp⟩
  | removed =>
    rw [ho] at h
    simp only [FS.set] at h
    split at h
    · cases h
    · exact Or.inr ⟨h, by simp⟩
  | written =>
    rw [ho] at h
    simp only [say, FS.set] at h
    by_cases hout : o = pr.cmd.out
    · simp only [hout, if_true, Option.some.injEq] at h
      exact Or.inl ⟨rfl, by simp [Proc.writes, hout], by rw [← h, Proc.file, if_pos hout.symm]⟩
    · rw [if_neg hout] at h
      cases hd : hasDep pr.cmd.kind with
      | false =>
        simp only [hd, Bool.false_eq_true, if_false] at h
        exact Or.inr ⟨h, fun _ => by simp [Proc.writes, Ne.symm hout, hd]⟩
      | true =>
        simp only [hd, if_true, FS.set] at h
        split at h
        · rename_i hdep
          rw [Option.some.injEq] at h
          exact Or.inl ⟨rfl, by simp [Proc.writes, hd, hdep],
            by rw [← h, Proc.file, if_neg (Ne.symm hout)]⟩
        · rename_i hdep
          exact Or.inr ⟨h, fun _ => by simp [Proc.writes, Ne.symm hout, Ne.symm hdep]⟩

/-- The log after a child's files have landed. -/
theorem land_log (pr : Proc) (w : World) :
    (pr.fate.outcome = .written ∧ (w.land pr).log = .wrote pr (w.land pr).snap :: w.log) ∨
      (pr.fate.outcome ≠ .written ∧ (w.land pr).log = w.log) := by
  rw [land]
  cases ho : pr.fate.outcome with
  | left => exact Or.inr ⟨by simp, rfl⟩
  | removed => exact Or.inr ⟨by simp, rfl⟩
  | written => exact Or.inl ⟨rfl, rfl⟩

theorem clock_land (pr : Proc) (w : World) : (w.land pr).clock = w.clock := by
  rw [land]; split <;> rfl

/-- `finish` lands the files of one running child, if there is one. -/
theorem finish_cases (pid : ℕ) (w : World) : w.finish pid = w ∨
    ∃ pr ∈ w.procs, pr.pid = pid ∧ pr.zombie = false ∧
      w.finish pid = land pr { w with procs := w.marked pid } := by
  rw [finish]
  cases hf : w.procs.find? (fun pr => pr.pid == pid && !pr.zombie) with
  | none => exact Or.inl rfl
  | some pr =>
    have := List.find?_some hf
    simp only [Bool.and_eq_true, beq_iff_eq, Bool.not_eq_true'] at this
    exact Or.inr ⟨pr, List.mem_of_find?_eq_some hf, this.1, this.2, rfl⟩

/-- A marked child is an unmarked one, up to the mark. -/
theorem mem_marked {pid : ℕ} {w : World} {q : Proc} (h : q ∈ w.marked pid) :
    ∃ q₀ ∈ w.procs, q = q₀ ∨ (q₀.pid = pid ∧ q = { q₀ with zombie := true }) := by
  obtain ⟨q₀, hq₀, rfl⟩ := List.mem_map.mp h
  refine ⟨q₀, hq₀, ?_⟩
  split
  · exact Or.inr ⟨‹_›, rfl⟩
  · exact Or.inl rfl

end World

/-! ### Where a child comes from -/

/-- A child that has just exited: its files have landed. -/
def Exited (w w' : World) (q : Proc) : Prop :=
  ∃ q₀ ∈ w.procs, q = { q₀ with zombie := true } ∧
    (q₀.fate.outcome = .written → w'.log = .wrote q₀ w'.snap :: w.log)

theorem World.finish_child {w : World} (hp : w.PidsOk) {pid : ℕ} {q : Proc}
    (hq : q ∈ (w.finish pid).procs) : q ∈ w.procs ∨ Exited w (w.finish pid) q := by
  rcases w.finish_cases pid with heq | ⟨pr, hpr, hpid, -, heq⟩
  · rw [heq] at hq
    exact Or.inl hq
  · rw [heq] at hq ⊢
    rw [World.procs_land] at hq
    obtain ⟨q₀, hq₀, rfl | ⟨hq₀pid, rfl⟩⟩ := World.mem_marked hq
    · exact Or.inl hq₀
    · -- the one child with this pid is the one whose files land
      have hsame : q₀ = pr := hp.unique hq₀ hpr (hq₀pid.trans hpid.symm)
      subst hsame
      refine Or.inr ⟨q₀, hq₀, rfl, fun ho => ?_⟩
      rcases World.land_log q₀ { w with procs := w.marked pid } with ⟨-, hlog⟩ | ⟨hne, -⟩
      · exact hlog
      · exact absurd ho hne

theorem World.act_child {w : World} (hp : w.PidsOk) {a : Act} {q : Proc}
    (hq : q ∈ (w.act a).procs) : q ∈ w.procs ∨ Exited w (w.act a) q := by
  cases a with
  | exit pid => exact World.finish_child hp hq
  | tick d => exact Or.inl hq
  | edit p data => exact Or.inl hq
  | restore p f => exact Or.inl hq
  | relist g => exact Or.inl hq

/-- The child `fork` makes. -/
def World.spawn (w : World) (cmd : Cmd) (f : Fate) : Proc :=
  ⟨w.nfork + 1, cmd, f, w.clock, f.reads.filterMap (fun p => (w.fs p).map (fun d => (p, d))), false⟩

/-- After a move, a child was there before, has just exited or has just been started. -/
theorem Move.child {env : Env} {R : Rules} {w w' : World} (hm : Move env R w w') (hp : w.PidsOk)
    {q : Proc} (hq : q ∈ w'.procs) : q ∈ w.procs ∨ Exited w w' q ∨
      ∃ cmd f, R.exec cmd ∧ env.fork w.nfork cmd w.fs = some f ∧ q = w.spawn cmd f ∧
        w'.fs = w.fs ∧ w'.log = .exec cmd (some f) :: w.log := by
  cases hm with
  | act ha => exact (World.act_child hp hq).imp_right Or.inl
  | finish pid => exact (World.finish_child hp hq).imp_right Or.inl
  | reap hpr hz he => exact Or.inl (List.mem_filter.mp hq).1
  | @start cmd hc =>
    rw [World.fork] at hq ⊢
    cases hf : env.fork w.nfork cmd w.fs with
    | none =>
      rw [hf] at hq
      exact Or.inl hq
    | some f =>
      rw [hf] at hq
      rcases List.mem_append.mp hq with hq | hq
      · exact Or.inl hq
      · exact Or.inr (Or.inr ⟨cmd, f, hc, hf, List.mem_singleton.mp hq, rfl, rfl⟩)
  | aside _ _ _ => exact Or.inl hq
  | say _ => exact Or.inl hq

theorem World.PidsOk.act {w : World} (h : w.PidsOk) (a : Act) : (w.act a).PidsOk :=
  h.same (w.same_act a)

theorem World.PidsOk.move {env : Env} {R : Rules} {w w' : World} (hm : Move env R w w')
    (h : w.PidsOk) : w'.PidsOk := by
  cases hm with
  | act _ => exact h.act _
  | finish pid => exact h.same (World.same_finish pid w)
  | reap _ _ _ => exact h.reap _ _
  | start _ => exact h.fork env _
  | aside _ _ _ => exact ⟨h.nodup, h.bound⟩
  | say _ => exact ⟨h.nodup, h.bound⟩

/-! ### Only cake writes products -/

/-- The user's hands are off the products. -/
def Act.Spares : Act → Prop
  | .edit p _ | .restore p _ => isProduct p = false
  | _ => True

/-- Nobody but cake writes products in the history. -/
structure Spared (env : Env) (rs : List Run) : Prop where
  env : ∀ k, ∀ a ∈ env.sched k, a.Spares
  before : ∀ r ∈ rs, ∀ a ∈ r.before, a.Spares

/-! ### Files nobody writes -/

theorem World.land_other {pr : Proc} {o : Str} (h : pr.writes o = false) (w : World) :
    (w.land pr).fs o = w.fs o := by
  simp only [Proc.writes, Bool.or_eq_false_iff, Bool.and_eq_false_iff, decide_eq_false_iff_not] at h
  obtain ⟨hout, hdep⟩ := h
  rw [World.land]
  cases pr.fate.outcome with
  | left => rfl
  | removed => simp only [FS.set, if_neg (Ne.symm hout)]
  | written =>
    simp only [World.say, FS.set, if_neg (Ne.symm hout)]
    rcases hdep with hk | hdep
    · rw [hk]; rfl
    · split
      · simp only [FS.set, if_neg (Ne.symm hdep)]
      · rfl

theorem World.finish_other {w : World} {o : Str} (pid : ℕ) (h : ∀ pr ∈ w.procs, pr.writes o = false) :
    (w.finish pid).fs o = w.fs o := by
  rcases w.finish_cases pid with heq | ⟨pr, hpr, -, -, heq⟩
  · rw [heq]
  · rw [heq]
    exact World.land_other (h pr hpr) { w with procs := w.marked pid }

theorem World.act_other {w : World} {a : Act} (ha : a.Spares) {o : Str} (ho : isProduct o = true)
    (h : ∀ pr ∈ w.procs, pr.writes o = false) : (w.act a).fs o = w.fs o := by
  have hne : ∀ p, isProduct p = false → o ≠ p := fun p hp heq => by rw [heq, hp] at ho; cases ho
  cases a with
  | exit pid => exact World.finish_other pid h
  | tick d => rfl
  | relist g => rfl
  | edit p data => simp only [World.act, FS.set, if_neg (hne p ha)]
  | restore p f => simp only [World.act, FS.set, if_neg (hne p ha)]

/-- A product that no child writes stays as it is. -/
theorem Move.other {env : Env} {R : Rules} {w w' : World} (hs : ∀ k, ∀ a ∈ env.sched k, a.Spares) (hm : Move env R w w')
    {o : Str} (ho : isProduct o = true) (h : ∀ pr ∈ w.procs, pr.writes o = false) :
    w'.fs o = w.fs o := by
  cases hm with
  | act ha => exact World.act_other (hs _ _ ha) ho h
  | finish pid => exact World.finish_other pid h
  | reap _ _ _ => rfl
  | @start cmd _ =>
    rw [World.fork]
    cases env.fork w.nfork cmd w.fs <;> rfl
  | aside _ _ _ => rfl
  | say _ => rfl

/-! ### Who wrote them -/

/-- Every product was made by a child that satisfies `C`. -/
structure Made (C : Cmd → Fate → Prop) (w : World) : Prop where
  procs : ∀ pr ∈ w.procs, C pr.cmd pr.fate
  log : ∀ pr v, .wrote pr v ∈ w.log → C pr.cmd pr.fate ∧ pr.fate.outcome = .written
  owned : ∀ o, isProduct o = true → ∀ f, w.fs o = some f →
    ∃ pr now, lastWrote o w.log = some (pr, now) ∧ f = pr.file o now

variable {C : Cmd → Fate → Prop} {w w' : World}

theorem Made.land {pr : Proc} (h : Made C w) (hpr : C pr.cmd pr.fate) : Made C (w.land pr) := by
  refine ⟨by rw [World.procs_land]; exact h.procs, fun q v hm => ?_, fun o ho f hf => ?_⟩
  · rcases w.land_log pr with ⟨hw, hlog⟩ | ⟨-, hlog⟩
    · rw [hlog] at hm
      rcases List.mem_cons.mp hm with heq | hm
      · cases heq; exact ⟨hpr, hw⟩
      · exact h.log q v hm
    · rw [hlog] at hm
      exact h.log q v hm
  · rcases World.land_some hf with ⟨hw, hwr, rfl⟩ | ⟨hf, hno⟩
    · rcases w.land_log pr with ⟨-, hlog⟩ | ⟨hne, -⟩
      · refine ⟨pr, w.clock, ?_, rfl⟩
        rw [hlog, lastWrote, if_pos hwr, World.snap, World.clock_land]
      · exact absurd hw hne
    · obtain ⟨q, now, hl, rfl⟩ := h.owned o ho f hf
      refine ⟨q, now, ?_, rfl⟩
      rcases w.land_log pr with ⟨hw, hlog⟩ | ⟨-, hlog⟩
      · rw [hlog, lastWrote, hno hw]
        simpa using hl
      · rw [hlog]; exact hl

theorem Made.finish (h : Made C w) (pid : ℕ) : Made C (w.finish pid) := by
  rcases w.finish_cases pid with heq | ⟨pr, hpr, -, -, heq⟩
  · rw [heq]; exact h
  · rw [heq]
    have hm : Made C { w with procs := w.marked pid } := by
      refine ⟨fun q hq => ?_, h.log, h.owned⟩
      obtain ⟨q₀, hq₀, rfl | ⟨-, rfl⟩⟩ := World.mem_marked hq
      · exact h.procs q hq₀
      · exact h.procs q₀ hq₀
    exact hm.land (h.procs pr hpr)

theorem Made.act {a : Act} (h : Made C w) (ha : a.Spares) : Made C (w.act a) := by
  cases a with
  | exit pid => exact h.finish pid
  | tick d => exact ⟨h.procs, h.log, h.owned⟩
  | relist g => exact ⟨h.procs, h.log, h.owned⟩
  | edit p data =>
    refine ⟨h.procs, fun pr v hm => ?_, fun o ho f hf => ?_⟩
    · rcases List.mem_cons.mp hm with heq | hm
      · cases heq
      · exact h.log pr v hm
    · have hne : o ≠ p := fun heq => by rw [heq, ha] at ho; cases ho
      exact h.owned o ho f (by simpa [World.act, FS.set, hne] using hf)
  | restore p g =>
    refine ⟨h.procs, h.log, fun o ho f hf => ?_⟩
    have hne : o ≠ p := fun heq => by rw [heq, ha] at ho; cases ho
    exact h.owned o ho f (by simpa [World.act, FS.set, hne] using hf)

/-- A note in the log that is not about a file. -/
theorem Made.say {e : Ev} (h : Made C w) (he : ∀ pr v, e ≠ .wrote pr v) : Made C (w.say e) := by
  refine ⟨h.procs, fun pr v hm => ?_, fun o ho f hf => ?_⟩
  · rcases List.mem_cons.mp hm with heq | hm
    · exact absurd heq.symm (he pr v)
    · exact h.log pr v hm
  · obtain ⟨pr, now, hl, rfl⟩ := h.owned o ho f hf
    refine ⟨pr, now, ?_, rfl⟩
    rw [← hl]
    cases e with
    | wrote pr v => exact absurd rfl (he pr v)
    | _ => rfl

theorem Made.move {env : Env} {R : Rules}
    (hR : ∀ cmd k fs f, R.exec cmd → env.fork k cmd fs = some f → C cmd f)
    (hs : ∀ k, ∀ a ∈ env.sched k, a.Spares) (hm : Move env R w w') (h : Made C w) : Made C w' := by
  cases hm with
  | act ha => exact h.act (hs _ _ ha)
  | finish pid => exact h.finish pid
  | @reap pr e hpr hz he =>
    have hsay := h.say (e := e) (by rcases he with rfl | rfl <;> simp)
    exact ⟨fun q hq => h.procs q (List.mem_filter.mp hq).1, hsay.log, hsay.owned⟩
  | @start cmd hc =>
    have hsay := h.say (e := .exec cmd (env.fork w.nfork cmd w.fs)) (by simp)
    rw [World.fork]
    cases hf : env.fork w.nfork cmd w.fs with
    | none =>
      rw [hf] at hsay
      exact ⟨h.procs, hsay.log, hsay.owned⟩
    | some f =>
      rw [hf] at hsay
      refine ⟨fun q hq => ?_, hsay.log, hsay.owned⟩
      rcases List.mem_append.mp hq with hq | hq
      · exact h.procs q hq
      · rw [List.mem_singleton.mp hq]; exact hR cmd _ _ f hc hf
  | aside _ _ _ => exact ⟨h.procs, h.log, h.owned⟩
  | @say e he => exact h.say fun pr v heq => by rw [heq] at he; exact he.elim

/-! ### Histories -/

/-- Some project of some run issues the command. -/
def IssuedBy (env : Env) (fits : Str → Str → Prop) (rs : List Run) (cmd : Cmd) : Prop :=
  ∃ r ∈ rs, ∃ p ∈ r.projects, p.Issues env fits r.projects r.target cmd

/-- A child of the history. -/
def ChildOf (env : Env) (fits : Str → Str → Prop) (rs : List Run) (cmd : Cmd) (f : Fate) : Prop :=
  IssuedBy env fits rs cmd ∧ ∃ k fs, env.fork k cmd fs = some f

variable {env : Env} {fits : Str → Str → Prop} {rs : List Run}

theorem Made.step (hs : Spared env rs) (h : Step env fits rs w w') :
    Made (ChildOf env fits rs) w → Made (ChildOf env fits rs) w' := by
  intro hw
  cases h with
  | move hr hp hm =>
    exact hw.move (fun cmd k fs f hc hf => ⟨⟨_, hr, _, hp, hc⟩, k, fs, hf⟩) hs.env hm
  | before hr ha => exact hw.act (hs.before _ hr _ ha)
  | @start r hr =>
    have hset : Made (ChildOf env fits rs) { w with
      target := r.target, rebuild := r.rebuild, newestTime := 0
      makefileTime := mtimeOf w.fs r.makefile } := ⟨hw.procs, hw.log, hw.owned⟩
    exact hset.say (by simp)
  | leave i ret => exact hw.say (by simp)

/-- Before the first run there are no products and no children. -/
structure World.Clean (w : World) : Prop where
  fs : ∀ o, isProduct o = true → w.fs o = none
  procs : w.procs = []
  log : w.log = []

theorem World.Clean.pids (h : w.Clean) : w.PidsOk := by
  have hc : w.children = [] := by rw [World.children, h.procs, List.map_nil]
  exact ⟨by rw [hc]; exact List.nodup_nil, by simp [hc]⟩

theorem World.Clean.made (h : w.Clean) : Made C w := by
  refine ⟨by simp [h.procs], by simp [h.log], fun o ho f hf => ?_⟩
  rw [h.fs o ho] at hf; cases hf

/-! ### Which commands can have made a product -/

/-- The output of a link or an archive lies under `bin/` or `lib/`. -/
theorem outPath_under (p : Project) : bindir <+: p.outPath ∨ libdir <+: p.outPath := by
  rw [Project.outPath]
  cases p.type with
  | staticLibrary => exact Or.inr (libName_under _)
  | program => exact Or.inl (outName_under _)
  | sharedLibrary => exact Or.inl (outName_under _)

theorem obj_ne_outPath {o : Str} (h : baseobjdir <+: o) (p : Project) : o ≠ p.outPath := by
  rcases outPath_under p with hp | hp
  · exact obj_ne_bin h hp
  · exact obj_ne_lib h hp

theorem product_outPath (p : Project) : isProduct p.outPath = true := by
  rcases outPath_under p with hp | hp
  · exact product_bin hp
  · exact product_lib hp

/-- The commands that leave a dependency file have their output under `obj/`. -/
theorem issued_dep {gs : List Project} {p : Project} {target : Str} {cmd : Cmd}
    (h : p.Issues env fits gs target cmd) (hd : World.hasDep cmd.kind = true) :
    baseobjdir <+: cmd.out := by
  cases h with
  | compile => exact mkobjname_under ..
  | pch => exact mkpchname_under ..
  | link _ hk => rw [hk] at hd; cases hd
  | ar _ hk => rw [hk] at hd; cases hd

/-- Only a compile writes an object. -/
theorem writes_object {gs : List Project} {p : Project} {target dir fname : Str} {pr : Proc}
    (h : p.Issues env fits gs target pr.cmd) (ho : baseobjdir <+: mkobjname dir fname)
    (hw : pr.writes (mkobjname dir fname) = true) :
    pr.cmd.kind = .compile ∧ pr.cmd.out = mkobjname dir fname := by
  have hout : pr.cmd.out = mkobjname dir fname := by
    simp only [Proc.writes, Bool.or_eq_true, Bool.and_eq_true, decide_eq_true_eq] at hw
    rcases hw with hw | ⟨-, hw⟩
    · exact hw
    · exact absurd hw.symm (mkobjname_ne_gccDepName _ _ _)
  refine ⟨?_, hout⟩
  rw [← hout] at ho
  generalize pr.cmd = cmd at h ho hout
  cases h with
  | compile => rfl
  | pch => exact absurd hout.symm (mkobjname_ne_mkpchname _ _ _ _)
  | link _ _ hp => exact absurd hp (obj_ne_outPath ho p)
  | ar _ _ hp => exact absurd hp (obj_ne_outPath ho p)

/-- Only a link or an archive of a project with that path writes an output. -/
theorem writes_output {gs : List Project} {p : Project} {target : Str} {pr : Proc} {q : Project}
    (h : p.Issues env fits gs target pr.cmd) (hw : pr.writes q.outPath = true) :
    (pr.cmd.kind = .link ∨ pr.cmd.kind = .ar) ∧ p.outPath = q.outPath ∧
      pr.cmd.out = q.outPath ∧ ∀ o ∈ pr.cmd.ins, p.isObject fits target o := by
  have hout : pr.cmd.out = q.outPath := by
    simp only [Proc.writes, Bool.or_eq_true, Bool.and_eq_true, decide_eq_true_eq] at hw
    rcases hw with hw | ⟨hd, hw⟩
    · exact hw
    · exact absurd hw (obj_ne_outPath (gccDepName_under (issued_dep h hd)) q)
  generalize pr.cmd = cmd at h hout
  cases h with
  | compile => exact absurd hout (obj_ne_outPath (mkobjname_under ..) q)
  | pch => exact absurd hout (obj_ne_outPath (mkpchname_under ..) q)
  | link _ hk hp hi => exact ⟨Or.inl hk, hp.symm.trans hout, hout, hi⟩
  | ar _ hk hp hi => exact ⟨Or.inr hk, hp.symm.trans hout, hout, hi⟩

end Cake
