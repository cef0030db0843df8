import Cake.Decision
import Cake.Lib.Archive
import Cake.Outputs

/-! What an output contains.

    A link leaves the objects of its argument list. `ar rcs` puts each of its arguments in the place of
    the first old member with the same file name and adds those that find none. What is in a file is
    therefore told by the commands that wrote it, and one build adds the command of its output at most:

        compile() = true ── kept ───▶ the members from before
                         ├─ linked ─▶ the objects of the sources
                         └─ ar ─────▶ the objects of the sources, and the members from before whose
                                      names they do not have -/

namespace Cake

variable {env : Env} {fits : Str → Str → Prop} {rs : List Run} {r : Run} {gs : List Project}
  {p : Project} {w w' : World} {s : St} {cmd : Cmd} {o : Str}

/-- The name under which `ar` keeps an object: its path without the directories. -/
def memberName (o : Str) : Str := (strrchr '/' o).elim o Prod.snd

/-- What is in the command's output when it has been written, with `old` in it before. `ar` is given
    each object once. -/
def Cmd.leaves (cmd : Cmd) (old : List Str) : List Str :=
  match cmd.kind with
  | .ar => Archive.replace memberName cmd.ins.eraseDups old
  | _ => cmd.ins

/-- The objects in the file, by their paths. The log does not note that a child deletes its output, so
    the members are gone when that child is started; nothing else writes the file until it exits. -/
def members (o : Str) : List Ev → List Str
  | [] => []
  | .wrote pr _ :: log => if pr.cmd.out = o then pr.cmd.leaves (members o log) else members o log
  | .exec cmd (some f) :: log =>
    if cmd.out = o ∧ f.outcome = .removed then [] else members o log
  | _ :: log => members o log

/-- How often the file has been written. -/
def writes (o : Str) : List Ev → ℕ
  | [] => 0
  | .wrote pr _ :: log => if pr.cmd.out = o then writes o log + 1 else writes o log
  | _ :: log => writes o log

theorem Cmd.mem_leaves {old : List Str} {x : Str} : x ∈ cmd.leaves old ↔
    x ∈ cmd.ins ∨ (cmd.kind = .ar ∧ x ∈ Archive.rest memberName cmd.ins.eraseDups old) := by
  rw [Cmd.leaves]
  cases cmd.kind with
  | ar => simp [Archive.mem_replace]
  | _ => simp

/-- Only commands that are started with this output and children that write it change the members. -/
theorem members_cons {e : Ev} {log : List Ev} (hexec : ∀ cmd f, e = .exec cmd (some f) → cmd.out ≠ o)
    (hwrote : ∀ pr v, e = .wrote pr v → pr.cmd.out ≠ o) : members o (e :: log) = members o log := by
  cases e with
  | wrote pr v => rw [members, if_neg (hwrote pr v rfl)]
  | exec cmd fate =>
    cases fate with
    | none => rfl
    | some f => rw [members, if_neg fun h => hexec cmd f rfl h.1]
  | _ => rfl

theorem writes_cons {e : Ev} {log : List Ev} (hwrote : ∀ pr v, e = .wrote pr v → pr.cmd.out ≠ o) :
    writes o (e :: log) = writes o log := by
  cases e with
  | wrote pr v => rw [writes, if_neg (hwrote pr v rfl)]
  | _ => rfl

/-! ### Moves that leave an output alone -/

/-- No child writes the file. -/
structure Unwritten (o : Str) (w : World) : Prop where
  pids : w.PidsOk
  procs : ∀ pr ∈ w.procs, pr.writes o = false

/-- The file is the same, with the same members, and has not been written. -/
structure SameOutput (o : Str) (w w' : World) : Prop where
  file : w'.fs o = w.fs o
  members : members o w'.log = members o w.log
  writes : writes o w'.log = writes o w.log

theorem SameOutput.refl (o : Str) (w : World) : SameOutput o w w := ⟨rfl, rfl, rfl⟩

theorem SameOutput.trans {u v w : World} (h : SameOutput o u v) (k : SameOutput o v w) :
    SameOutput o u w :=
  ⟨k.file.trans h.file, k.members.trans h.members, k.writes.trans h.writes⟩

/-- The commands that `R` allows do not write the file. -/
def Rules.Avoid (R : Rules) (o : Str) : Prop :=
  ∀ cmd, R.exec cmd → ∀ pr : Proc, pr.cmd = cmd → pr.writes o = false

theorem not_out {pr : Proc} (h : pr.writes o = false) : pr.cmd.out ≠ o := by
  rw [Proc.writes, Bool.or_eq_false_iff, decide_eq_false_iff_not] at h
  exact h.1

theorem Unwritten.move {R : Rules} (hs : ∀ k, ∀ a ∈ env.sched k, a.Spares) (hR : R.Avoid o)
    (ho : isProduct o = true) (hm : Move env R w w') (h : Unwritten o w) :
    Unwritten o w' ∧ SameOutput o w w' := by
  have hprocs : ∀ q ∈ w'.procs, q.writes o = false := fun q hq => by
    rcases hm.child h.pids hq with hq | ⟨q₀, hq₀, rfl, -⟩ | ⟨cmd, f, hc, -, rfl, -⟩
    · exact h.procs q hq
    · exact h.procs q₀ hq₀
    · exact hR cmd hc _ rfl
  refine ⟨⟨h.pids.move hm, hprocs⟩, hm.other hs ho h.procs, ?_, ?_⟩
  · rcases hm.log_cases with heq | ⟨e, heq, he⟩
    · rw [heq]
    · rw [heq]
      refine members_cons (fun cmd f hev => ?_) (fun pr v hev => ?_)
      · subst hev
        exact not_out (hR cmd he.1 (w.spawn cmd f) rfl)
      · subst hev
        exact not_out (h.procs pr he.1)
  · rcases hm.log_cases with heq | ⟨e, heq, he⟩
    · rw [heq]
    · rw [heq]
      refine writes_cons fun pr v hev => ?_
      subst hev
      exact not_out (h.procs pr he.1)

theorem Unwritten.path {R : Rules} (hs : ∀ k, ∀ a ∈ env.sched k, a.Spares) (hR : R.Avoid o)
    (ho : isProduct o = true) (hp : Path env R w w') (h : Unwritten o w) :
    Unwritten o w' ∧ SameOutput o w w' := by
  refine Moves.keeps (I := fun v => Unwritten o v ∧ SameOutput o w v) (fun u v hm ⟨hu, hsame⟩ => ?_) hp
    ⟨h, .refl o w⟩
  obtain ⟨hv, hstep⟩ := hu.move hs hR ho hm
  exact ⟨hv, hsame.trans hstep⟩

/-- Compiles and headers write no output. -/
theorem avoid_dep {target : Str} {R : Rules} (q : Project)
    (hR : ∀ cmd, R.exec cmd → p.Issues env fits gs target cmd ∧ World.hasDep cmd.kind = true) :
    R.Avoid q.outPath := by
  rintro cmd hc pr rfl
  obtain ⟨hi, hd⟩ := hR _ hc
  refine Bool.eq_false_iff.mpr fun hw => ?_
  rcases (writes_output hi hw).1 with hk | hk <;> rw [hk] at hd <;> cases hd

/-- No output is being written while no linker is in the table. -/
theorem Ready.unwritten (h : Ready env fits rs r w) (q : Project) : Unwritten q.outPath w := by
  refine ⟨h.own.pids, fun pr hpr => Bool.eq_false_iff.mpr fun hw => ?_⟩
  have hd := h.own.made.output_writer hpr hw
  rw [h.idle _ (World.mem_children hpr)] at hd
  cases hd

/-! ### The command of the output -/

/-- What has become of the output of a command that was started in `w₀`, when its child has exited. -/
inductive Became (cmd : Cmd) (w₀ w : World) : Outcome → Prop
  | left (h : SameOutput cmd.out w₀ w) : Became cmd w₀ w .left
  | removed (hfile : w.fs cmd.out = none) (hmem : members cmd.out w.log = []) :
      Became cmd w₀ w .removed
  | written (hmem : members cmd.out w.log = cmd.leaves (members cmd.out w₀.log))
      (hwrites : writes cmd.out w.log = writes cmd.out w₀.log + 1) : Became cmd w₀ w .written

theorem Became.same {w₀ : World} {a : Outcome} (h : Became cmd w₀ w a)
    (hsame : SameOutput cmd.out w w') : Became cmd w₀ w' a := by
  cases h with
  | left h => exact .left (h.trans hsame)
  | removed hfile hmem => exact .removed (hsame.file.trans hfile) (hsame.members.trans hmem)
  | written hmem hwrites => exact .written (hsame.members.trans hmem) (hsame.writes.trans hwrites)

/-- Until the child exits: its output is as it was, unless the child is going to delete it. -/
def Pending (cmd : Cmd) (w₀ w : World) (a : Outcome) : Prop :=
  (a ≠ .removed ∧ SameOutput cmd.out w₀ w) ∨ (a = .removed ∧ members cmd.out w.log = [])

theorem Pending.same {w₀ : World} {a : Outcome} (h : Pending cmd w₀ w a)
    (hsame : SameOutput cmd.out w w') : Pending cmd w₀ w' a :=
  h.imp (fun h => ⟨h.1, h.2.trans hsame⟩) fun h => ⟨h.1, hsame.members.trans h.2⟩

/-- The child exits. -/
theorem Pending.land {w₀ : World} {pr : Proc} {ps : List Proc}
    (h : Pending pr.cmd w₀ w pr.fate.outcome) :
    Became pr.cmd w₀ (World.land pr { w with procs := ps }) pr.fate.outcome := by
  rw [World.land]
  cases ho : pr.fate.outcome with
  | left =>
    rw [ho] at h
    rcases h with ⟨-, hfile, hmem, hwrites⟩ | ⟨heq, -⟩
    · exact .left ⟨hfile, hmem, hwrites⟩
    · cases heq
  | removed =>
    rw [ho] at h
    rcases h with ⟨hne, -⟩ | ⟨-, hmem⟩
    · exact absurd rfl hne
    · exact .removed (if_pos rfl) hmem
  | written =>
    rw [ho] at h
    rcases h with ⟨-, hsame⟩ | ⟨heq, -⟩
    · refine .written ?_ ?_
      · rw [← hsame.members]
        exact if_pos rfl
      · rw [← hsame.writes]
        exact if_pos rfl
    · cases heq

/-- While nothing is started: a child exits, or the products and the children stay. -/
theorem Move.exits (hs : ∀ k, ∀ a ∈ env.sched k, a.Spares)
    (hm : Move env (.execs fun _ => False) w w') :
    (w'.procs ⊆ w.procs ∧ ∀ o, isProduct o = true → SameOutput o w w') ∨
      ∃ pr ∈ w.procs, pr.zombie = false ∧ w' = World.land pr { w with procs := w.marked pr.pid } := by
  have hfinish : ∀ pid, (w.finish pid = w) ∨ ∃ pr ∈ w.procs, pr.zombie = false ∧
      w.finish pid = World.land pr { w with procs := w.marked pr.pid } := fun pid => by
    rcases w.finish_cases pid with heq | ⟨pr, hpr, rfl, hz, heq⟩
    · exact Or.inl heq
    · exact Or.inr ⟨pr, hpr, hz, heq⟩
  have hstay : ∀ pid, w' = w.finish pid → (w'.procs ⊆ w.procs ∧
      ∀ o, isProduct o = true → SameOutput o w w') ∨ ∃ pr ∈ w.procs, pr.zombie = false ∧
        w' = World.land pr { w with procs := w.marked pr.pid } := by
    rintro pid rfl
    refine (hfinish pid).imp_left fun heq => ?_
    rw [heq]
    exact ⟨List.Subset.refl _, fun o _ => .refl o w⟩
  have hedit : ∀ {p : Str} {f : Option File} {o : Str}, isProduct p = false → isProduct o = true →
      (w.fs.set p f) o = w.fs o := fun hp ho => if_neg fun heq => by rw [heq, hp] at ho; cases ho
  cases hm with
  | @act k a ha =>
    cases a with
    | exit pid => exact hstay pid rfl
    | tick d => exact Or.inl ⟨List.Subset.refl _, fun o _ => ⟨rfl, rfl, rfl⟩⟩
    | relist g => exact Or.inl ⟨List.Subset.refl _, fun o _ => ⟨rfl, rfl, rfl⟩⟩
    | edit p data =>
      exact Or.inl ⟨List.Subset.refl _, fun o ho => ⟨hedit (hs k _ ha) ho, rfl, rfl⟩⟩
    | restore p f =>
      exact Or.inl ⟨List.Subset.refl _, fun o ho => ⟨hedit (hs k _ ha) ho, rfl, rfl⟩⟩
  | finish pid => exact hstay pid rfl
  | reap hpr hz he =>
    refine Or.inl ⟨fun q hq => (List.mem_filter.mp hq).1, fun o _ => ⟨rfl, ?_, ?_⟩⟩
    · rcases he with rfl | rfl <;> rfl
    · rcases he with rfl | rfl <;> rfl
  | start hc => exact hc.elim
  | aside _ _ _ => exact Or.inl ⟨List.Subset.refl _, fun o _ => ⟨rfl, rfl, rfl⟩⟩
  | @say e he =>
    refine Or.inl ⟨List.Subset.refl _, fun o _ => ⟨rfl, ?_, ?_⟩⟩
    · cases e <;> first | rfl | exact he.elim
    · cases e <;> first | rfl | exact he.elim

/-- While the child runs and after it has exited: no other child writes its output. -/
structure Filling (pid : ℕ) (cmd : Cmd) (f : Fate) (w₀ w : World) : Prop where
  pids : w.PidsOk
  procs : ∀ pr ∈ w.procs, pr.writes cmd.out = true → pr.pid = pid ∧ pr.cmd = cmd ∧ pr.fate = f ∧
    (pr.zombie = false → Pending cmd w₀ w f.outcome) ∧
    (pr.zombie = true → Became cmd w₀ w f.outcome)

theorem Filling.move {pid : ℕ} {f : Fate} {w₀ : World} (hs : ∀ k, ∀ a ∈ env.sched k, a.Spares)
    (ho : isProduct cmd.out = true) (hm : Move env (.execs fun _ => False) w w')
    (h : Filling pid cmd f w₀ w) : Filling pid cmd f w₀ w' := by
  refine ⟨h.pids.move hm, fun q hq hw => ?_⟩
  rcases hm.exits hs with ⟨hsub, hsame⟩ | ⟨pr, hpr, hz, rfl⟩
  · obtain ⟨hpid, hcmd, hfate, hrun, hdone⟩ := h.procs q (hsub hq) hw
    exact ⟨hpid, hcmd, hfate, fun hz => (hrun hz).same (hsame _ ho),
      fun hz => (hdone hz).same (hsame _ ho)⟩
  · rw [World.procs_land] at hq
    obtain ⟨q₀, hq₀, rfl⟩ := List.mem_map.mp hq
    by_cases hmark : q₀.pid = pr.pid
    · -- the child that exits is the one that writes the output
      rw [if_pos hmark] at hw ⊢
      obtain rfl : q₀ = pr := h.pids.unique hq₀ hpr hmark
      obtain ⟨hpid, rfl, rfl, hrun, -⟩ := h.procs q₀ hq₀ hw
      exact ⟨hpid, rfl, rfl, fun hno => (by cases hno), fun _ => (hrun hz).land⟩
    · rw [if_neg hmark] at hw ⊢
      obtain ⟨hpid, hcmd, hfate, hrun, hdone⟩ := h.procs q₀ hq₀ hw
      have hother : pr.writes cmd.out = false := Bool.eq_false_iff.mpr fun hpw =>
        hmark (hpid.trans (h.procs pr hpr hpw).1.symm)
      have hsame : SameOutput cmd.out w (World.land pr { w with procs := w.marked pr.pid }) := by
        refine ⟨World.land_other hother _, ?_, ?_⟩
        · rcases World.land_log pr { w with procs := w.marked pr.pid } with ⟨-, heq⟩ | ⟨-, heq⟩
          · rw [heq, members, if_neg (not_out hother)]
          · rw [heq]
        · rcases World.land_log pr { w with procs := w.marked pr.pid } with ⟨-, heq⟩ | ⟨-, heq⟩
          · rw [heq, writes, if_neg (not_out hother)]
          · rw [heq]
      exact ⟨hpid, hcmd, hfate, fun hz => (hrun hz).same hsame, fun hz => (hdone hz).same hsame⟩

/-- `ExecuteCommand` on the command of an output does to it what its child does. -/
theorem execute_output {f : Fate} {ok : Bool} {code : ℕ} (hs : ∀ k, ∀ a ∈ env.sched k, a.Spares)
    (ho : isProduct cmd.out = true) (h : Unwritten cmd.out w)
    (hf : env.fork w.nfork cmd w.fs = some f) (hq : executeCommand env cmd w = (ok, code, w')) :
    Became cmd w w' f.outcome := by
  obtain ⟨v, pr, hpath, hpr, hcmd, hfate, hz, -, hrun⟩ :=
    execute_waits (.execs fun _ => False) h.pids hf
  rw [hq] at hrun
  simp only [Prod.mk.injEq] at hrun
  obtain ⟨-, -, rfl⟩ := hrun
  have hforked : Pending cmd w (w.fork env cmd).2 f.outcome := by
    rw [World.fork, hf]
    by_cases hr : f.outcome = .removed
    · exact Or.inr ⟨hr, if_pos ⟨rfl, hr⟩⟩
    · exact Or.inl ⟨hr, rfl, if_neg fun h => hr h.2, rfl⟩
  have hstart : Filling (w.nfork + 1) cmd f w (w.fork env cmd).2 := by
    refine ⟨h.pids.fork env cmd, fun q hq hw => ?_⟩
    have hq' := hq
    rw [World.fork, hf] at hq'
    rcases List.mem_append.mp hq' with hq' | hq'
    · rw [h.procs q hq'] at hw
      cases hw
    · rw [List.mem_singleton.mp hq']
      exact ⟨rfl, rfl, rfl, fun _ => hforked, fun hz => by cases hz⟩
  obtain ⟨-, hprocs⟩ := Moves.keeps (I := Filling (w.nfork + 1) cmd f w)
    (fun _ _ => Filling.move hs ho) hpath hstart
  exact ((hprocs pr hpr (by simp [Proc.writes, hcmd])).2.2.2.2 hz).same ⟨rfl, rfl, rfl⟩

end Cake
