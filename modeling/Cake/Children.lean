import Mathlib.Data.List.Nodup
import Mathlib.Tactic
import Cake.Pool

/-! The process table as the job pool sees it.

    Outside activity lets children exit and files change, but it neither starts nor reaps a child:
    `children` (pid, command and fate of every child not yet reaped) and the part of the log that the
    pool is accountable for stay as they are (`Same`). `waitpid` on a child of one's own takes that
    child out of the table and nothing else; `waitpid(-1)` takes out any child (`own_cases`,
    `any_cases`). Everything later modules say about the pool rests on these two lemmas. -/

namespace Cake

/-- The commands the present build object has started, newest first. -/
def execs : List Ev → List (Cmd × Option Fate)
  | [] => []
  | .build _ :: _ => []
  | .exec cmd fate :: log => (cmd, fate) :: execs log
  | _ :: log => execs log

/-- The objects of the sources the present build object has skipped. -/
def skips : List Ev → List Str
  | [] => []
  | .build _ :: _ => []
  | .skip cmd _ :: log => cmd.out :: skips log
  | _ :: log => skips log

/-- cake sees exit code 0. -/
def Fate.ok (f : Fate) : Bool := wexitstatus f.status.word == 0

/-- No `waitpid(-1)` of the present build object came back empty-handed or with a child that cake
    would have counted as a success. -/
def Fair : List Ev → Prop
  | [] => True
  | .build _ :: _ => True
  | .stolen pr :: log => pr.fate.ok = false ∧ Fair log
  | .echild :: _ => False
  | _ :: log => Fair log

instance : DecidablePred Fair := fun log => go log
where
  go : ∀ log, Decidable (Fair log)
    | [] => isTrue trivial
    | .build _ :: _ => isTrue trivial
    | .stolen _ :: log => have := go log; inferInstanceAs (Decidable (_ ∧ Fair log))
    | .echild :: _ => isFalse id
    | .run _ :: log | .exec _ _ :: log | .wrote _ _ :: log | .reaped _ :: log | .edit _ _ :: log
    | .skip _ _ :: log | .kept _ _ :: log | .leave _ _ :: log => go log

/-- Pid, command and fate of a child. -/
def Proc.core (pr : Proc) : ℕ × Cmd × Fate := (pr.pid, pr.cmd, pr.fate)

namespace World

def children (w : World) : List (ℕ × Cmd × Fate) := w.procs.map Proc.core

/-- Pids are fork numbers, and no two children share one. -/
structure PidsOk (w : World) : Prop where
  nodup : (w.children.map Prod.fst).Nodup
  bound : ∀ x ∈ w.children, 0 < x.1 ∧ x.1 ≤ w.nfork

theorem pidsOk_empty : empty.PidsOk := ⟨List.nodup_nil, by simp [empty, children]⟩

/-- Nothing the pool is accountable for has changed. -/
structure Same (w w' : World) : Prop where
  children : w'.children = w.children
  nfork : w'.nfork = w.nfork
  execs : execs w'.log = execs w.log
  skips : skips w'.log = skips w.log
  fair : Fair w'.log ↔ Fair w.log

namespace Same

theorem refl (w : World) : Same w w := ⟨rfl, rfl, rfl, rfl, Iff.rfl⟩

theorem trans {u v w : World} (h : Same u v) (k : Same v w) : Same u w :=
  ⟨k.children.trans h.children, k.nfork.trans h.nfork, k.execs.trans h.execs,
    k.skips.trans h.skips, k.fair.trans h.fair⟩

end Same

theorem same_land (pr : Proc) (w : World) : Same w (w.land pr) := by
  rw [land]
  split
  · exact .refl w
  · exact ⟨rfl, rfl, rfl, rfl, Iff.rfl⟩
  · exact ⟨rfl, rfl, rfl, rfl, Iff.rfl⟩

theorem core_mark (pid : ℕ) (q : Proc) :
    (if q.pid = pid then { q with zombie := true } else q : Proc).core = q.core := by
  split <;> rfl

/-- The table after `finish pid`. -/
def marked (pid : ℕ) (w : World) : List Proc :=
  w.procs.map (fun q => if q.pid = pid then { q with zombie := true } else q)

theorem procs_land (pr : Proc) (w : World) : (w.land pr).procs = w.procs := by
  rw [land]; split <;> rfl

/-- `finish` marks the children with that pid; when none is running they are marked already. -/
theorem procs_finish (pid : ℕ) (w : World) : (w.finish pid).procs = w.marked pid := by
  rw [finish]
  cases hf : w.procs.find? (fun pr => pr.pid == pid && !pr.zombie) with
  | some pr => exact procs_land _ _
  | none =>
    rw [List.find?_eq_none] at hf
    refine (List.map_congr_left (g := id) fun q hq => ?_).trans (List.map_id _) |>.symm
    by_cases hp : q.pid = pid
    · have hz : q.zombie = true := by simpa [hp] using hf q hq
      obtain ⟨_, _, _, _, _, z⟩ := q
      simp only at hz hp ⊢
      rw [if_pos hp, hz]; rfl
    · simp [hp]

/-- The child with that pid has exited by then. -/
theorem finish_zombie {pid : ℕ} {w : World} {pr : Proc} (hpr : pr ∈ (w.finish pid).procs)
    (hpid : pr.pid = pid) : pr.zombie = true := by
  rw [procs_finish, marked] at hpr
  obtain ⟨q, -, rfl⟩ := List.mem_map.mp hpr
  by_cases hq : q.pid = pid
  · simp [hq]
  · simp [hq] at hpid

theorem same_finish (pid : ℕ) (w : World) : Same w (w.finish pid) := by
  have hc : (w.finish pid).children = w.children := by
    simp only [children, procs_finish, marked, List.map_map]
    exact List.map_congr_left fun q _ => core_mark pid q
  rw [finish] at hc ⊢
  split at hc
  · exact .refl w
  · obtain ⟨-, h₂, h₃, h₄, h₅⟩ := same_land ‹Proc› { w with procs := w.marked pid }
    exact ⟨hc, h₂, h₃, h₄, h₅⟩

theorem same_act (w : World) (a : Act) : Same w (w.act a) := by
  cases a with
  | exit pid => exact same_finish pid w
  | tick d => exact ⟨rfl, rfl, rfl, rfl, Iff.rfl⟩
  | edit p data => exact ⟨rfl, rfl, rfl, rfl, Iff.rfl⟩
  | restore p f => exact ⟨rfl, rfl, rfl, rfl, Iff.rfl⟩
  | relist g => exact ⟨rfl, rfl, rfl, rfl, Iff.rfl⟩

theorem same_acts : ∀ (as : List Act) (w : World), Same w (as.foldl act w)
  | [], w => .refl w
  | a :: as, w => (same_act w a).trans (same_acts as (w.act a))

theorem same_yield (env : Env) (w : World) : Same w (w.yield env) :=
  .trans (v := { w with nyield := w.nyield + 1 }) ⟨rfl, rfl, rfl, rfl, Iff.rfl⟩ (same_acts _ _)

/-- `w'` is `w` without the child `k`. -/
structure Reaped (k : ℕ) (w w' : World) : Prop where
  children : w'.children = w.children.filter (fun x => x.1 ≠ k)
  nfork : w'.nfork = w.nfork
  execs : Cake.execs w'.log = Cake.execs w.log
  skips : Cake.skips w'.log = Cake.skips w.log

theorem children_reap (pr : Proc) (e : Ev) (w : World) :
    (w.reap pr e).children = w.children.filter (fun x => x.1 ≠ pr.pid) := by
  simp only [children, reap, List.filter_map]; rfl

theorem mem_children {w : World} {pr : Proc} (h : pr ∈ w.procs) :
    (pr.pid, pr.cmd, pr.fate) ∈ w.children := List.mem_map.mpr ⟨pr, h, rfl⟩

/-- Waiting for a child of one's own: its status and its removal, or `-1` when it is not in the
    table, or `0` while it runs and the call does not block. -/
theorem own_cases (block : Bool) (k : ℕ) (w : World) {r : ℤ} {status : ℕ} {w' : World}
    (h : w.waitOne block k = ((r, status), w')) :
    (Fair w'.log ↔ Fair w.log) ∧
    ((∃ c f, (k, c, f) ∈ w.children ∧ r = k ∧ status = f.status.word ∧
        Reaped k w w') ∨
      (Same w w' ∧ ((r = -1 ∧ ∀ x ∈ w.children, x.1 ≠ k) ∨ (block = false ∧ r = 0)))) := by
  unfold waitOne at h
  have hs : Same w (if block then w.finish k else w) := by
    split
    · exact same_finish k w
    · exact .refl w
  have hz : block = true → ∀ pr ∈ (if block then w.finish k else w).procs, pr.pid = k →
      pr.zombie = true := by
    rintro rfl pr hpr hk
    exact finish_zombie hpr hk
  generalize (if block then w.finish k else w) = v at h hs hz
  dsimp only at h
  cases hf : v.procs.find? (fun pr => pr.pid == k) with
  | none =>
    simp only [hf, Prod.mk.injEq] at h
    obtain ⟨⟨rfl, rfl⟩, rfl⟩ := h
    refine ⟨hs.fair, Or.inr ⟨hs, Or.inl ⟨rfl, fun x hx => ?_⟩⟩⟩
    rw [← hs.children] at hx
    obtain ⟨pr, hpr, rfl⟩ := List.mem_map.mp hx
    simpa [Proc.core] using List.find?_eq_none.mp hf pr hpr
  | some pr =>
    have hpr : pr ∈ v.procs := List.mem_of_find?_eq_some hf
    have hk : pr.pid = k := by simpa using List.find?_some hf
    simp only [hf] at h
    cases hzz : pr.zombie with
    | true =>
      simp only [hzz, if_true, Prod.mk.injEq] at h
      obtain ⟨⟨rfl, rfl⟩, rfl⟩ := h
      refine ⟨hs.fair, Or.inl ⟨pr.cmd, pr.fate, ?_, by rw [hk], rfl, ?_⟩⟩
      · rw [← hs.children, ← hk]; exact mem_children hpr
      · refine ⟨?_, hs.nfork, hs.execs, hs.skips⟩
        rw [children_reap, hs.children, hk]
    | false =>
      simp only [hzz, Bool.false_eq_true, if_false, Prod.mk.injEq] at h
      obtain ⟨⟨rfl, rfl⟩, rfl⟩ := h
      refine ⟨hs.fair, Or.inr ⟨hs, Or.inr ⟨?_, rfl⟩⟩⟩
      cases hb : block with
      | false => rfl
      | true => rw [hz hb pr hpr hk] at hzz; cases hzz

/-- Waiting for any child: `-1` without children, `0` while all run and the call does not block, or
    the removal of some child, whose status goes to the caller. -/
theorem any_cases (block : Bool) (n : ℕ) (w : World) {r : ℤ} {status : ℕ} {w' : World}
    (h : w.waitAny block n = ((r, status), w')) :
    (r = -1 ∧ w' = w.say .echild) ∨ (block = false ∧ r = 0 ∧ Same w w') ∨
      ∃ k c f, (k, c, f) ∈ w.children ∧ r = k ∧ Reaped k w w' ∧
        (Fair w'.log ↔ f.ok = false ∧ Fair w.log) := by
  unfold waitAny at h
  cases hp : w.procs with
  | nil =>
    simp only [hp, Prod.mk.injEq] at h
    exact Or.inl ⟨h.1.1.symm, h.2.symm⟩
  | cons p ps =>
    simp only [hp] at h
    set q := (p :: ps).getD (n % (ps.length + 1)) p with hq
    have hqm : q ∈ w.procs := by
      rw [hq, hp, List.getD_eq_getElem?_getD]
      cases hi : (p :: ps)[n % (ps.length + 1)]? with
      | none => exact List.mem_cons_self ..
      | some x => exact List.mem_of_getElem? hi
    have hs : Same w (if block && ((p :: ps).filter (·.zombie)).isEmpty then w.finish q.pid
        else w) := by
      split
      · exact same_finish _ w
      · exact .refl w
    -- a blocking call always finds a zombie: there was one, or `q` has just become one
    have hz : block = true → ((if block && ((p :: ps).filter (·.zombie)).isEmpty then
        w.finish q.pid else w).procs.filter (·.zombie)) ≠ [] := by
      rintro rfl
      simp only [Bool.true_and]
      split
      · rw [procs_finish, marked, Ne, List.filter_eq_nil_iff]
        intro hall
        have := hall _ (List.mem_map.mpr ⟨q, hqm, rfl⟩)
        simp at this
      · rename_i hne
        rw [hp]
        simpa using hne
    generalize (if block && ((p :: ps).filter (·.zombie)).isEmpty then w.finish q.pid else w) = v
      at h hs hz
    cases hg : (v.procs.filter (·.zombie))[n % (v.procs.filter (·.zombie)).length]? with
    | none =>
      simp only [hg, Prod.mk.injEq] at h
      obtain ⟨⟨rfl, rfl⟩, rfl⟩ := h
      refine Or.inr (Or.inl ⟨?_, rfl, hs⟩)
      cases hb : block with
      | false => rfl
      | true =>
        have hlt := Nat.mod_lt n (List.length_pos_iff.mpr (hz hb))
        rw [List.getElem?_eq_none_iff] at hg
        omega
    | some pr =>
      simp only [hg, Prod.mk.injEq] at h
      obtain ⟨⟨rfl, rfl⟩, rfl⟩ := h
      have hpr : pr ∈ v.procs := (List.mem_filter.mp (List.mem_of_getElem? hg)).1
      refine Or.inr (Or.inr ⟨pr.pid, pr.cmd, pr.fate, ?_, rfl, ⟨?_, hs.nfork, hs.execs, hs.skips⟩,
        ?_⟩)
      · rw [← hs.children]; exact mem_children hpr
      · rw [children_reap, hs.children]
      · exact and_congr_right fun _ => hs.fair

/-- No command was started and no source skipped, and the log is no fairer than before. -/
structure SameLog (w w' : World) : Prop where
  nfork : w'.nfork = w.nfork
  execs : Cake.execs w'.log = Cake.execs w.log
  skips : Cake.skips w'.log = Cake.skips w.log
  fair : Fair w'.log → Fair w.log

theorem SameLog.trans {u v w : World} (h : SameLog u v) (k : SameLog v w) : SameLog u w :=
  ⟨k.nfork.trans h.nfork, k.execs.trans h.execs, k.skips.trans h.skips, h.fair ∘ k.fair⟩

theorem Same.log {w w' : World} (h : Same w w') : SameLog w w' :=
  ⟨h.nfork, h.execs, h.skips, h.fair.mp⟩

theorem waitpid_log {env : Env} {block : Bool} {pid : ℤ} {w w' : World} {r : ℤ × ℕ}
    (h : w.waitpid env block pid = (r, w')) : SameLog w w' := by
  refine (same_yield env w).log.trans ?_
  unfold waitpid at h
  dsimp only at h
  split at h
  · rcases any_cases _ _ _ h with ⟨-, rfl⟩ | ⟨-, -, hs⟩ | ⟨_, _, _, -, -, hr, hfr⟩
    · exact ⟨rfl, rfl, rfl, False.elim⟩
    · exact hs.log
    · exact ⟨hr.nfork, hr.execs, hr.skips, fun hf => (hfr.mp hf).2⟩
  · obtain ⟨hfr, ⟨_, _, -, -, -, hr⟩ | ⟨hs, -⟩⟩ := own_cases _ _ _ h
    · exact ⟨hr.nfork, hr.execs, hr.skips, hfr.mp⟩
    · exact hs.log

/-- `fork` adds the command to the log and, when it succeeds, its child to the table. -/
theorem fork_cases (env : Env) (cmd : Cmd) (w : World) {pid : ℤ} {fate : Option Fate} {w' : World}
    (h : w.fork env cmd = ((pid, fate), w')) :
    w'.nfork = w.nfork + 1 ∧ execs w'.log = (cmd, fate) :: execs w.log ∧
    skips w'.log = skips w.log ∧ (Fair w'.log ↔ Fair w.log) ∧ fate = env.fork w.nfork cmd w.fs ∧
    ((fate = none ∧ pid = -1 ∧ w'.children = w.children) ∨
      ∃ f, fate = some f ∧ pid = (w.nfork + 1 : ℕ) ∧
        w'.children = w.children ++ [(w.nfork + 1, cmd, f)]) := by
  unfold fork at h
  cases hf : env.fork w.nfork cmd w.fs with
  | none =>
    simp only [hf, Prod.mk.injEq] at h
    obtain ⟨⟨rfl, rfl⟩, rfl⟩ := h
    exact ⟨rfl, rfl, rfl, Iff.rfl, rfl, Or.inl ⟨rfl, rfl, rfl⟩⟩
  | some f =>
    simp only [hf, Prod.mk.injEq] at h
    obtain ⟨⟨rfl, rfl⟩, rfl⟩ := h
    refine ⟨rfl, rfl, rfl, Iff.rfl, rfl, Or.inr ⟨f, rfl, by push_cast; rfl, ?_⟩⟩
    simp [children, Proc.core]

/-! ### Pids -/

variable {w w' : World}

/-- A pid belongs to one child. -/
theorem PidsOk.unique (h : w.PidsOk) {p q : Proc} (hp : p ∈ w.procs) (hq : q ∈ w.procs)
    (heq : p.pid = q.pid) : p = q := by
  have hn : (w.procs.map Proc.pid).Nodup := by
    have := h.nodup
    rwa [children, List.map_map] at this
  exact List.inj_on_of_nodup_map hn hp hq heq

theorem PidsOk.same (h : w.PidsOk) (hs : w.Same w') : w'.PidsOk :=
  ⟨by rw [hs.children]; exact h.nodup, by rw [hs.children, hs.nfork]; exact h.bound⟩

theorem PidsOk.fork (h : w.PidsOk) (env : Env) (cmd : Cmd) : (w.fork env cmd).2.PidsOk := by
  rcases hf : w.fork env cmd with ⟨⟨pid, fate⟩, v⟩
  obtain ⟨hn, -, -, -, -, ⟨-, -, hch⟩ | ⟨f, -, -, hch⟩⟩ := fork_cases env cmd w hf
  all_goals change v.PidsOk
  · refine ⟨by rw [hch]; exact h.nodup, fun x hx => ?_⟩
    rw [hch] at hx; have := h.bound x hx; omega
  · refine ⟨?_, fun x hx => ?_⟩
    · rw [hch, List.map_append, List.nodup_append]
      refine ⟨h.nodup, by simp, ?_⟩
      rintro a ha b hb rfl
      obtain ⟨x, hx, rfl⟩ := List.mem_map.mp ha
      simp only [List.map_cons, List.map_nil, List.mem_singleton] at hb
      have := h.bound x hx; omega
    · rw [hch, List.mem_append, List.mem_singleton] at hx
      rcases hx with hx | rfl
      · have := h.bound x hx; omega
      · simp only; omega

theorem PidsOk.reap (h : w.PidsOk) (pr : Proc) (e : Ev) : (w.reap pr e).PidsOk := by
  refine ⟨?_, fun x hx => ?_⟩
  · rw [children_reap]; exact (List.filter_sublist.map _).nodup h.nodup
  · rw [children_reap] at hx; exact h.bound x (List.mem_filter.mp hx).1

end World

/-- What was begun is busy, also when the fork failed. -/
theorem Command.begin_active {env : Env} {cmd : Cmd} {c : Command} {w w' : World}
    (hb : Command.begin env cmd w = (c, w')) : c.isActive = true := by
  obtain ⟨pid, fate, hw, rfl⟩ := Command.begin_cases hb
  obtain ⟨-, -, -, -, -, ⟨-, rfl, -⟩ | ⟨f, -, rfl, -⟩⟩ := World.fork_cases env cmd w hw
  · rfl
  · simp only [Command.isActive, bne_iff_ne]; omega

end Cake
