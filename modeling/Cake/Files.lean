import Cake.Products

/-! What a step does to files, children and log.

    Where nobody turns a clock back, a file that has changed carries the present second as its mtime
    and the log says who wrote it. A child that is there was there before, has just exited or has just
    been started. These are the only facts about steps that the modules on edits and stamps use. -/

namespace Cake

variable {env : Env} {fits : Str → Str → Prop} {rs : List Run} {w w' : World}

/-- Whoever changes a file stamps it with the current time. -/
def Act.Stamps : Act → Prop
  | .restore _ _ => False
  | _ => True

/-- Files change only by being written, now. -/
structure Stamped (env : Env) (rs : List Run) : Prop where
  env : ∀ k, ∀ a ∈ env.sched k, a.Stamps
  before : ∀ r ∈ rs, ∀ a ∈ r.before, a.Stamps

/-- The log says that the file was written at time `u`. -/
def Written (t : Str) (u : ℕ) (log : List Ev) : Prop :=
  .edit t u ∈ log ∨ ∃ pr v, .wrote pr v ∈ log ∧ v.clock = u ∧ pr.writes t = true

theorem Written.mono {t : Str} {u : ℕ} {log : List Ev} (new : List Ev) (h : Written t u log) :
    Written t u (new ++ log) := by
  rcases h with h | ⟨pr, v, h, hv, hw⟩
  · exact Or.inl (List.mem_append_right _ h)
  · exact Or.inr ⟨pr, v, List.mem_append_right _ h, hv, hw⟩

/-- A file is the one that was there, or was written just now. -/
def Kept (w w' : World) : Prop :=
  ∀ t f, w'.fs t = some f → w.fs t = some f ∨ (f.mtime = sec w'.clock ∧ Written t w'.clock w'.log)

theorem Kept.same (h : w'.fs = w.fs) : Kept w w' := fun t f hf => Or.inl (by rw [← h]; exact hf)

theorem Proc.file_mtime (pr : Proc) (o : Str) (now : ℕ) : (pr.file o now).mtime = sec now := by
  rw [Proc.file]; split <;> rfl

theorem World.kept_land (pr : Proc) (w : World) : Kept w (w.land pr) := by
  intro t f hf
  rcases World.land_some hf with ⟨ho, hw, rfl⟩ | ⟨hf, -⟩
  · rcases w.land_log pr with ⟨-, hlog⟩ | ⟨hne, -⟩
    · have hmem : .wrote pr (w.land pr).snap ∈ (w.land pr).log := by
        rw [hlog]; exact List.mem_cons_self ..
      exact Or.inr ⟨by rw [Proc.file_mtime, World.clock_land], Or.inr ⟨pr, _, hmem, rfl, hw⟩⟩
    · exact absurd ho hne
  · exact Or.inl hf

theorem World.kept_finish (pid : ℕ) (w : World) : Kept w (w.finish pid) := by
  rcases w.finish_cases pid with heq | ⟨pr, -, -, -, heq⟩
  · rw [heq]; exact .same rfl
  · rw [heq]; exact World.kept_land pr { w with procs := w.marked pid }

theorem World.kept_act {a : Act} (ha : a.Stamps) (w : World) : Kept w (w.act a) := by
  cases a with
  | exit pid => exact w.kept_finish pid
  | tick d => exact .same rfl
  | relist g => exact .same rfl
  | restore p f => exact ha.elim
  | edit p data =>
    intro t f hf
    by_cases ht : t = p
    · subst ht
      have hf' : some (File.mk (sec w.clock) data) = some f := by simpa [World.act, FS.set] using hf
      obtain rfl := Option.some.inj hf'
      exact Or.inr ⟨rfl, Or.inl (List.mem_cons_self ..)⟩
    · exact Or.inl (by simpa [World.act, FS.set, ht] using hf)

theorem Move.files {R : Rules} (hs : ∀ k, ∀ a ∈ env.sched k, a.Stamps) (hm : Move env R w w') :
    Kept w w' := by
  cases hm with
  | act ha => exact World.kept_act (hs _ _ ha) w
  | finish pid => exact w.kept_finish pid
  | reap _ _ _ => exact .same rfl
  | @start cmd _ =>
    refine .same ?_
    rw [World.fork]
    cases env.fork w.nfork cmd w.fs <;> rfl
  | aside _ _ _ => exact .same rfl
  | say _ => exact .same rfl

/-! ### Steps of a history -/

theorem Step.files (hs : Stamped env rs) (h : Step env fits rs w w') : Kept w w' := by
  cases h with
  | move _ _ hm => exact hm.files hs.env
  | before hr ha => exact World.kept_act (hs.before _ hr _ ha) w
  | start _ => exact .same rfl
  | leave i ret => exact .same rfl

/-- The clock does not go back and nothing is forgotten. -/
theorem Step.grows (h : Step env fits rs w w') : w.clock ≤ w'.clock ∧ ∃ new, w'.log = new ++ w.log := by
  cases h with
  | move _ _ hm => exact ⟨hm.later.clock, hm.later.log⟩
  | before _ _ => exact ⟨(w.later_act _).clock, (w.later_act _).log⟩
  | start _ => exact ⟨le_rfl, [_], rfl⟩
  | leave i ret => exact ⟨le_rfl, [_], rfl⟩

theorem Step.pids (h : Step env fits rs w w') (hp : w.PidsOk) : w'.PidsOk := by
  cases h with
  | move _ _ hm => exact hp.move hm
  | before _ _ => exact hp.act _
  | start _ => exact ⟨hp.nodup, hp.bound⟩
  | leave i ret => exact ⟨hp.nodup, hp.bound⟩

theorem Step.child (h : Step env fits rs w w') (hp : w.PidsOk) {q : Proc} (hq : q ∈ w'.procs) :
    q ∈ w.procs ∨ Exited w w' q ∨
      ∃ cmd f, env.fork w.nfork cmd w.fs = some f ∧ q = w.spawn cmd f ∧ w'.fs = w.fs := by
  cases h with
  | move _ _ hm =>
    rcases hm.child hp hq with hq | hq | ⟨cmd, f, -, hf, hq, hfs, -⟩
    · exact Or.inl hq
    · exact Or.inr (Or.inl hq)
    · exact Or.inr (Or.inr ⟨cmd, f, hf, hq, hfs⟩)
  | before _ _ => exact (World.act_child hp hq).imp_right Or.inl
  | start _ => exact Or.inl hq
  | leave i ret => exact Or.inl hq

theorem World.act_wrote {w : World} {a : Act} {pr : Proc} {v : Snap}
    (h : .wrote pr v ∈ (w.act a).log) : .wrote pr v ∈ w.log ∨ pr ∈ w.procs := by
  cases a with
  | exit pid =>
    rcases w.log_finish pid with heq | ⟨q, hq, -, -, heq⟩
    · rw [World.act, heq] at h; exact Or.inl h
    · rw [World.act, heq] at h
      rcases List.mem_cons.mp h with heq | h
      · cases heq; exact Or.inr hq
      · exact Or.inl h
  | edit p data =>
    rcases List.mem_cons.mp h with heq | h
    · cases heq
    · exact Or.inl h
  | tick d => exact Or.inl h
  | restore p f => exact Or.inl h
  | relist g => exact Or.inl h

/-- Only a child of the table writes. -/
theorem Step.wrote (h : Step env fits rs w w') {pr : Proc} {v : Snap} (hv : .wrote pr v ∈ w'.log) :
    .wrote pr v ∈ w.log ∨ pr ∈ w.procs := by
  cases h with
  | move _ _ hm =>
    rcases hm.log_cases with heq | ⟨e, heq, he⟩
    · rw [heq] at hv; exact Or.inl hv
    · rw [heq] at hv
      rcases List.mem_cons.mp hv with rfl | hv
      · exact Or.inr he.1
      · exact Or.inl hv
  | before _ _ => exact World.act_wrote hv
  | start _ =>
    rcases List.mem_cons.mp hv with heq | hv
    · cases heq
    · exact Or.inl hv
  | leave i ret =>
    rcases List.mem_cons.mp hv with heq | hv
    · cases heq
    · exact Or.inl hv

end Cake
