import Cake.Children

/-! The slots of the job pool and the process table.

    `Slots w jobs` says what each slot may believe about its child: a free slot has none; a slot
    whose fork failed holds pid -1; any other holds the pid of a child that is in the table with the
    fate recorded at the fork, or that was reaped by a `waitpid(-1)` and will not count as a success.
    No two slots hold the same child. `waitpid_slot` is the only place where the four ways a wait
    can come back are told apart. -/

namespace Cake

/-- What the code sees of a fate: exit code 0. A failed fork has none. -/
def okFate : Option Fate → Bool
  | none => false
  | some f => f.ok

inductive SlotOk (w : World) (j : Job) : Prop
  | free (hp : j.cmd.pid = 0)
  | unforked (hp : j.cmd.pid = -1) (hf : j.cmd.fate = none)
  | child (k : ℕ) (f : Fate) (hp : j.cmd.pid = k) (hk : 0 < k ∧ k ≤ w.nfork)
      (hf : j.cmd.fate = some f)
      (hc : (∃ c, (k, c, f) ∈ w.children) ∨ ((∀ x ∈ w.children, x.1 ≠ k) ∧ f.ok = false))

structure Slots (w : World) (jobs : List Job) : Prop where
  pids : w.PidsOk
  each : ∀ j ∈ jobs, SlotOk w j
  apart : jobs.Pairwise (fun i j => 0 < i.cmd.pid → i.cmd.pid ≠ j.cmd.pid)

/-- In a well-formed table the pid determines the fate. -/
theorem World.PidsOk.fate_eq {w : World} (h : w.PidsOk) {k : ℕ} {c d : Cmd} {f g : Fate}
    (hf : (k, c, f) ∈ w.children) (hg : (k, d, g) ∈ w.children) : f = g := by
  have := List.inj_on_of_nodup_map h.nodup hf hg rfl
  simp only [Prod.mk.injEq] at this
  exact this.2.2

theorem World.PidsOk.reaped {w w' : World} (h : w.PidsOk) {k : ℕ} (hr : World.Reaped k w w') :
    w'.PidsOk := by
  refine ⟨?_, fun x hx => ?_⟩
  · rw [hr.children]; exact (List.filter_sublist.map _).nodup h.nodup
  · rw [hr.children] at hx; rw [hr.nfork]; exact h.bound x (List.mem_filter.mp hx).1

namespace Slots

variable {w w' : World} {jobs pre js : List Job} {j : Job}

theorem sub (h : Slots w jobs) {jobs' : List Job} (hsub : jobs'.Sublist jobs) : Slots w jobs' :=
  ⟨h.pids, fun j hj => h.each j (hsub.subset hj), h.apart.sublist hsub⟩

theorem drop (h : Slots w (pre ++ j :: js)) : Slots w (pre ++ js) :=
  h.sub ((List.sublist_cons_self j js).append_left pre)

theorem here (h : Slots w (pre ++ j :: js)) : SlotOk w j := h.each j (by simp)

/-- A slot holding a child is the only one with its pid. -/
theorem alone (h : Slots w (pre ++ j :: js)) (hp : 0 < j.cmd.pid) :
    ∀ i ∈ pre ++ js, i.cmd.pid ≠ j.cmd.pid := by
  have hsymm : ∀ a b : Job, (0 < a.cmd.pid → a.cmd.pid ≠ b.cmd.pid) →
      (0 < b.cmd.pid → b.cmd.pid ≠ a.cmd.pid) := fun a b hab hb he => hab (he ▸ hb) he.symm
  have := (List.pairwise_middle (fun {a b} => hsymm a b)).mp h.apart
  rw [List.pairwise_cons] at this
  exact fun i hi => (this.1 i hi hp).symm

theorem insert (h : Slots w (pre ++ js)) (hj : SlotOk w j)
    (ha : 0 < j.cmd.pid → ∀ i ∈ pre ++ js, i.cmd.pid ≠ j.cmd.pid) : Slots w (pre ++ j :: js) := by
  have hsymm : ∀ a b : Job, (0 < a.cmd.pid → a.cmd.pid ≠ b.cmd.pid) →
      (0 < b.cmd.pid → b.cmd.pid ≠ a.cmd.pid) := fun a b hab hb he => hab (he ▸ hb) he.symm
  refine ⟨h.pids, fun i hi => ?_, ?_⟩
  · have : i ∈ j :: (pre ++ js) := List.perm_middle.mem_iff.mp hi
    rcases List.mem_cons.mp this with rfl | hi
    · exact hj
    · exact h.each i hi
  · rw [List.pairwise_middle (fun {a b} => hsymm a b), List.pairwise_cons]
    exact ⟨fun i hi hp => (ha hp i hi).symm, h.apart⟩

theorem insertFree (h : Slots w (pre ++ js)) (hp : j.cmd.pid = 0) : Slots w (pre ++ j :: js) :=
  h.insert (.free hp) (fun h0 => by omega)

/-- Only the table and the fork counter matter. -/
theorem table (h : Slots w jobs) (hc : w'.children = w.children) (hn : w'.nfork = w.nfork) :
    Slots w' jobs := by
  refine ⟨⟨by rw [hc]; exact h.pids.nodup, by rw [hc, hn]; exact h.pids.bound⟩, fun j hj => ?_,
    h.apart⟩
  cases h.each j hj with
  | free hp => exact .free hp
  | unforked hp hf => exact .unforked hp hf
  | child k f hp hk hf hch => exact .child k f hp (by rw [hn]; exact hk) hf (by rw [hc]; exact hch)

theorem same (h : Slots w jobs) (hs : w.Same w') : Slots w' jobs := h.table hs.children hs.nfork

/-- A child leaves the table: no slot holds it, or it will not count as a success. -/
theorem reaped (h : Slots w jobs) {k : ℕ} {c : Cmd} {f : Fate} (hr : World.Reaped k w w')
    (hm : (k, c, f) ∈ w.children) (hk : f.ok = false ∨ ∀ j ∈ jobs, j.cmd.pid ≠ k) :
    Slots w' jobs := by
  refine ⟨h.pids.reaped hr, fun j hj => ?_, h.apart⟩
  cases h.each j hj with
  | free hp => exact .free hp
  | unforked hp hf => exact .unforked hp hf
  | child i g hp hi hf hc =>
    refine .child i g hp (by rw [hr.nfork]; exact hi) hf ?_
    rw [hr.children]
    by_cases hik : i = k
    · subst hik
      have hok : f.ok = false := hk.resolve_right fun hno => hno j hj hp
      refine Or.inr ⟨fun x hx => by simpa using (List.mem_filter.mp hx).2, ?_⟩
      rcases hc with ⟨d, hd⟩ | ⟨hno, -⟩
      · rwa [h.pids.fate_eq hd hm]
      · exact absurd rfl (hno _ hm)
    · rcases hc with ⟨d, hd⟩ | ⟨hno, hbad⟩
      · exact Or.inl ⟨d, List.mem_filter.mpr ⟨hd, by simpa using hik⟩⟩
      · exact Or.inr ⟨fun x hx => hno x (List.mem_filter.mp hx).1, hbad⟩

/-- A fork takes nothing away from a slot. -/
theorem forked (h : Slots w jobs) {env : Env} {cmd : Cmd} {pid : ℤ} {fate : Option Fate}
    (hf : w.fork env cmd = ((pid, fate), w')) : Slots w' jobs := by
  have hpids := h.pids.fork env cmd
  rw [hf] at hpids
  obtain ⟨hn, -, -, -, -, hcase⟩ := World.fork_cases env cmd w hf
  refine ⟨hpids, fun j hj => ?_, h.apart⟩
  cases h.each j hj with
  | free hp => exact .free hp
  | unforked hp hf => exact .unforked hp hf
  | child k g hp hk hf hc =>
    refine .child k g hp (by omega) hf ?_
    rcases hcase with ⟨-, -, hch⟩ | ⟨f, -, -, hch⟩
    · rwa [hch]
    · rcases hc with ⟨d, hd⟩ | ⟨hno, hbad⟩
      · exact Or.inl ⟨d, hch ▸ List.mem_append_left _ hd⟩
      · refine Or.inr ⟨fun x hx => ?_, hbad⟩
        rw [hch, List.mem_append, List.mem_singleton] at hx
        rcases hx with hx | rfl
        · exact hno x hx
        · simp only; omega

/-- A command is begun in a slot that was taken out of the list. -/
theorem begin (h : Slots w (pre ++ js)) {env : Env} {cmd : Cmd} {c : Command}
    (hb : Command.begin env cmd w = (c, w')) :
    Slots w' (pre ++ ⟨c, cmd.out⟩ :: js) ∧ c.isActive = true ∧
      execs w'.log = (cmd, c.fate) :: execs w.log ∧ skips w'.log = skips w.log ∧
      (Fair w'.log ↔ Fair w.log) := by
  have hact := Command.begin_active hb
  obtain ⟨pid, fate, hf, rfl⟩ := Command.begin_cases hb
  obtain ⟨hn, he, hs, hfair, -, hcase⟩ := World.fork_cases env cmd w hf
  refine ⟨?_, hact, he, hs, hfair⟩
  have hw : Slots w' (pre ++ js) := h.forked hf
  rcases hcase with ⟨rfl, rfl, -⟩ | ⟨f, rfl, rfl, hch⟩
  · exact hw.insert (.unforked rfl rfl) (fun h0 => by simp at h0)
  · refine hw.insert (.child (w.nfork + 1) f rfl ⟨by omega, by omega⟩ rfl
      (Or.inl ⟨cmd, by rw [hch]; simp⟩)) (fun _ i hi => ?_)
    cases h.each i hi with
    | free hp => rw [hp]; simp only; omega
    | unforked hp _ => rw [hp]; simp only; omega
    | child k g hp hk _ _ => rw [hp]; simp only; omega

/-- A command is begun beside the slots. -/
theorem beginFirst (h : Slots w jobs) {env : Env} {cmd : Cmd} {c : Command}
    (hb : Command.begin env cmd w = (c, w')) :
    Slots w' ([] ++ ⟨c, cmd.out⟩ :: jobs) ∧ c.isActive = true ∧
      execs w'.log = (cmd, c.fate) :: execs w.log ∧ skips w'.log = skips w.log ∧
      (Fair w'.log ↔ Fair w.log) := by
  have h' : Slots w ([] ++ jobs) := h
  exact h'.begin hb

end Slots

/-- Waiting for the child of a busy slot. Either its own status comes back and the child is gone, or
    the answer is another one; a blocking wait gives another answer only to a job that is not a
    success. -/
theorem waitpid_slot {env : Env} {block : Bool} {w w' : World} {pre js : List Job} {j : Job}
    {r : ℤ} {status : ℕ} (h : Slots w (pre ++ j :: js)) (hact : j.cmd.isActive = true)
    (hw : w.waitpid env block j.cmd.pid = ((r, status), w')) (hfair : Fair w.log)
    (htrust : Fair w'.log ∨ j.cmd.fate ≠ none) :
    Fair w'.log ∧
    ((r = j.cmd.pid ∧ (∃ f, j.cmd.fate = some f ∧ status = f.status.word) ∧ Slots w' (pre ++ js)) ∨
      (r ≠ j.cmd.pid ∧ Slots w' (pre ++ j :: js) ∧ (block = true → okFate j.cmd.fate = false))) := by
  unfold World.waitpid at hw
  have hy : w.Same (w.yield env) := World.same_yield env w
  have h' : Slots (w.yield env) (pre ++ j :: js) := h.same hy
  have hfair' := hy.fair.mpr hfair
  generalize w.yield env = v at hw hy h' hfair'
  dsimp only at hw
  cases h'.here with
  | free hp => simp [Command.isActive, hp] at hact
  | unforked hp hf =>
    have hfw := htrust.resolve_right (not_not.mpr hf)
    rw [if_pos hp] at hw
    rcases World.any_cases _ _ _ hw with ⟨-, rfl⟩ | ⟨rfl, rfl, hs⟩ | ⟨k, c, f, hm, rfl, hr, hfr⟩
    · exact absurd hfw (by simp [World.say, Fair])
    · exact ⟨hfw, Or.inr ⟨by omega, h'.same hs, by simp⟩⟩
    · obtain ⟨hbad, -⟩ := hfr.mp hfw
      exact ⟨hfw, Or.inr ⟨by omega, h'.reaped hr hm (Or.inl hbad), fun _ => by rw [hf]; rfl⟩⟩
  | child k f hp hk hf hc =>
    rw [if_neg (by omega), hp, Int.toNat_natCast] at hw
    obtain ⟨hfr, ⟨c, g, hm, rfl, rfl, hr⟩ | ⟨hs, hno⟩⟩ := World.own_cases _ _ _ hw
    · have hfg : f = g := by
        rcases hc with ⟨d, hd⟩ | ⟨hno, -⟩
        · exact h'.pids.fate_eq hd hm
        · exact absurd rfl (hno _ hm)
      subst hfg
      refine ⟨hfr.mpr hfair', Or.inl ⟨hp.symm, ⟨f, hf, rfl⟩, ?_⟩⟩
      exact h'.drop.reaped hr hm (Or.inr fun i hi => hp ▸ h'.alone (by omega) i hi)
    · refine ⟨hfr.mpr hfair', Or.inr ⟨?_, h'.same hs, fun hb => ?_⟩⟩
      · rcases hno with ⟨rfl, -⟩ | ⟨-, rfl⟩ <;> omega
      · rcases hno with ⟨-, hno⟩ | ⟨hb', -⟩
        · rcases hc with ⟨d, hd⟩ | ⟨-, hbad⟩
          · exact absurd rfl (hno _ hd)
          · rw [hf]; exact hbad
        · rw [hb] at hb'; cases hb'

end Cake
