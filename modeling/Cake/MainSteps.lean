import Mathlib.Data.List.TakeWhile
import Cake.BuildStep
import Cake.Project

/-! The build steps in the loop of `main`.

    The loop asks each project's pre step, compiles when the answer is true, and calls the post step
    when the compile returned true. A step without an entry leaves the project's table on the Lua
    stack, which nobody asks for more room. A pre callback that raises an error answers true.

        pre absent ──────────▶ true    one slot more
        pre returns false ───▶ false
        pre returns, else ───▶ true
        pre raises ──────────▶ true                    then compile, then post -/

namespace Cake

open Lua (Val Table Stack Entry Called tostring)

variable {ν π : Type} [DecidableEq ν] [DecidableEq π]

/-! ### A sequence of steps -/

/-- One call of `do_build_step`: the project, the step and what its callback does. -/
structure StepCall (ν π : Type) where
  side : LuaSide ν π
  step : CStr
  call : Val ν π → Val ν π → Called ν π

/-- The steps one after the other, on one stack. -/
def runSteps (H : Host ν) (L fuel : ℕ) : List (StepCall ν π) → Stack ν π → Ending (Stack ν π)
  | [], s => .ended s
  | c :: cs, s =>
    match doBuildStep H c.call L c.side c.step fuel s with
    | .running => .running
    | .raised => .raised
    | .undefined => .undefined
    | .ended out => runSteps H L fuel cs out.stack

/-- The step finds an entry, there is room for the table, the key and the value, and what is said of the
    call is defined. -/
def StepCall.Level (H : Host ν) (L : ℕ) (s : Stack ν π) (c : StepCall ν π) : Prop :=
  c.side.m_L = some L → ∃ e, c.side.table.entries.find? (fun e => reads c.step e.1) = some e ∧
    H.reports (c.call e.2 c.side.self) = true ∧ s.length + 3 ≤ H.room

variable {H : Host ν} {L : ℕ}

theorem doBuildStep_mono {call : Val ν π → Val ν π → Called ν π} {p : LuaSide ν π} {step : CStr}
    {s : Stack ν π} {out : StepResult ν π} {fuel fuel' : ℕ} (hle : fuel ≤ fuel')
    (h : doBuildStep H call L p step fuel s = .ended out) :
    doBuildStep H call L p step fuel' s = .ended out := by
  by_cases hL : p.m_L = some L
  · obtain ⟨hfits, -⟩ := (doBuildStep_ended H call hL s).mp ⟨fuel, h⟩
    cases hsearch : traverse H.form p.table step fuel (.nil :: p.self :: s) with
    | running => simp [doBuildStep, hL, hfits, hsearch] at h
    | raised => simp [doBuildStep, hL, hfits, hsearch] at h
    | undefined => simp [doBuildStep, hL, hfits, hsearch] at h
    | ended s' =>
      obtain ⟨r', _, rfl⟩ := leads_of_traverse _ Table.rest_nil hsearch
      rw [doBuildStep_search hL hfits hsearch] at h
      rw [doBuildStep_search hL hfits (traverse_mono hle hsearch), h]
  · rw [doBuildStep_foreign hL] at h ⊢
    exact h

omit [DecidableEq ν] [DecidableEq π] in
theorem not_number {entries : List (Entry ν π)} (h : ∀ e ∈ entries, ∃ k, e.1 = .string k) :
    ∀ e ∈ entries, ∀ n, e.1 ≠ .number n := by
  intro e he n hn
  obtain ⟨k, hk⟩ := h e he
  rw [hk] at hn
  cases hn

/-- With string keys the search comes to the first key that reads as the step. -/
theorem leads_strings (form : ν → Str) {t : Table ν π} (step : CStr)
    (h : ∀ e ∈ t.entries, ∃ k, e.1 = .string k) :
    Leads form t step t.entries (t.entries.find? fun e => reads step e.1) := by
  have hplain := not_number h
  have hreads : ∀ e ∈ t.entries, reads step (tostring form e.1) = reads step e.1 := fun e he => by
    rw [tostring_plain (hplain e he)]
  have hleads : Leads form t step t.entries (t.entries.find? fun e => reads step (tostring form e.1)) :=
    leads_numbers fun e he => hplain e (List.takeWhile_subset _ he)
  rwa [← List.head?_filter, List.filter_congr hreads, List.head?_filter] at hleads

/-- A step that ends is level, or leaves the table behind. -/
theorem doBuildStep_height {c : StepCall ν π} (hkeys : ∀ e ∈ c.side.table.entries, ∃ k, e.1 = .string k)
    {s : Stack ν π} {fuel : ℕ} {out : StepResult ν π}
    (h : doBuildStep H c.call L c.side c.step fuel s = .ended out) :
    out.stack = s ∧ c.Level H L s ∨ out.stack.length = s.length + 1 := by
  by_cases hL : c.side.m_L = some L
  · obtain ⟨hfits, r, hleads, hall, rfl⟩ := (doBuildStep_ended H c.call hL s).mp ⟨fuel, h⟩
    obtain rfl := (leads_strings H.form c.step hkeys).unique hleads
    cases hfind : c.side.table.entries.find? fun e => reads c.step e.1 with
    | none => exact .inr rfl
    | some e =>
      rw [hfind, Option.all_some] at hall
      have hentries : c.side.table.entries.isEmpty = false := by
        rw [List.isEmpty_eq_false_iff]
        exact List.ne_nil_of_mem (List.mem_of_find?_eq_some hfind)
      rw [Host.fits, hentries] at hfits
      exact .inl ⟨rfl, fun _ => ⟨e, hfind, hall, of_decide_eq_true hfits⟩⟩
  · rw [doBuildStep_foreign hL, Ending.ended.injEq] at h
    subst h
    exact .inl ⟨rfl, fun h => absurd h hL⟩

/-- A level step ends with the stack as it was. -/
theorem StepCall.Level.ends {c : StepCall ν π} {s : Stack ν π} (h : c.Level H L s)
    (hkeys : ∀ e ∈ c.side.table.entries, ∃ k, e.1 = .string k) :
    ∃ fuel out, doBuildStep H c.call L c.side c.step fuel s = .ended out ∧ out.stack = s := by
  by_cases hL : c.side.m_L = some L
  · obtain ⟨e, hfind, hreports, hroom⟩ := h hL
    have hfits : H.fits c.side s = true := by
      rw [Host.fits, decide_eq_true_iff]
      split <;> omega
    have hleads := leads_strings H.form c.step hkeys
    rw [hfind] at hleads
    obtain ⟨fuel, hfuel⟩ := (doBuildStep_ended H c.call hL s).mpr ⟨hfits, some e, hleads, hreports, rfl⟩
    exact ⟨fuel, _, hfuel, rfl⟩
  · exact ⟨0, _, doBuildStep_foreign hL 0 s, rfl⟩

theorem runSteps_mono {cs : List (StepCall ν π)} {s s' : Stack ν π} {fuel fuel' : ℕ}
    (hle : fuel ≤ fuel') (h : runSteps H L fuel cs s = .ended s') :
    runSteps H L fuel' cs s = .ended s' := by
  induction cs generalizing s with
  | nil => exact h
  | cons c cs ih =>
    rw [runSteps] at h ⊢
    split at h
    · cases h
    · cases h
    · cases h
    · rename_i out hout
      rw [doBuildStep_mono hle hout]
      exact ih h

/-- Steps only ever leave something behind. -/
theorem runSteps_le {cs : List (StepCall ν π)}
    (h : ∀ c ∈ cs, ∀ e ∈ c.side.table.entries, ∃ k, e.1 = .string k) {s s' : Stack ν π} {fuel : ℕ}
    (hrun : runSteps H L fuel cs s = .ended s') : s.length ≤ s'.length := by
  induction cs generalizing s with
  | nil =>
    rw [runSteps, Ending.ended.injEq] at hrun
    exact hrun ▸ le_rfl
  | cons c cs ih =>
    obtain ⟨hc, hcs⟩ := List.forall_mem_cons.mp h
    rw [runSteps] at hrun
    split at hrun
    · cases hrun
    · cases hrun
    · cases hrun
    · rename_i out hout
      have hle := ih hcs hrun
      rcases doBuildStep_height hc hout with ⟨heq, -⟩ | hlen
      · rwa [heq] at hle
      · omega

/-- Over any number of steps on tables with string keys the stack keeps its height exactly when every
    step that belongs to this Lua state finds an entry, has room for it, and an error of its callback can
    be printed. -/
theorem runSteps_height (H : Host ν) (L : ℕ) {cs : List (StepCall ν π)}
    (h : ∀ c ∈ cs, ∀ e ∈ c.side.table.entries, ∃ k, e.1 = .string k) (s : Stack ν π) :
    (∃ fuel s', runSteps H L fuel cs s = .ended s' ∧ s'.length = s.length) ↔ ∀ c ∈ cs, c.Level H L s := by
  induction cs with
  | nil => exact iff_of_true ⟨0, s, rfl, rfl⟩ nofun
  | cons c cs ih =>
    obtain ⟨hc, hcs⟩ := List.forall_mem_cons.mp h
    rw [List.forall_mem_cons]
    constructor
    · rintro ⟨fuel, s', hrun, hlen⟩
      rw [runSteps] at hrun
      split at hrun
      · cases hrun
      · cases hrun
      · cases hrun
      · rename_i out hout
        rcases doBuildStep_height hc hout with ⟨heq, hlevel⟩ | hhigher
        · rw [heq] at hrun
          exact ⟨hlevel, (ih hcs).mp ⟨fuel, s', hrun, hlen⟩⟩
        · -- what is left behind stays
          have hle := runSteps_le hcs hrun
          omega
    · rintro ⟨hlevel, hrest⟩
      obtain ⟨fuel, out, hout, heq⟩ := hlevel.ends hc
      obtain ⟨fuel', s', hrun, hlen⟩ := (ih hcs).mpr hrest
      refine ⟨max fuel fuel', s', ?_, hlen⟩
      rw [runSteps, doBuildStep_mono (le_max_left ..) hout]
      dsimp only
      rw [heq]
      exact runSteps_mono (le_max_right ..) hrun

/-- A table with a pre step. -/
def preTable : Table ℕ ℕ where
  entries := [(.string "add_files".toList, .function 1), (.string "pre".toList, .function 0)]
  keys := by simp
  stored := by simp

theorem preTable_keys : ∀ e ∈ preTable.entries, ∃ k, e.1 = .string k ∧ '\x00' ∉ k := by
  intro e he
  rcases List.mem_pair.mp he with rfl | rfl
  · exact ⟨_, rfl, by decide⟩
  · exact ⟨_, rfl, by decide⟩

/-- A pre step that raises an error with a text that can be printed. -/
theorem runSteps_height_pre : ∃ fuel s', runSteps minHost 0 fuel
      [⟨⟨some 0, .table 0, preTable⟩, preStep, fun _ _ => .raised (.string "100%%".toList)⟩] [] = .ended s' ∧
    s'.length = ([] : Stack ℕ ℕ).length := by
  refine (runSteps_height minHost 0 (fun c hc e he => ?_) []).mpr fun c hc _ => ?_
  · rw [List.mem_singleton.mp hc] at he
    obtain ⟨k, hk, -⟩ := preTable_keys e he
    exact ⟨k, hk⟩
  · rw [List.mem_singleton.mp hc]
    exact ⟨_, rfl, by decide, by decide⟩

/-- A project table as `library` makes it, without steps. -/
def bare : LuaSide ℕ ℕ where
  m_L := some 0
  self := .table 0
  table :=
    { entries := [(.string "add_files".toList, .function 1), (.string "__project".toList, .lightuserdata 0)]
      keys := by simp
      stored := by simp }

/-- The project's table stays on the stack, for each of its two steps. -/
theorem bare_leaks :
    doBuildStep minHost returnsTrue 0 bare preStep 3 [] = .ended ⟨true, [.table 0], []⟩ ∧
      runSteps minHost 0 3 [⟨bare, preStep, returnsTrue⟩, ⟨bare, postStep, returnsTrue⟩] [] =
        .ended [.table 0, .table 0] :=
  ⟨rfl, rfl⟩

/-! ### The loop of `main` -/

/-- The Lua side of a project in one run: its table before and after the compile, and what its
    callbacks do. -/
structure Stepped (ν π : Type) where
  m_L : Option ℕ
  self : Val ν π
  preTable : Table ν π
  postTable : Table ν π
  pre : Val ν π → Val ν π → Called ν π
  post : Val ν π → Val ν π → Called ν π

namespace Stepped

def preCall (p : Stepped ν π) : StepCall ν π := ⟨⟨p.m_L, p.self, p.preTable⟩, preStep, p.pre⟩

def postCall (p : Stepped ν π) : StepCall ν π := ⟨⟨p.m_L, p.self, p.postTable⟩, postStep, p.post⟩

end Stepped

/-- What happens to project `i`: a callback is called, or `compile()` has returned. -/
inductive StepEv where
  | called (i : ℕ) (step : CStr)
  | compiled (i : ℕ) (ret : Bool)
  deriving DecidableEq

def StepEv.of (i : ℕ) : StepEv → Bool
  | .called j _ | .compiled j _ => j == i

/-- The state of the loop; `σ` is the world the compiles work on. -/
structure MainState (σ ν π : Type) where
  world : σ
  stack : Stack ν π
  log : List StepEv

/-- `pre_build_step` or `post_build_step`, with its answer. -/
def mainCall {σ : Type} (H : Host ν) (L fuel i : ℕ) (c : StepCall ν π) (m : MainState σ ν π) :
    Ending (Bool × MainState σ ν π) :=
  match doBuildStep H c.call L c.side c.step fuel m.stack with
  | .running => .running
  | .raised => .raised
  | .undefined => .undefined
  | .ended out => .ended (out.answer,
      { m with stack := out.stack, log := m.log ++ out.calls.map fun _ => .called i c.step })

/-- One round of the loop; an error of a step ends the process. -/
def mainRound {σ : Type} (H : Host ν) (L : ℕ) (compile : ℕ → σ → Bool × σ) (fuel : ℕ)
    (p : Stepped ν π) (i : ℕ) (m : MainState σ ν π) : Ending (MainState σ ν π) :=
  match mainCall H L fuel i p.preCall m with
  | .running => .running
  | .raised => .raised
  | .undefined => .undefined
  | .ended (false, m) => .ended m
  | .ended (true, m) =>
    match compile i m.world with
    | (ret, world) =>
      let m := { m with world := world, log := m.log ++ [.compiled i ret] }
      if ret then
        match mainCall H L fuel i p.postCall m with
        | .running => .running
        | .raised => .raised
        | .undefined => .undefined
        | .ended (_, m) => .ended m
      else .ended m

/-- The loop over `g_projects`. -/
def mainProjects {σ : Type} (H : Host ν) (L : ℕ) (compile : ℕ → σ → Bool × σ) (fuel : ℕ) :
    List (Stepped ν π × ℕ) → MainState σ ν π → Ending (MainState σ ν π)
  | [], m => .ended m
  | (p, i) :: ps, m =>
    match mainRound H L compile fuel p i m with
    | .running => .running
    | .raised => .raised
    | .undefined => .undefined
    | .ended m => mainProjects H L compile fuel ps m

/-- The search for the step meets no number key before the step's entry. -/
def StepCall.Straight (form : ν → Str) (L : ℕ) (c : StepCall ν π) : Prop :=
  c.side.m_L = some L → Cake.Straight form c.side.table c.step

/-- The callback of a step; none when it is absent. -/
def StepCall.callback (L : ℕ) (c : StepCall ν π) : Option (Val ν π) :=
  if c.side.m_L = some L then c.side.table.get (.string c.step.1) else none

/-- The answer of a step. -/
def StepCall.answer (L : ℕ) (c : StepCall ν π) : Bool :=
  if c.side.m_L = some L then
    match c.side.table.get (.string c.step.1) with
    | none => true
    | some v => answerOf (c.call v c.side.self)
  else false

def StepCall.events (L i : ℕ) (c : StepCall ν π) : List StepEv :=
  (c.callback L).toList.map fun _ => .called i c.step

/-- What happens to a project, by its own callbacks and the result of its own compile. -/
def Stepped.events (L i : ℕ) (ret : Bool) (p : Stepped ν π) : List StepEv :=
  p.preCall.events L i ++
    if p.preCall.answer L then
      .compiled i ret :: if ret then p.postCall.events L i else []
    else []

/-- An error of the callback can be printed. -/
def StepCall.Reports (H : Host ν) (L : ℕ) (c : StepCall ν π) : Prop :=
  ∀ v, c.callback L = some v → H.reports (c.call v c.side.self) = true

/-- The slots that the step leaves on the stack. -/
def StepCall.leaks (L : ℕ) (c : StepCall ν π) : ℕ :=
  if c.side.m_L = some L ∧ c.side.table.get (.string c.step.1) = none then 1 else 0

/-- The answer and the events of a step that ends, and how high the stack is then. -/
theorem mainCall_ended {σ : Type} {c : StepCall ν π} (h : c.Straight H.form L) {fuel i : ℕ}
    {m : MainState σ ν π} {out : Bool × MainState σ ν π} (hrun : mainCall H L fuel i c m = .ended out) :
    out.1 = c.answer L ∧ out.2.world = m.world ∧ out.2.log = m.log ++ c.events L i ∧
      out.2.stack.length = m.stack.length + c.leaks L := by
  rw [mainCall] at hrun
  split at hrun
  · cases hrun
  · cases hrun
  · cases hrun
  · rename_i res hres
    rw [Ending.ended.injEq] at hrun
    subst hrun
    by_cases hL : c.side.m_L = some L
    · obtain ⟨-, r, hleads, -, rfl⟩ := (doBuildStep_ended H c.call hL m.stack).mp ⟨fuel, hres⟩
      obtain ⟨r', hleads', hr⟩ := (h hL).leads
      obtain rfl := hleads'.unique hleads
      rw [StepCall.answer, StepCall.events, StepCall.callback, StepCall.leaks, if_pos hL, if_pos hL, ← hr]
      cases r with
      | none => exact ⟨rfl, rfl, rfl, by simp [stepOutcome, hL]⟩
      | some e => exact ⟨rfl, rfl, rfl, by simp [stepOutcome]⟩
    · rw [doBuildStep_foreign hL, Ending.ended.injEq] at hres
      subst hres
      rw [StepCall.answer, StepCall.events, StepCall.callback, StepCall.leaks, if_neg hL, if_neg hL,
        if_neg fun h => hL h.1]
      exact ⟨rfl, rfl, rfl, rfl⟩

/-- With room on the stack a step ends. -/
theorem mainCall_ends {σ : Type} {c : StepCall ν π} (h : c.Straight H.form L) (hreports : c.Reports H L)
    (i : ℕ) (m : MainState σ ν π) (hroom : m.stack.length + 3 ≤ H.room) :
    ∃ fuel out, mainCall H L fuel i c m = .ended out := by
  by_cases hL : c.side.m_L = some L
  · obtain ⟨r, hleads, hr⟩ := (h hL).leads
    have hfits : H.fits c.side m.stack = true := by
      rw [Host.fits, decide_eq_true_iff]
      split <;> omega
    have hall : (r.all fun e => H.reports (c.call e.2 c.side.self)) = true :=
      (all_reports hr).mpr fun v hv => hreports v (by rw [StepCall.callback, if_pos hL, hv])
    obtain ⟨fuel, hfuel⟩ := (doBuildStep_ended H c.call hL m.stack).mpr ⟨hfits, r, hleads, hall, rfl⟩
    exact ⟨fuel, _, by rw [mainCall, hfuel]⟩
  · exact ⟨0, _, by rw [mainCall, doBuildStep_foreign hL]⟩

/-! ### More fuel -/

section Fuel

variable {σ : Type} {compile : ℕ → σ → Bool × σ} {fuel fuel' i : ℕ} {m m' : MainState σ ν π}

theorem mainCall_mono {c : StepCall ν π} {r : Bool × MainState σ ν π} (hle : fuel ≤ fuel')
    (h : mainCall H L fuel i c m = .ended r) : mainCall H L fuel' i c m = .ended r := by
  rw [mainCall] at h ⊢
  split at h
  · cases h
  · cases h
  · cases h
  · rename_i out hout
    rw [doBuildStep_mono hle hout]
    exact h

theorem mainRound_mono {p : Stepped ν π} (hle : fuel ≤ fuel')
    (h : mainRound H L compile fuel p i m = .ended m') :
    mainRound H L compile fuel' p i m = .ended m' := by
  rw [mainRound] at h ⊢
  split at h
  · cases h
  · cases h
  · cases h
  · rename_i m₁ hpre
    rw [mainCall_mono hle hpre]
    exact h
  · rename_i m₁ hpre
    rw [mainCall_mono hle hpre]
    dsimp only at h ⊢
    split at h
    · rename_i hret
      rw [if_pos hret]
      split at h
      · cases h
      · cases h
      · cases h
      · rename_i b m₂ hpost
        rw [mainCall_mono hle hpost]
        exact h
    · rename_i hret
      rw [if_neg hret]
      exact h

theorem mainProjects_mono {ps : List (Stepped ν π × ℕ)} {m : MainState σ ν π} (hle : fuel ≤ fuel')
    (h : mainProjects H L compile fuel ps m = .ended m') :
    mainProjects H L compile fuel' ps m = .ended m' := by
  induction ps generalizing m with
  | nil => exact h
  | cons q ps ih =>
    obtain ⟨p, i⟩ := q
    rw [mainProjects] at h ⊢
    split at h
    · cases h
    · cases h
    · cases h
    · rename_i m₁ hround
      rw [mainRound_mono hle hround]
      exact ih h

end Fuel

/-! ### The loop and the projects' own events -/

/-- The result and the world after a project's turn. -/
def Stepped.turn {σ : Type} (L : ℕ) (compile : ℕ → σ → Bool × σ) (p : Stepped ν π) (i : ℕ) (w : σ) :
    Bool × σ :=
  if p.preCall.answer L then compile i w else (false, w)

/-- The events and the world after the loop. -/
def turns {σ : Type} (L : ℕ) (compile : ℕ → σ → Bool × σ) :
    List (Stepped ν π × ℕ) → σ → List StepEv × σ
  | [], w => ([], w)
  | (p, i) :: ps, w =>
    let (ret, w) := p.turn L compile i w
    let (log, w) := turns L compile ps w
    (p.events L i ret ++ log, w)

/-- Neither search of a project meets a number key before the step's entry. -/
def Stepped.Straight (form : ν → Str) (L : ℕ) (p : Stepped ν π) : Prop :=
  p.preCall.Straight form L ∧ p.postCall.Straight form L

/-- An error of either callback can be printed. -/
def Stepped.Reports (H : Host ν) (L : ℕ) (p : Stepped ν π) : Prop :=
  p.preCall.Reports H L ∧ p.postCall.Reports H L

/-- The slots that the two steps can leave on the stack. -/
def Stepped.leaks (L : ℕ) (p : Stepped ν π) : ℕ := p.preCall.leaks L + p.postCall.leaks L

/-- The slots that all steps of these projects can leave on the stack. -/
def leaksOf (L : ℕ) : List (Stepped ν π) → ℕ
  | [] => 0
  | p :: ps => p.leaks L + leaksOf L ps

variable {σ : Type} (compile : ℕ → σ → Bool × σ)

variable {compile} in
/-- The world and the events of a round that ends, and how high the stack can be then. -/
theorem mainRound_ended {p : Stepped ν π} (h : p.Straight H.form L) {fuel i : ℕ} {m m' : MainState σ ν π}
    (hrun : mainRound H L compile fuel p i m = .ended m') :
    m'.world = (p.turn L compile i m.world).2 ∧
      m'.log = m.log ++ p.events L i (p.turn L compile i m.world).1 ∧
      m'.stack.length ≤ m.stack.length + p.leaks L := by
  rw [mainRound] at hrun
  rw [Stepped.turn, Stepped.events, Stepped.leaks]
  split at hrun
  · cases hrun
  · cases hrun
  · cases hrun
  · rename_i m₁ hpre
    rw [Ending.ended.injEq] at hrun
    subst hrun
    obtain ⟨hans, hworld, hlog, hlen⟩ := mainCall_ended h.1 hpre
    rw [← hans, hlog]
    exact ⟨hworld, by simp, by dsimp only at hlen; omega⟩
  · rename_i m₁ hpre
    obtain ⟨hans, hworld, hlog, hlen⟩ := mainCall_ended h.1 hpre
    dsimp only at hans hworld hlog hlen hrun
    rw [← hans, ← hworld]
    rcases hc : compile i m₁.world with ⟨_ | _, w⟩
    · rw [hc, if_neg (by simp), Ending.ended.injEq] at hrun
      subst hrun
      exact ⟨by simp, by simp [hlog], by dsimp only; omega⟩
    · rw [hc, if_pos rfl] at hrun
      split at hrun
      · cases hrun
      · cases hrun
      · cases hrun
      · rename_i b m₂ hpost
        rw [Ending.ended.injEq] at hrun
        subst hrun
        obtain ⟨-, hworld', hlog', hlen'⟩ := mainCall_ended h.2 hpost
        dsimp only at hworld' hlog' hlen'
        exact ⟨by simp [hworld'], by simp [hlog, hlog'], by omega⟩

/-- With room on the stack a round ends. -/
theorem mainRound_ends {p : Stepped ν π} (h : p.Straight H.form L) (hreports : p.Reports H L) (i : ℕ)
    (m : MainState σ ν π) (hroom : m.stack.length + p.leaks L + 3 ≤ H.room) :
    ∃ fuel m', mainRound H L compile fuel p i m = .ended m' := by
  rw [Stepped.leaks] at hroom
  obtain ⟨fuel, ⟨b, m₁⟩, hpre⟩ := mainCall_ends h.1 hreports.1 i m (by omega)
  obtain ⟨-, -, -, hlen⟩ := mainCall_ended h.1 hpre
  dsimp only at hlen
  cases b with
  | false => exact ⟨fuel, m₁, by rw [mainRound, hpre]⟩
  | true =>
    rcases hc : compile i m₁.world with ⟨_ | _, w⟩
    · refine ⟨fuel, ⟨w, m₁.stack, m₁.log ++ [.compiled i false]⟩, ?_⟩
      rw [mainRound, hpre]
      simp [hc]
    · obtain ⟨fuel', ⟨b', m₂⟩, hpost⟩ := mainCall_ends h.2 hreports.2 i
        (⟨w, m₁.stack, m₁.log ++ [.compiled i true]⟩ : MainState σ ν π) (by dsimp only; omega)
      refine ⟨max fuel fuel', m₂, ?_⟩
      have hpost' := mainCall_mono (le_max_right fuel fuel') hpost
      rw [mainRound, mainCall_mono (le_max_left ..) hpre]
      simp [hc, hpost']

variable {compile} in
/-- The world and the events of a loop that ends. -/
theorem mainProjects_ended {ps : List (Stepped ν π × ℕ)} (h : ∀ q ∈ ps, q.1.Straight H.form L) {fuel : ℕ}
    {m m' : MainState σ ν π} (hrun : mainProjects H L compile fuel ps m = .ended m') :
    m'.world = (turns L compile ps m.world).2 ∧ m'.log = m.log ++ (turns L compile ps m.world).1 := by
  induction ps generalizing m with
  | nil =>
    rw [mainProjects, Ending.ended.injEq] at hrun
    subst hrun
    exact ⟨rfl, (List.append_nil _).symm⟩
  | cons q ps ih =>
    obtain ⟨p, i⟩ := q
    obtain ⟨hp, hps⟩ := List.forall_mem_cons.mp h
    rw [mainProjects] at hrun
    split at hrun
    · cases hrun
    · cases hrun
    · cases hrun
    · rename_i m₁ hround
      obtain ⟨hworld, hlog, -⟩ := mainRound_ended hp hround
      obtain ⟨hworld', hlog'⟩ := ih hps hrun
      rw [hworld', hlog', hworld, hlog, turns]
      exact ⟨rfl, List.append_assoc ..⟩

/-- With room on the stack for everything that is left there the loop ends. -/
theorem mainProjects_ends {ps : List (Stepped ν π × ℕ)} (h : ∀ q ∈ ps, q.1.Straight H.form L)
    (hreports : ∀ q ∈ ps, q.1.Reports H L) (m : MainState σ ν π)
    (hroom : m.stack.length + leaksOf L (ps.map Prod.fst) + 3 ≤ H.room) :
    ∃ fuel m', mainProjects H L compile fuel ps m = .ended m' := by
  induction ps generalizing m with
  | nil => exact ⟨0, m, rfl⟩
  | cons q ps ih =>
    obtain ⟨p, i⟩ := q
    obtain ⟨hp, hps⟩ := List.forall_mem_cons.mp h
    obtain ⟨hreport, hreports⟩ := List.forall_mem_cons.mp hreports
    rw [List.map_cons, leaksOf] at hroom
    dsimp only at hroom
    obtain ⟨fuel, m₁, hround⟩ := mainRound_ends compile (p := p) hp hreport i m (by omega)
    obtain ⟨-, -, hlen⟩ := mainRound_ended (p := p) hp hround
    obtain ⟨fuel', m₂, hrest⟩ := ih hps hreports m₁ (by omega)
    refine ⟨max fuel fuel', m₂, ?_⟩
    rw [mainProjects, mainRound_mono (le_max_left ..) hround]
    exact mainProjects_mono (le_max_right ..) hrest

/-- The loop's log is made of the projects' own events. -/
theorem turns_events (ps : List (Stepped ν π)) (k : ℕ) (w : σ) : ∃ ret : ℕ → Bool,
    (turns L compile (ps.zipIdx k) w).1 =
      (ps.zipIdx k).flatMap fun q => q.1.events L q.2 (ret q.2) := by
  induction ps generalizing k w with
  | nil => exact ⟨fun _ => false, rfl⟩
  | cons p ps ih =>
    obtain ⟨ret, hret⟩ := ih (k + 1) (p.turn L compile k w).2
    refine ⟨fun i => if i = k then (p.turn L compile k w).1 else ret i, ?_⟩
    have hrest : ∀ q ∈ ps.zipIdx (k + 1), q.1.events L q.2 (ret q.2) =
        q.1.events L q.2 (if q.2 = k then (p.turn L compile k w).1 else ret q.2) := by
      intro q hq
      have hk : k + 1 ≤ q.2 := (List.mem_zipIdx hq).1
      rw [if_neg (by omega)]
    rw [List.zipIdx_cons, List.flatMap_cons, turns]
    dsimp only
    rw [hret, if_pos rfl, List.flatMap_congr hrest]

omit [DecidableEq ν] [DecidableEq π] in
theorem events_filter [DecidableEq ν] [DecidableEq π] (p : Stepped ν π) (i j : ℕ) (ret : Bool) :
    (p.events L j ret).filter (StepEv.of i) = if j = i then p.events L j ret else [] := by
  have hown : ∀ ev ∈ p.events L j ret, StepEv.of i ev = decide (j = i) := fun ev hev => by
    have hcall : ∀ c : StepCall ν π, ∀ ev ∈ c.events L j, StepEv.of i ev = decide (j = i) := by
      intro c ev hev
      obtain ⟨_, _, rfl⟩ := List.mem_map.mp hev
      rfl
    rw [Stepped.events, List.mem_append] at hev
    rcases hev with hev | hev
    · exact hcall _ ev hev
    · split at hev
      · rcases List.mem_cons.mp hev with rfl | hev
        · rfl
        · split at hev
          · exact hcall _ ev hev
          · exact absurd hev List.not_mem_nil
      · exact absurd hev List.not_mem_nil
  split
  · rename_i hij
    exact List.filter_eq_self.mpr fun ev hev => by rw [hown ev hev]; exact decide_eq_true hij
  · rename_i hij
    exact List.filter_eq_nil_iff.mpr fun ev hev => by simp [hown ev hev, hij]

/-- Of the log a project has its own events. -/
theorem filter_turns (ret : ℕ → Bool) (i : ℕ) (ps : List (Stepped ν π)) (k : ℕ) :
    ((ps.zipIdx k).flatMap fun q => q.1.events L q.2 (ret q.2)).filter (StepEv.of i) =
      if k ≤ i then (ps[i - k]?.map fun p => p.events L i (ret i)).getD [] else [] := by
  induction ps generalizing k with
  | nil => simp
  | cons p ps ih =>
    rw [List.zipIdx_cons, List.flatMap_cons, List.filter_append, events_filter, ih (k + 1)]
    rcases Nat.lt_trichotomy k i with hlt | rfl | hgt
    · have hsub : i - k = i - (k + 1) + 1 := by omega
      rw [if_neg (by omega), if_pos (by omega), if_pos (by omega), hsub, List.getElem?_cons_succ,
        List.nil_append]
    · rw [if_pos rfl, if_neg (by omega), if_pos le_rfl, Nat.sub_self, List.getElem?_cons_zero,
        List.append_nil]
      rfl
    · rw [if_neg (by omega), if_neg (by omega), if_neg (by omega), List.append_nil]

/-- With room on the stack the loop over `g_projects` ends. -/
theorem mainProjects_zip {ps : List (Stepped ν π)} (h : ∀ p ∈ ps, p.Straight H.form L)
    (hreports : ∀ p ∈ ps, p.Reports H L) (w : σ) (s : Stack ν π)
    (hroom : s.length + leaksOf L ps + 3 ≤ H.room) :
    ∃ fuel out, mainProjects H L compile fuel ps.zipIdx ⟨w, s, []⟩ = .ended out := by
  refine mainProjects_ends compile (fun q hq => h q.1 (List.fst_mem_of_mem_zipIdx hq))
    (fun q hq => hreports q.1 (List.fst_mem_of_mem_zipIdx hq)) _ ?_
  rw [List.zipIdx_map_fst]
  exact hroom

variable {compile} in
/-- The project's events in a run of the loop. -/
theorem mainProjects_events {ps : List (Stepped ν π)} (h : ∀ p ∈ ps, p.Straight H.form L) {w : σ}
    {s : Stack ν π} {fuel : ℕ} {out : MainState σ ν π}
    (hrun : mainProjects H L compile fuel ps.zipIdx ⟨w, s, []⟩ = .ended out) :
    ∃ ret : ℕ → Bool, ∀ i, out.log.filter (StepEv.of i) =
      (ps[i]?.map fun p => p.events L i (ret i)).getD [] := by
  obtain ⟨-, hlog⟩ := mainProjects_ended (fun q hq => h q.1 (List.fst_mem_of_mem_zipIdx hq)) hrun
  obtain ⟨ret, hret⟩ := turns_events (L := L) compile ps 0 w
  refine ⟨ret, fun i => ?_⟩
  rw [hlog, List.nil_append, hret, filter_turns, if_pos (Nat.zero_le i), Nat.sub_zero]

/-- The pre callback is absent, or has run to its end and not returned false. -/
def Stepped.Allows (L : ℕ) (p : Stepped ν π) : Prop :=
  ∀ v, p.preCall.callback L = some v →
    ∃ results, p.pre v p.self = .returned results ∧ results.head? ≠ some (.boolean false)

/-- The pre callback raises an error. -/
def Stepped.Raises (L : ℕ) (p : Stepped ν π) : Prop :=
  ∃ v err, p.preCall.callback L = some v ∧ p.pre v p.self = .raised err

theorem compiled_mem {p : Stepped ν π} {i : ℕ} {ret r : Bool} :
    .compiled i r ∈ p.events L i ret ↔ p.preCall.answer L = true ∧ r = ret := by
  have hcall : ∀ c : StepCall ν π, .compiled i r ∉ c.events L i := fun c hmem => by
    obtain ⟨_, _, heq⟩ := List.mem_map.mp hmem
    cases heq
  rw [Stepped.events, List.mem_append]
  cases p.preCall.answer L with
  | false => simp [hcall]
  | true => cases ret <;> simp [hcall]

omit [DecidableEq ν] [DecidableEq π] in
/-- Both an error and a result other than false answer true. -/
theorem answerOf_true {c : Called ν π} (h : answerOf c = true) :
    (∃ results, c = .returned results ∧ results.head? ≠ some (.boolean false)) ∨ ∃ err, c = .raised err := by
  cases c with
  | raised err => exact Or.inr ⟨err, rfl⟩
  | returned results =>
    refine Or.inl ⟨results, rfl, fun hhead => ?_⟩
    cases results with
    | nil => cases hhead
    | cons r results =>
      rw [List.head?_cons, Option.some.injEq] at hhead
      rw [hhead] at h
      cases h

/-- A pre step that answers true has an allowing callback unless that raised an error. -/
theorem answer_allows {p : Stepped ν π} (h : p.preCall.answer L = true) :
    p.Allows L ↔ ¬ p.Raises L := by
  constructor
  · rintro hallows ⟨v, err, hv, hraise⟩
    obtain ⟨results, hreturn, _⟩ := hallows v hv
    rw [hreturn] at hraise
    cases hraise
  · intro hno v hv
    have hans : answerOf (p.pre v p.self) = true := by
      rw [StepCall.callback] at hv
      split at hv
      · rename_i hL
        rw [StepCall.answer, if_pos hL, hv] at h
        exact h
      · cases hv
    rcases answerOf_true hans with hreturn | ⟨err, hraise⟩
    · exact hreturn
    · exact absurd ⟨v, err, hv, hraise⟩ hno

theorem raises_answer {p : Stepped ν π} (h : p.Raises L) : p.preCall.answer L = true := by
  obtain ⟨v, err, hv, hraise⟩ := h
  rw [StepCall.callback] at hv
  split at hv
  · rename_i hL
    have hans : answerOf (p.preCall.call v p.preCall.side.self) = true := by
      rw [show p.preCall.call v p.preCall.side.self = .raised err from hraise]
      rfl
    rw [StepCall.answer, if_pos hL, hv]
    exact hans
  · cases hv

theorem post_mem {p : Stepped ν π} {i : ℕ} {ret : Bool} (h : .called i postStep ∈ p.events L i ret) :
    .compiled i true ∈ p.events L i ret := by
  rw [compiled_mem]
  rw [Stepped.events, List.mem_append] at h
  rcases h with h | h
  · obtain ⟨_, _, heq⟩ := List.mem_map.mp h
    have hstep : preStep = postStep := (StepEv.called.inj heq).2
    exact absurd hstep (by decide)
  · split at h
    · rename_i hans
      refine ⟨hans, ?_⟩
      rcases List.mem_cons.mp h with h | h
      · cases h
      · cases ret with
        | true => rfl
        | false => exact absurd h List.not_mem_nil
    · exact absurd h List.not_mem_nil

/-- An event of the log belongs to a project. -/
theorem log_events {ps : List (Stepped ν π)} {ret : ℕ → Bool} {log : List StepEv}
    (h : ∀ i, log.filter (StepEv.of i) = (ps[i]?.map fun p => p.events L i (ret i)).getD [])
    {ev : StepEv} {i : ℕ} (hi : StepEv.of i ev = true) :
    ev ∈ log ↔ ∃ p, ps[i]? = some p ∧ ev ∈ p.events L i (ret i) := by
  have hfilter : ev ∈ log ↔ ev ∈ log.filter (StepEv.of i) := by simp [hi]
  rw [hfilter, h i]
  cases ps[i]? with
  | none => simp
  | some p => simp

/-- A project is compiled when its pre step answers true. -/
theorem compiled_log {ps : List (Stepped ν π)} {ret : ℕ → Bool} {log : List StepEv}
    (h : ∀ i, log.filter (StepEv.of i) = (ps[i]?.map fun p => p.events L i (ret i)).getD [])
    {i : ℕ} {r : Bool} :
    .compiled i r ∈ log ↔ ∃ p, ps[i]? = some p ∧ p.preCall.answer L = true ∧ r = ret i := by
  rw [log_events h (i := i) (by simp [StepEv.of])]
  exact exists_congr fun p => and_congr_right fun _ => compiled_mem

/-- Where no number key comes before the steps, the errors can be printed and the stack has room for what
    is left on it: the loop ends; every project that is compiled has no pre callback, or one that ran to
    its end and did not return false, exactly when no pre callback raises an error; a post callback is
    called only after a compile that returned true; and in any two runs a project that is the same and
    whose compiles return the same goes through the same events, whatever the other projects are and do. -/
theorem steps_gate (H : Host ν) (L : ℕ) {ps : List (Stepped ν π)} (h : ∀ p ∈ ps, p.Straight H.form L)
    (hreports : ∀ p ∈ ps, p.Reports H L) (compile : ℕ → σ → Bool × σ) (w : σ) (s : Stack ν π)
    (hroom : s.length + leaksOf L ps + 3 ≤ H.room) :
    ∃ fuel out, mainProjects H L compile fuel ps.zipIdx ⟨w, s, []⟩ = .ended out ∧
      ((∀ i p ret, ps[i]? = some p → .compiled i ret ∈ out.log → p.Allows L) ↔
        ∀ p ∈ ps, ¬ p.Raises L) ∧
      (∀ i, .called i postStep ∈ out.log → .compiled i true ∈ out.log) ∧
      ∀ (ps' : List (Stepped ν π)) (compile' : ℕ → σ → Bool × σ) (w' : σ) (s' : Stack ν π) (fuel' : ℕ)
        (out' : MainState σ ν π), (∀ p ∈ ps', p.Straight H.form L) →
        mainProjects H L compile' fuel' ps'.zipIdx ⟨w', s', []⟩ = .ended out' →
        ∀ i, ps'[i]? = ps[i]? →
          (∀ ret ret', .compiled i ret ∈ out.log → .compiled i ret' ∈ out'.log → ret = ret') →
            out.log.filter (StepEv.of i) = out'.log.filter (StepEv.of i) := by
  obtain ⟨fuel, out, hrun⟩ := mainProjects_zip compile h hreports w s hroom
  obtain ⟨ret, hret⟩ := mainProjects_events h hrun
  refine ⟨fuel, out, hrun, ?_, ?_, ?_⟩
  · constructor
    · intro hgate p hp hraise
      obtain ⟨i, hi⟩ := List.getElem?_of_mem hp
      have hmem := (compiled_log hret).mpr ⟨p, hi, raises_answer hraise, rfl⟩
      exact (answer_allows (raises_answer hraise)).mp (hgate i p (ret i) hi hmem) hraise
    · intro hno i p r hp hmem
      obtain ⟨q, hq, hans, -⟩ := (compiled_log hret).mp hmem
      rw [hp, Option.some.injEq] at hq
      subst hq
      exact (answer_allows hans).mpr (hno p (List.mem_of_getElem? hp))
  · intro i hmem
    obtain ⟨p, hp, hev⟩ := (log_events hret (i := i) (by simp [StepEv.of])).mp hmem
    exact (log_events hret (i := i) (by simp [StepEv.of])).mpr ⟨p, hp, post_mem hev⟩
  · intro ps' compile' w' s' fuel' out' h' hrun' i hsame hresult
    obtain ⟨ret', hret'⟩ := mainProjects_events h' hrun'
    rw [hret i, hret' i, hsame]
    cases hp : ps[i]? with
    | none => rfl
    | some p =>
      cases hans : p.preCall.answer L with
      | false => simp [Stepped.events, hans]
      | true =>
        have hmem := (compiled_log hret).mpr ⟨p, hp, hans, rfl⟩
        have hmem' := (compiled_log hret').mpr ⟨p, hsame.trans hp, hans, rfl⟩
        rw [hresult _ _ hmem hmem']

/-- Tables with plain string keys are searched as they should be. -/
theorem straight_strings {form : ν → Str} {c : StepCall ν π}
    (h : ∀ e ∈ c.side.table.entries, ∃ k, e.1 = .string k ∧ '\x00' ∉ k) : c.Straight form L := by
  intro _
  have hplain : ∀ e ∈ c.side.table.entries, ∀ n, e.1 ≠ .number n := not_number fun e he => by
    obtain ⟨k, hk, -⟩ := h e he
    exact ⟨k, hk⟩
  refine ⟨fun e he => hplain e (List.takeWhile_subset _ he), ?_⟩
  have hreads : ∀ e ∈ c.side.table.entries,
      reads c.step (tostring form e.1) = decide (e.1 = .string c.step.1) := by
    intro e he
    obtain ⟨k, hk, hnul⟩ := h e he
    rw [tostring_plain (hplain e he), hk, reads, takeWhile_nul.mpr hnul, Bool.eq_iff_iff, beq_iff_eq,
      decide_eq_true_iff, Lua.Val.string.injEq]
  rw [Table.get, ← List.head?_filter, ← List.head?_filter, List.filter_congr hreads]

/-- A project with a pre step. -/
def stepped (pre : Val ℕ ℕ → Val ℕ ℕ → Called ℕ ℕ) : Stepped ℕ ℕ where
  m_L := some 0
  self := .table 0
  preTable := preTable
  postTable := preTable
  pre := pre
  post := returnsTrue

theorem stepped_straight (pre : Val ℕ ℕ → Val ℕ ℕ → Called ℕ ℕ) : (stepped pre).Straight minHost.form 0 :=
  ⟨straight_strings preTable_keys, straight_strings preTable_keys⟩

theorem steps_gate_one : ∃ fuel out, mainProjects minHost 0 (fun _ _ => (true, ())) fuel
      [stepped returnsTrue].zipIdx ⟨(), [], []⟩ = .ended out ∧
    ((∀ i p ret, [stepped returnsTrue][i]? = some p → .compiled i ret ∈ out.log → p.Allows 0) ↔
      ∀ p ∈ [stepped returnsTrue], ¬ p.Raises 0) := by
  have hstraight : ∀ p ∈ [stepped returnsTrue], p.Straight minHost.form 0 := by
    simpa using stepped_straight returnsTrue
  have hreports : ∀ p ∈ [stepped returnsTrue], p.Reports minHost 0 := by
    intro p hp
    rw [List.mem_singleton.mp hp]
    exact ⟨fun _ _ => rfl, fun _ _ => rfl⟩
  obtain ⟨fuel, out, hrun, hgate, _⟩ :=
    steps_gate minHost 0 hstraight hreports (fun _ _ => (true, ())) () [] (by decide)
  exact ⟨fuel, out, hrun, hgate⟩

/-- A pre callback that raises an error does not keep its project from being compiled. -/
theorem raising_compiled :
    ∃ out, mainProjects minHost 0 (fun _ _ => (true, ())) 3
        [(stepped fun _ _ => .raised (.string "stop".toList), 0)] ⟨(), [], []⟩ = .ended out ∧
      .compiled 0 true ∈ out.log ∧ ¬ (stepped fun _ _ => .raised (.string "stop".toList)).Allows 0 := by
  refine ⟨_, rfl, by decide, fun hallows => ?_⟩
  obtain ⟨results, hreturn, _⟩ := hallows (.function 0) rfl
  cases hreturn

/-! ### The loop on the model's world -/

/-- `compile()` of the project at a position of `g_projects`. -/
def compileIn (env : Env) (gs : List Project) (i : ℕ) (w : World) : Bool × World :=
  match gs[i]? with
  | none => (false, w)
  | some p =>
    match p.compile env gs w with
    | (ret, s) => (ret, s.w.say (.leave i ret))

theorem turns_mainStep {env : Env} {gs : List Project} {pre : ℕ → Bool} :
    ∀ {ps : List (Stepped ν π)} {qs : List Project} {k : ℕ}, ps.length = qs.length →
      (∀ q ∈ qs.zipIdx k, gs[q.2]? = some q.1) → (∀ q ∈ ps.zipIdx k, pre q.2 = q.1.preCall.answer L) →
        ∀ w, (turns L (compileIn env gs) (ps.zipIdx k) w).2 =
          (qs.zipIdx k).foldl (mainStep env pre gs) w
  | [], [], _, _, _, _, _ => rfl
  | [], _ :: _, _, hlen, _, _, _ => by simp at hlen
  | _ :: _, [], _, hlen, _, _, _ => by simp at hlen
  | p :: ps, q :: qs, k, hlen, hgs, hpre, w => by
    rw [List.zipIdx_cons] at hgs hpre
    obtain ⟨hq, hqs⟩ := List.forall_mem_cons.mp hgs
    obtain ⟨hp, hps⟩ := List.forall_mem_cons.mp hpre
    have ih : ∀ w, (turns L (compileIn env gs) (ps.zipIdx (k + 1)) w).2 =
        (qs.zipIdx (k + 1)).foldl (mainStep env pre gs) w :=
      turns_mainStep (Nat.succ.inj hlen) hqs hps
    rw [List.zipIdx_cons, List.zipIdx_cons, List.foldl_cons, turns]
    dsimp only
    rw [ih, mainStep, Stepped.turn, compileIn, hq, hp]
    split <;> rfl

/-- With the answers of the pre steps for `pre`, the loop leaves the world that `mainLoop` leaves. -/
theorem mainProjects_world {ps : List (Stepped ν π)} {gs : List Project} {env : Env} {pre : ℕ → Bool}
    (h : ∀ p ∈ ps, p.Straight H.form L) (hlen : ps.length = gs.length)
    (hpre : ∀ i p, ps[i]? = some p → pre i = p.preCall.answer L) {w : World} {s : Stack ν π} {fuel : ℕ}
    {out : MainState World ν π}
    (hrun : mainProjects H L (compileIn env gs) fuel ps.zipIdx ⟨w, s, []⟩ = .ended out) :
    out.world = mainLoop env pre gs w := by
  have hindex : ∀ {α : Type} {l : List α}, ∀ q ∈ l.zipIdx, l[q.2]? = some q.1 := fun q hq => by
    rw [List.mem_zipIdx_iff_getElem?] at hq
    exact hq
  rw [(mainProjects_ended (fun q hq => h q.1 (List.fst_mem_of_mem_zipIdx hq)) hrun).1]
  exact turns_mainStep hlen hindex (fun q hq => hpre q.2 q.1 (hindex q hq)) w

end Cake
