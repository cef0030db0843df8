import Cake.Depends
import Cake.Lib.RefTable

/-! The tables of the projects in the Lua registry.

    `program` and `library` keep the table they have made with `luaL_ref`, and the destructor of a project
    gives it back. Others keep things in the registry too, and it grows and is rehashed as Lua likes. A
    project finds its own table all the same, from its creation on until it is deleted.

        program ──luaL_ref──▶ m_registrykey ──lua_rawgeti──▶ table      ~Project ──luaL_unref -/

namespace Cake

open Lua (Val)
open RefTable (Layout Refs luaLRef luaLUnref)

/-- For whom something is kept: the table of a project, by its position in `g_projects`, or the value of
    somebody else. -/
inductive Holder where
  | project (i : ℕ)
  | foreign (k : ℕ)
  deriving DecidableEq

/-- `g_projects`, the `m_registrykey` of each, and the registry. -/
structure Registry where
  gs : List Declared
  keys : List ℕ
  slots : RefTable.Slots Holder

/-- `MAX_INT` of the Lua core. -/
def maxInt : ℕ := 2147483645

section Code

variable {ν : Type} (form : ν → Str)

/-- What `s_create_program` and `s_create_library` share, with the reference they take. -/
def Registry.create (type : ProjectType) (args : List (Val ν Ptr)) (l : Layout) (s : Registry) :
    Option Registry :=
  match createCall form type args s.gs with
  | .returned gs =>
    let ref := luaLRef maxInt l (.project s.gs.length) s.slots
    some ⟨gs, s.keys ++ [ref.1], ref.2⟩
  | .raised gs => some { s with gs := gs }
  | .undefined => none

/-- What happens while the makefile or a step of a project runs. `keep` and `release` are calls of others
    for values of their own. -/
inductive RegistryCall (ν : Type) where
  | program (args : List (Val ν Ptr)) (l : Layout)
  | library (args : List (Val ν Ptr)) (l : Layout)
  | depend (index index' : Val ν Ptr → Option (Val ν Ptr)) (args : List (Val ν Ptr))
  | keep (k : ℕ) (l : Layout)
  | release (ref : ℕ)

def RegistryCall.run (s : Registry) : RegistryCall ν → Option Registry
  | .program args l => s.create form .program args l
  | .library args l => s.create form .staticLibrary args l
  | .depend index index' args =>
    (dependCall index index' args s.gs).projects.map fun gs => { s with gs := gs }
  | .keep k l => some { s with slots := (luaLRef maxInt l (.foreign k) s.slots).2 }
  | .release ref => some { s with slots := luaLUnref ref s.slots }

/-- The registry may lie in memory in this way, and others give back only what is theirs. -/
def RegistryCall.Allowed (s : Registry) : RegistryCall ν → Prop
  | .program _ l | .library _ l | .keep _ l => l.Holds s.slots
  | .depend _ _ _ => True
  | .release ref => ∃ k, s.slots.get ref = .kept (.foreign k)

/-- What can be reached from an empty registry. -/
inductive Registry.Reached : Registry → Prop where
  | start : Reached ⟨[], [], .empty⟩
  | step {s s' : Registry} (c : RegistryCall ν) (h : Reached s) (ha : c.Allowed s)
    (hs : c.run form s = some s') : Reached s'

/-- `lua_rawgeti` with the key of a project. -/
def Registry.rawgeti (s : Registry) (key : ℕ) : RefTable.Slot Holder := s.slots.get key

/-- The first `k` projects are deleted. -/
def Registry.deleted (k : ℕ) (s : Registry) : Registry :=
  { s with slots := (s.keys.take k).foldl (fun t key => luaLUnref key t) s.slots }

end Code

variable {ν : Type} {form : ν → Str} {s s' : Registry} {r : ℕ}

/-- Every project has its key, and under the keys are the tables of the projects. -/
structure Registry.Proper (s : Registry) : Prop where
  length : s.keys.length = s.gs.length
  refs : ∃ n live free, Refs s.slots n live free ∧
    ∀ i key, s.keys[i]? = some key ↔ live key = some (.project i)

/-! ### One call -/

/-- One more key at the end. -/
theorem keys_concat {keys : List ℕ} {live : ℕ → Option Holder}
    (h : ∀ i key, keys[i]? = some key ↔ live key = some (.project i)) (hr : live r = none) (i key : ℕ) :
    (keys ++ [r])[i]? = some key ↔
      Function.update live r (some (.project keys.length)) key = some (.project i) := by
  have hfresh : keys[i]? ≠ some r := by
    rw [ne_eq, h, hr]
    exact (Option.some_ne_none _).symm
  rcases Nat.lt_trichotomy i keys.length with hlt | rfl | hgt
  · rw [List.getElem?_append_left hlt]
    rcases eq_or_ne key r with rfl | hne
    · rw [Function.update_self, Option.some.injEq, Holder.project.injEq]
      exact iff_of_false hfresh hlt.ne'
    · rw [Function.update_of_ne hne, h]
  · rw [List.getElem?_concat_length, Option.some.injEq]
    rcases eq_or_ne key r with rfl | hne
    · simp
    · rw [Function.update_of_ne hne, ← h, List.getElem?_eq_none le_rfl]
      exact iff_of_false hne.symm (Option.some_ne_none _).symm
  · rw [List.getElem?_eq_none (by rw [List.length_append, List.length_singleton]; omega)]
    refine iff_of_false (Option.some_ne_none _).symm ?_
    rcases eq_or_ne key r with rfl | hne
    · rw [Function.update_self, Option.some.injEq, Holder.project.injEq]
      exact hgt.ne
    · rw [Function.update_of_ne hne, ← h, List.getElem?_eq_none hgt.le]
      exact (Option.some_ne_none _).symm

/-- A slot that was nobody's or somebody else's. -/
theorem keys_update {keys : List ℕ} {live : ℕ → Option Holder}
    (h : ∀ i key, keys[i]? = some key ↔ live key = some (.project i)) (hr : ∀ i, live r ≠ some (.project i))
    {a : Option Holder} (ha : ∀ i, a ≠ some (.project i)) (i key : ℕ) :
    keys[i]? = some key ↔ Function.update live r a key = some (.project i) := by
  rcases eq_or_ne key r with rfl | hne
  · rw [Function.update_self, h]
    exact iff_of_false (hr i) (ha i)
  · rw [Function.update_of_ne hne]
    exact h i key

/-- `depend` makes no project. -/
theorem dependCall_length {index index' : Val ν Ptr → Option (Val ν Ptr)} {args : List (Val ν Ptr)}
    {gs gs' : List Declared} (h : (dependCall index index' args gs).projects = some gs') :
    gs'.length = gs.length := by
  rw [dependCall] at h
  split at h
  · exact congrArg List.length (Option.some.inj h).symm
  split at h
  · exact congrArg List.length (Option.some.inj h).symm
  split at h
  · exact congrArg List.length (Option.some.inj h).symm
  split at h
  · cases h
  · rw [← Option.some.inj h, List.length_modify]

theorem Registry.Proper.create (h : s.Proper) {type : ProjectType} {args : List (Val ν Ptr)} {l : Layout}
    (hl : l.Holds s.slots) (hs : s.create form type args l = some s') : s'.Proper := by
  rw [Registry.create] at hs
  rcases createCall_cases form s.gs type args with hraised | ⟨name, -, hreturned⟩
  · rw [hraised, Option.some.injEq] at hs
    exact hs ▸ h
  · obtain ⟨hlength, n, live, free, hrefs, hkeys⟩ := h
    obtain ⟨hnone, n', free', -, hrefs'⟩ := hrefs.ref maxInt hl (.project s.gs.length)
    rw [hreturned, Option.some.injEq] at hs
    subst hs
    refine ⟨by simp [hlength], n', _, free', hrefs', ?_⟩
    rw [← hlength]
    exact keys_concat hkeys (hlength ▸ hnone)

theorem Registry.Proper.run (h : s.Proper) {c : RegistryCall ν} (ha : c.Allowed s)
    (hs : c.run form s = some s') : s'.Proper := by
  cases c with
  | program args l => exact h.create ha hs
  | library args l => exact h.create ha hs
  | depend index index' args =>
    obtain ⟨gs, hgs, rfl⟩ := Option.map_eq_some_iff.mp hs
    exact ⟨h.length.trans (dependCall_length hgs).symm, h.refs⟩
  | keep k l =>
    obtain ⟨hlength, n, live, free, hrefs, hkeys⟩ := h
    obtain ⟨hnone, n', free', -, hrefs'⟩ := hrefs.ref maxInt ha (.foreign k)
    obtain rfl := Option.some.inj hs
    exact ⟨hlength, n', _, free', hrefs', keys_update hkeys (by simp [hnone]) (by simp)⟩
  | release ref =>
    obtain ⟨hlength, n, live, free, hrefs, hkeys⟩ := h
    obtain ⟨k, hk⟩ := ha
    have hlive := hrefs.kept_iff.mp hk
    obtain rfl := Option.some.inj hs
    exact ⟨hlength, n, _, _, hrefs.unref hlive, keys_update hkeys (by simp [hlive]) (by simp)⟩

/-! ### Every run -/

theorem Registry.Reached.proper (h : Registry.Reached form s) : s.Proper := by
  induction h with
  | start => exact ⟨rfl, 0, fun _ => none, [], RefTable.refs_empty, by simp⟩
  | step c h ha hs ih => exact ih.run ha hs

/-- No two projects have one key. -/
theorem nodup_keys {keys : List ℕ} {live : ℕ → Option Holder}
    (h : ∀ i key, keys[i]? = some key ↔ live key = some (.project i)) : keys.Nodup := by
  rw [List.nodup_iff_getElem?_ne_getElem?]
  intro i j hij hj heq
  have hkey := (h j keys[j]).mp (List.getElem?_eq_getElem hj)
  rw [(h i keys[j]).mp (heq.trans (List.getElem?_eq_getElem hj)), Option.some.injEq,
    Holder.project.injEq] at hkey
  exact hij.ne hkey

/-- The keys of the projects that are deleted. -/
theorem mem_take_keys {keys : List ℕ} {live : ℕ → Option Holder}
    (h : ∀ i key, keys[i]? = some key ↔ live key = some (.project i)) {k key : ℕ} :
    key ∈ keys.take k ↔ ∃ i < k, live key = some (.project i) := by
  simp_rw [List.mem_iff_getElem?, List.getElem?_take, ← h]
  refine exists_congr fun i => ?_
  by_cases hi : i < k <;> simp [hi]

/-- Every call leaves the entries of others as they are: what is kept under a key stays there, unless that
    key is given back. -/
theorem Registry.Proper.keeps (h : s.Proper) {c : RegistryCall ν} (ha : c.Allowed s)
    (hs : c.run form s = some s') {key : ℕ} {who : Holder} (hkept : s.rawgeti key = .kept who)
    (hc : c ≠ .release key) : s'.rawgeti key = .kept who := by
  obtain ⟨hlength, n, live, free, hrefs, hkeys⟩ := h
  have hlive := hrefs.kept_iff.mp hkept
  -- a new reference is nobody's, so it is not this key
  have hnew : ∀ {l : Layout} (a : Holder), l.Holds s.slots →
      (luaLRef maxInt l a s.slots).2.get key = .kept who := fun {l} a hl => by
    obtain ⟨hnone, n', free', -, hrefs'⟩ := hrefs.ref maxInt hl a
    have hne : key ≠ (luaLRef maxInt l a s.slots).1 := fun heq => by
      rw [← heq, hlive] at hnone
      cases hnone
    rw [hrefs'.kept_iff, Function.update_of_ne hne]
    exact hlive
  have hcreate : ∀ {type : ProjectType} {args : List (Val ν Ptr)} {l : Layout}, l.Holds s.slots →
      s.create form type args l = some s' → s'.rawgeti key = .kept who := fun {type args l} hl hs => by
    rw [Registry.create] at hs
    rcases createCall_cases form s.gs type args with hraised | ⟨name, -, hreturned⟩
    · rw [hraised, Option.some.injEq] at hs
      exact hs ▸ hkept
    · rw [hreturned, Option.some.injEq] at hs
      exact hs ▸ hnew _ hl
  cases c with
  | program args l => exact hcreate ha hs
  | library args l => exact hcreate ha hs
  | depend index index' args =>
    obtain ⟨gs, -, rfl⟩ := Option.map_eq_some_iff.mp hs
    exact hkept
  | keep k l =>
    obtain rfl := Option.some.inj hs
    exact hnew _ ha
  | release ref =>
    have hne : key ≠ ref := fun heq => hc (heq ▸ rfl)
    obtain ⟨k, hk⟩ := ha
    obtain rfl := Option.some.inj hs
    have hrefs' := hrefs.unref (hrefs.kept_iff.mp hk)
    exact hrefs'.kept_iff.mpr ((Function.update_of_ne hne _ _).trans hlive)

/-- The projects keep their keys. -/
theorem RegistryCall.run_keys {c : RegistryCall ν} (hs : c.run form s = some s') : s.keys <+: s'.keys := by
  have hcreate : ∀ {type : ProjectType} {args : List (Val ν Ptr)} {l : Layout},
      s.create form type args l = some s' → s.keys <+: s'.keys := fun {type args l} hs => by
    rw [Registry.create] at hs
    rcases createCall_cases form s.gs type args with hraised | ⟨name, -, hreturned⟩
    · rw [hraised, Option.some.injEq] at hs
      exact hs ▸ List.prefix_rfl
    · rw [hreturned, Option.some.injEq] at hs
      exact hs ▸ List.prefix_append _ _
  cases c with
  | program args l => exact hcreate hs
  | library args l => exact hcreate hs
  | depend index index' args =>
    obtain ⟨gs, -, rfl⟩ := Option.map_eq_some_iff.mp hs
    exact List.prefix_rfl
  | keep k l =>
    obtain rfl := Option.some.inj hs
    exact List.prefix_rfl
  | release ref =>
    obtain rfl := Option.some.inj hs
    exact List.prefix_rfl

/-- A project finds its table under its key until it is deleted: whatever is called next leaves the keys
    and what is kept under every key that is not given back, and when the first projects are deleted, the
    tables of the others are all that is there for projects and the rest of the registry stays. -/
theorem registry_keeps_tables (h : Registry.Reached form s) :
    s.keys.length = s.gs.length ∧
    (∀ (c : RegistryCall ν) s', c.Allowed s → c.run form s = some s' →
      s.keys <+: s'.keys ∧ ∀ key who, s.rawgeti key = .kept who → c ≠ .release key →
        s'.rawgeti key = .kept who) ∧
    ∀ k key,
      (∀ i, (s.deleted k).rawgeti key = .kept (.project i) ↔ k ≤ i ∧ s.keys[i]? = some key) ∧
      ∀ j, (s.deleted k).rawgeti key = .kept (.foreign j) ↔ s.rawgeti key = .kept (.foreign j) := by
  refine ⟨h.proper.length, fun c s' ha hs => ⟨RegistryCall.run_keys hs, fun key who hkept hc =>
    h.proper.keeps ha hs hkept hc⟩, ?_⟩
  obtain ⟨-, n, live, free, hrefs, hkeys⟩ := h.proper
  intro k key
  obtain ⟨free', hdeleted⟩ := hrefs.unref_all ((nodup_keys hkeys).sublist (List.take_sublist k s.keys))
    fun key hkey => by
      obtain ⟨i, -, hi⟩ := (mem_take_keys hkeys).mp hkey
      exact ⟨_, hi⟩
  constructor
  · intro i
    rw [Registry.rawgeti, Registry.deleted, hdeleted.kept_iff, hkeys]
    split
    · rename_i hgone
      obtain ⟨j, hj, hlive⟩ := (mem_take_keys hkeys).mp hgone
      refine iff_of_false (Option.some_ne_none _).symm fun hi => ?_
      rw [hi.2, Option.some.injEq, Holder.project.injEq] at hlive
      omega
    · rename_i hthere
      constructor
      · exact fun hi => ⟨not_lt.mp fun hlt => hthere ((mem_take_keys hkeys).mpr ⟨i, hlt, hi⟩), hi⟩
      · exact And.right
  · intro j
    rw [Registry.rawgeti, Registry.deleted, hdeleted.kept_iff, Registry.rawgeti, hrefs.kept_iff]
    split
    · rename_i hgone
      obtain ⟨i, -, hlive⟩ := (mem_take_keys hkeys).mp hgone
      refine iff_of_false (Option.some_ne_none _).symm ?_
      rw [hlive]
      simp
    · rfl

/-- A program, something of somebody else, a library; the other one has gone when the library of
    another name comes. -/
theorem registry_keeps_tables_reused : ∃ s : Registry, s.keys = [1, 3, 2] ∧ ∀ i,
    (s.deleted 1).rawgeti 2 = .kept (.project i) ↔ 1 ≤ i ∧ s.keys[i]? = some 2 := by
  let form : ℕ → Str := fun _ => []
  have h₀ : Registry.Reached form ⟨[], [], .empty⟩ := .start
  have h₁ := h₀.step (.program [.string ['a']] ⟨0, true⟩) (fun _ n hn => RefTable.Slots.above _ n hn) rfl
  have h₂ := h₁.step (.keep 7 ⟨1, true⟩) (fun _ n hn => RefTable.Slots.above _ n hn) rfl
  have h₃ := h₂.step (.library [.string ['b']] ⟨2, true⟩) (fun _ n hn => RefTable.Slots.above _ n hn) rfl
  have h₄ := h₃.step (.release 2) ⟨7, rfl⟩ rfl
  have h₅ := h₄.step (.library [.string ['c']] ⟨3, true⟩) (fun _ n hn => RefTable.Slots.above _ n hn) rfl
  exact ⟨_, rfl, ((registry_keeps_tables h₅).2.2 1 2).1⟩

end Cake
