import Cake.Names
import Cake.Lib.Lua

/-! `Project::do_build_step`: finding the `pre` or `post` entry of a project's table and calling it.

    The entry is looked for with `lua_next`. `lua_tostring` on a number key rewrites the key on the
    stack, and the traversal resumes after the string key of that form: it may skip entries, come
    back to ones it has seen, or fail when there is no such key. The text of an error that the callback
    raises is given to `printerr` as its format, and nobody asks whether the Lua stack has room.

        keys   "a" 1 "1" "pre"      a ──▶ 1 ──jump──▶ after "1" ──▶ pre
        keys   1 "pre" "1"          1 ──jump──▶ after "1"           pre is skipped
        keys   "1" 1 "pre"          "1" ──▶ 1 ──jump──▶ after "1" ──▶ 1 ──▶ …
        keys   1 "pre"              1 ──▶ error -/

namespace Cake

open Lua (Val Table Stack Entry Called isString tostring pcall)

variable {ν π : Type}

/-- How code that works on the Lua stack ends: not with this fuel, with a Lua error, beyond what Lua and C
    promise, or well. -/
inductive Ending (α : Type) where
  | running
  | raised
  | undefined
  | ended (result : α)

/-- What a step depends on besides its project: the string forms of numbers, how many slots the Lua stack
    has for `main` (Lua promises `LUA_MINSTACK`, and nobody asks for more), and `g_silent_flag`. -/
structure Host (ν : Type) where
  form : ν → Str
  room : ℕ
  silent : Bool

/-- `strcmp(step, lua_tostring(L, -2)) == 0`, the key being a string by now. -/
def reads (step : CStr) : Val ν π → Bool
  | .string s => s.takeWhile (· != '\x00') == step.1
  | _ => false

/-- What the makefile and the registry hold of a project: the Lua state it was created in, its table,
    and the entries of the table. -/
structure LuaSide (ν π : Type) where
  m_L : Option ℕ
  self : Val ν π
  table : Table ν π

/-- A format to which nothing need be passed: `%%` is its only conversion. -/
def plainFormat : Str → Bool
  | '%' :: '%' :: fmt => plainFormat fmt
  | '%' :: _ => false
  | _ :: fmt => plainFormat fmt
  | [] => true

/-- `printerr(lua_tostring(L, -1))` is defined: the text of the error is the format, the null pointer when
    it has none, and nothing is passed with it. -/
def Host.prints (H : Host ν) (err : Val ν π) : Bool :=
  H.silent || match tostring H.form err with
    | .string fmt => plainFormat (fmt.takeWhile (· != '\x00'))
    | _ => false

/-- What `do_build_step` says of a call that has ended so is defined. -/
def Host.reports (H : Host ν) : Called ν π → Bool
  | .returned _ => true
  | .raised err => H.prints err

/-- What a step answers, the stack it leaves, and the protected calls (value and argument). -/
structure StepResult (ν π : Type) where
  answer : Bool
  stack : Stack ν π
  calls : List (Val ν π × Val ν π)

/-- The answer of the step by the outcome of its call. -/
def answerOf : Called ν π → Bool
  | .returned (.boolean b :: _) => b
  | _ => true

/-- The protected call of the stack's top value on the one below. -/
def callOf : Stack ν π → List (Val ν π × Val ν π)
  | arg :: fn :: _ => [(fn, arg)]
  | _ => []

/-- The part of `do_build_step` after the search, with something above the table at height `t`. -/
def callStep (H : Host ν) (call : Val ν π → Val ν π → Called ν π) (t : ℕ) (s : Stack ν π) :
    Ending (StepResult ν π) :=
  let s := Lua.swap ((Lua.swap s).drop 1)
  let calls := callOf s
  match pcall call s with
  | (true, s) =>
    if s.head?.any H.prints then
      let s := s.drop 1
      .ended ⟨true, if s.length > t then s.drop 1 else s, calls⟩
    else .undefined
  | (false, s) =>
    let bigret := match s.head? with
      | some (.boolean b) => b
      | _ => true
    let s := s.drop 1
    .ended ⟨bigret, if s.length > t then s.drop 1 else s, calls⟩

variable [DecidableEq ν] [DecidableEq π]

/-- The loop over the table; the key is on top of the stack. -/
def traverse (form : ν → Str) (t : Table ν π) (step : CStr) : ℕ → Stack ν π → Ending (Stack ν π)
  | 0, _ => .running
  | _ + 1, [] => .raised
  | fuel + 1, key :: s =>
    match t.next key with
    | none => .raised
    | some none => .ended s
    | some (some (key, value)) =>
      if isString key then
        let key := tostring form key
        if reads step key then .ended (value :: key :: s) else traverse form t step fuel (key :: s)
      else traverse form t step fuel (key :: s)

/-- The table, the key and the value that `lua_next` puts on top have room on the stack. -/
def Host.fits (H : Host ν) (p : LuaSide ν π) (s : Stack ν π) : Bool :=
  s.length + (if p.table.entries.isEmpty then 2 else 3) ≤ H.room

/-- `Project::do_build_step`. -/
def doBuildStep (H : Host ν) (call : Val ν π → Val ν π → Called ν π) (L : ℕ) (p : LuaSide ν π)
    (step : CStr) (fuel : ℕ) (s : Stack ν π) : Ending (StepResult ν π) :=
  if p.m_L ≠ some L then .ended ⟨false, s, []⟩
  else if !H.fits p s then .undefined
  else
    let s := p.self :: s
    let t := s.length
    if t < 1 then .ended ⟨false, s, []⟩
    else match traverse H.form p.table step fuel (.nil :: s) with
      | .running => .running
      | .raised => .raised
      | .undefined => .undefined
      | .ended s => if s.length > t then callStep H call t s else .ended ⟨true, s, []⟩

/-- Where the search comes to that has these entries before it: an entry whose key reads as the step, or
    the end. After a number key it goes on behind the string key of that form. -/
inductive Leads (form : ν → Str) (t : Table ν π) (step : CStr) :
    List (Entry ν π) → Option (Entry ν π) → Prop where
  | last : Leads form t step [] none
  | found (e : Entry ν π) (rest : List (Entry ν π)) :
    reads step (tostring form e.1) = true → Leads form t step (e :: rest) (some e)
  | on (e : Entry ν π) {rest : List (Entry ν π)} {r : Option (Entry ν π)} :
    reads step (tostring form e.1) = false → (∀ n, e.1 ≠ .number n) →
      Leads form t step rest r → Leads form t step (e :: rest) r
  | jump (n : ν) (v : Val ν π) (rest : List (Entry ν π)) {rest' : List (Entry ν π)}
    {r : Option (Entry ν π)} :
    reads step (.string (form n) : Val ν π) = false → t.rest (.string (form n)) = some rest' →
      Leads form t step rest' r → Leads form t step ((.number n, v) :: rest) r

/-- What the search leaves on the stack. -/
def leftBy (form : ν → Str) (s : Stack ν π) : Option (Entry ν π) → Stack ν π
  | none => s
  | some e => e.2 :: tostring form e.1 :: s

/-! ### The search -/

variable {form : ν → Str} {t : Table ν π} {step : CStr}

omit [DecidableEq ν] [DecidableEq π] in
theorem tostring_plain {key : Val ν π} (h : ∀ n, key ≠ .number n) : tostring form key = key := by
  cases key with
  | number n => exact absurd rfl (h n)
  | _ => rfl

/-- One round of the search. -/
theorem traverse_entry {key : Val ν π} {e : Entry ν π} {rest : List (Entry ν π)}
    (h : t.rest key = some (e :: rest)) (fuel : ℕ) (s : Stack ν π) :
    traverse form t step (fuel + 1) (key :: s) =
      if reads step (tostring form e.1) then .ended (e.2 :: tostring form e.1 :: s)
      else traverse form t step fuel (tostring form e.1 :: s) := by
  obtain ⟨k, v⟩ := e
  rw [traverse, Table.next_cons h]
  cases k <;> rfl

theorem traverse_end {key : Val ν π} (h : t.rest key = some []) (fuel : ℕ) (s : Stack ν π) :
    traverse form t step (fuel + 1) (key :: s) = .ended s := by
  rw [traverse, Table.next_nil h]

theorem traverse_lost {key : Val ν π} (h : t.rest key = none) (fuel : ℕ) (s : Stack ν π) :
    traverse form t step (fuel + 1) (key :: s) = .raised := by
  rw [traverse, Table.next_none h]

/-- The search ends where the entries lead. -/
theorem traverse_leads {rest : List (Entry ν π)} {r : Option (Entry ν π)}
    (h : Leads form t step rest r) (s : Stack ν π) : ∀ {key : Val ν π}, t.rest key = some rest →
      ∃ fuel, traverse form t step fuel (key :: s) = .ended (leftBy form s r) := by
  induction h with
  | last => exact fun hkey => ⟨1, traverse_end hkey 0 s⟩
  | found e rest hread =>
    intro key hkey
    exact ⟨1, by rw [traverse_entry hkey, if_pos hread]; rfl⟩
  | on e hread hplain _ ih =>
    intro key hkey
    have hnext := Table.rest_entry (Table.rest_suffix hkey)
    obtain ⟨fuel, hfuel⟩ := ih hnext
    refine ⟨fuel + 1, ?_⟩
    rw [traverse_entry hkey, hread, tostring_plain hplain]
    exact hfuel
  | jump n v rest hread hnext _ ih =>
    intro key hkey
    obtain ⟨fuel, hfuel⟩ := ih hnext
    refine ⟨fuel + 1, ?_⟩
    rw [traverse_entry hkey, tostring, hread]
    exact hfuel

/-- A search that ends has come to where the entries lead. -/
theorem leads_of_traverse (s : Stack ν π) : ∀ {fuel : ℕ} {key : Val ν π} {rest : List (Entry ν π)}
    {s' : Stack ν π}, t.rest key = some rest →
      traverse form t step fuel (key :: s) = .ended s' →
        ∃ r, Leads form t step rest r ∧ s' = leftBy form s r
  | 0, _, _, _, _, h => by simp [traverse] at h
  | fuel + 1, key, [], s', hkey, h => by
    rw [traverse_end hkey, Ending.ended.injEq] at h
    exact ⟨none, .last, h.symm⟩
  | fuel + 1, key, e :: rest, s', hkey, h => by
    rw [traverse_entry hkey] at h
    cases hread : reads step (tostring form e.1) with
    | true =>
      rw [if_pos hread, Ending.ended.injEq] at h
      exact ⟨some e, .found e rest hread, h.symm⟩
    | false =>
      rw [if_neg (by simp [hread])] at h
      by_cases hnum : ∃ n, e.1 = .number n
      · obtain ⟨n, hn⟩ := hnum
        obtain ⟨k, v⟩ := e
        subst hn
        rw [tostring] at h hread
        cases hnext : t.rest (.string (form n)) with
        | none =>
          cases fuel with
          | zero => simp [traverse] at h
          | succ fuel =>
            rw [traverse_lost hnext] at h
            cases h
        | some rest' =>
          obtain ⟨r, hleads, hs⟩ := leads_of_traverse s hnext h
          exact ⟨r, .jump n v rest hread hnext hleads, hs⟩
      · have hplain : ∀ n, e.1 ≠ .number n := not_exists.mp hnum
        have hnext := Table.rest_entry (Table.rest_suffix hkey)
        rw [tostring_plain hplain] at h
        obtain ⟨r, hleads, hs⟩ := leads_of_traverse s hnext h
        exact ⟨r, .on e hread hplain hleads, hs⟩

/-- More fuel changes nothing. -/
theorem traverse_mono {s' : Stack ν π} : ∀ {fuel fuel' : ℕ} {s : Stack ν π}, fuel ≤ fuel' →
    traverse form t step fuel s = .ended s' → traverse form t step fuel' s = .ended s'
  | 0, _, _, _, h => by simp [traverse] at h
  | fuel + 1, fuel', [], _, h => by simp [traverse] at h
  | fuel + 1, fuel', key :: s, hle, h => by
    obtain ⟨fuel', rfl⟩ := Nat.exists_eq_add_of_le' (Nat.one_le_of_lt hle)
    cases hrest : t.rest key with
    | none => rw [traverse_lost hrest] at h; cases h
    | some rest =>
      cases rest with
      | nil =>
        rw [traverse_end hrest] at h ⊢
        exact h
      | cons e rest =>
        rw [traverse_entry hrest] at h ⊢
        by_cases hread : reads step (tostring form e.1) = true
        · rw [if_pos hread] at h ⊢
          exact h
        · rw [if_neg hread] at h ⊢
          exact traverse_mono (Nat.le_of_succ_le_succ hle) h

/-- The search comes to one place only. -/
theorem Leads.unique {rest : List (Entry ν π)} {r r' : Option (Entry ν π)} (h : Leads form t step rest r)
    (h' : Leads form t step rest r') : r' = r := by
  induction h with
  | last =>
    cases h'
    rfl
  | found e rest hread =>
    cases h' with
    | found => rfl
    | on _ hno => rw [hread] at hno; cases hno
    | jump _ _ _ hno => rw [tostring, hno] at hread; cases hread
  | on e hno hplain _ ih =>
    cases h' with
    | found _ _ hread => rw [hread] at hno; cases hno
    | on _ _ _ h' => exact ih h'
    | jump n => exact absurd rfl (hplain n)
  | jump n v rest hno hnext _ ih =>
    cases h' with
    | found _ _ hread => rw [tostring, hno] at hread; cases hread
    | on _ _ hplain => exact absurd rfl (hplain n)
    | jump _ _ _ _ hnext' h' =>
      rw [hnext, Option.some.injEq] at hnext'
      exact ih (hnext' ▸ h')

/-- With no number key before the first key that reads as the step the search comes to that key. -/
theorem leads_numbers {rest : List (Entry ν π)}
    (h : ∀ e ∈ rest.takeWhile (fun e => !reads step (tostring form e.1)), ∀ n, e.1 ≠ .number n) :
    Leads form t step rest (rest.find? fun e => reads step (tostring form e.1)) := by
  induction rest with
  | nil => exact .last
  | cons e rest ih =>
    cases hread : reads step (tostring form e.1) with
    | true =>
      rw [List.find?_cons, hread]
      exact .found e rest hread
    | false =>
      rw [List.takeWhile_cons_of_pos (by simp [hread]), List.forall_mem_cons] at h
      rw [List.find?_cons, hread]
      exact .on e hread h.1 (ih h.2)

/-- The search does not get past a number whose form is no key of the table. -/
theorem leads_lost {n : ν} {v : Val ν π} {a b : List (Entry ν π)} {r : Option (Entry ν π)}
    (ha : ∀ e ∈ a, (∀ m, e.1 ≠ .number m) ∧ reads step (tostring form e.1) = false)
    (hread : reads step (.string (form n) : Val ν π) = false) (hlost : t.rest (.string (form n)) = none) :
    ¬ Leads form t step (a ++ (.number n, v) :: b) r := by
  induction a with
  | nil =>
    intro h
    cases h with
    | found _ _ hfound => rw [tostring, hread] at hfound; cases hfound
    | on _ _ hplain => exact hplain n rfl
    | jump _ _ _ _ hnext => rw [hlost] at hnext; cases hnext
  | cons e a ih =>
    obtain ⟨⟨hplain, hno⟩, ha⟩ := List.forall_mem_cons.mp ha
    intro h
    cases h with
    | found _ _ hfound => rw [hno] at hfound; cases hfound
    | on _ _ _ h => exact ih ha h
    | jump m => exact hplain m rfl

omit [DecidableEq ν] [DecidableEq π] in
/-- There is no number key before the first key that reads as the step, or there is a first one. -/
theorem number_cases (form : ν → Str) (step : CStr) (rest : List (Entry ν π)) :
    (∀ e ∈ rest.takeWhile (fun e => !reads step (tostring form e.1)), ∀ n, e.1 ≠ .number n) ∨
      ∃ a n v b, rest = a ++ (.number n, v) :: b ∧
        (∀ e ∈ a, (∀ m, e.1 ≠ .number m) ∧ reads step (tostring form e.1) = false) ∧
        reads step (.string (form n) : Val ν π) = false := by
  induction rest with
  | nil => exact .inl nofun
  | cons e rest ih =>
    cases hread : reads step (tostring form e.1) with
    | true => exact .inl (by rw [List.takeWhile_cons_of_neg (by simp [hread])]; exact nofun)
    | false =>
      by_cases hnum : ∃ n, e.1 = .number n
      · obtain ⟨n, hn⟩ := hnum
        obtain ⟨k, v⟩ := e
        obtain rfl : k = .number n := hn
        exact .inr ⟨[], n, v, rest, rfl, nofun, hread⟩
      · have hplain : ∀ n, e.1 ≠ .number n := not_exists.mp hnum
        rw [List.takeWhile_cons_of_pos (by simp [hread]), List.forall_mem_cons]
        rcases ih with ih | ⟨a, n, v, b, rfl, ha, hn⟩
        · exact .inl ⟨hplain, ih⟩
        · exact .inr ⟨e :: a, n, v, b, rfl, List.forall_mem_cons.mpr ⟨⟨hplain, hread⟩, ha⟩, hn⟩

/-- In traversal order no number key stands before the first key that reads as the step, and what is
    stored there is what is stored under the step's own key. -/
structure Straight (form : ν → Str) (t : Table ν π) (step : CStr) : Prop where
  numbers : ∀ e ∈ t.entries.takeWhile (fun e => !reads step (tostring form e.1)), ∀ n, e.1 ≠ .number n
  value : (t.entries.find? fun e => reads step (tostring form e.1)).map Prod.snd =
    t.get (.string step.1)

/-- The first number key before the step has its form among the keys of the table. -/
def Doubled (form : ν → Str) (t : Table ν π) (step : CStr) : Prop :=
  ∃ a n v b, t.entries = a ++ (.number n, v) :: b ∧
    (∀ e ∈ a, (∀ m, e.1 ≠ .number m) ∧ reads step (tostring form e.1) = false) ∧
    t.get (.string (form n)) ≠ none

/-! ### The step -/

variable {H : Host ν} {call : Val ν π → Val ν π → Called ν π} {L : ℕ} {p : LuaSide ν π}

omit [DecidableEq ν] [DecidableEq π] in
/-- The two swaps leave the value and below it the table, and the call takes both. -/
theorem callStep_entry (value key self : Val ν π) (s : Stack ν π) :
    callStep H call (self :: s).length (value :: key :: self :: s) =
      if H.reports (call value self) then .ended ⟨answerOf (call value self), s, [(value, self)]⟩
      else .undefined := by
  have hlow : ¬ s.length + 1 < s.length := by omega
  rw [callStep, Lua.swap, List.drop_succ_cons, List.drop_zero, Lua.swap, pcall, callOf]
  cases call value self with
  | raised err => cases hprints : H.prints err <;> simp [answerOf, Host.reports, hprints, hlow]
  | returned results =>
    cases results with
    | nil => simp [answerOf, Host.reports, hlow]
    | cons r results => cases r <;> simp [answerOf, Host.reports, hlow]

/-- What a step comes to by what the search finds. -/
def stepOutcome (call : Val ν π → Val ν π → Called ν π) (self : Val ν π) (s : Stack ν π) :
    Option (Entry ν π) → StepResult ν π
  | none => ⟨true, self :: s, []⟩
  | some e => ⟨answerOf (call e.2 self), s, [(e.2, self)]⟩

theorem doBuildStep_foreign (h : p.m_L ≠ some L) (fuel : ℕ) (s : Stack ν π) :
    doBuildStep H call L p step fuel s = .ended ⟨false, s, []⟩ := if_pos h

theorem doBuildStep_search (h : p.m_L = some L) {fuel : ℕ} {s : Stack ν π} (hfits : H.fits p s = true)
    {r : Option (Entry ν π)} (hsearch : traverse H.form p.table step fuel (.nil :: p.self :: s) =
      .ended (leftBy H.form (p.self :: s) r)) :
    doBuildStep H call L p step fuel s =
      if r.all fun e => H.reports (call e.2 p.self) then .ended (stepOutcome call p.self s r)
      else .undefined := by
  have hheight : ¬ (p.self :: s).length < 1 := by simp
  rw [doBuildStep, if_neg (not_not_intro h), if_neg (by simp [hfits])]
  dsimp only
  rw [if_neg hheight, hsearch]
  cases r with
  | none => simp [leftBy, stepOutcome]
  | some e =>
    have habove : (leftBy H.form (p.self :: s) (some e)).length > (p.self :: s).length := by
      simp [leftBy]
    dsimp only
    rw [if_pos habove, leftBy, callStep_entry, stepOutcome]
    rfl

/-- A step of a project of this Lua state ends where its table leads, when the stack has room and what is
    said of the call is defined. -/
theorem doBuildStep_ended (H : Host ν) (call : Val ν π → Val ν π → Called ν π) (h : p.m_L = some L)
    (s : Stack ν π) {out : StepResult ν π} :
    (∃ fuel, doBuildStep H call L p step fuel s = .ended out) ↔
      H.fits p s = true ∧ ∃ r, Leads H.form p.table step p.table.entries r ∧
        (r.all fun e => H.reports (call e.2 p.self)) = true ∧ out = stepOutcome call p.self s r := by
  constructor
  · rintro ⟨fuel, hfuel⟩
    cases hfits : H.fits p s with
    | false => simp [doBuildStep, h, hfits] at hfuel
    | true =>
      cases hsearch : traverse H.form p.table step fuel (.nil :: p.self :: s) with
      | running => simp [doBuildStep, h, hfits, hsearch] at hfuel
      | raised => simp [doBuildStep, h, hfits, hsearch] at hfuel
      | undefined => simp [doBuildStep, h, hfits, hsearch] at hfuel
      | ended s' =>
        obtain ⟨r, hleads, rfl⟩ := leads_of_traverse _ Table.rest_nil hsearch
        rw [doBuildStep_search h hfits hsearch] at hfuel
        split at hfuel
        · rename_i hall
          rw [Ending.ended.injEq] at hfuel
          exact ⟨rfl, r, hleads, hall, hfuel.symm⟩
        · cases hfuel
  · rintro ⟨hfits, r, hleads, hall, rfl⟩
    obtain ⟨fuel, hfuel⟩ := traverse_leads hleads (p.self :: s) Table.rest_nil
    exact ⟨fuel, by rw [doBuildStep_search h hfits hfuel, if_pos hall]⟩

/-- What the search is to find, from the table, the room on the stack and the callback. -/
def LuaSide.Good (H : Host ν) (call : Val ν π → Val ν π → Called ν π) (L : ℕ) (p : LuaSide ν π)
    (step : CStr) (s : Stack ν π) : Prop :=
  if p.m_L = some L then
    Straight H.form p.table step ∧ H.fits p s = true ∧
      ∀ v, p.table.get (.string step.1) = some v → H.reports (call v p.self) = true
  else p.table.get (.string step.1) = none

/-- On straight tables the search comes to the value stored under the step's key. -/
theorem Straight.leads (h : Straight form t step) : ∃ r, Leads form t step t.entries r ∧
    r.map Prod.snd = t.get (.string step.1) := ⟨_, leads_numbers h.numbers, h.value⟩

omit [DecidableEq ν] [DecidableEq π] in
theorem all_reports {r : Option (Entry ν π)} {self : Val ν π} {o : Option (Val ν π)}
    (h : r.map Prod.snd = o) : (r.all fun e => H.reports (call e.2 self)) = true ↔
      ∀ v, o = some v → H.reports (call v self) = true := by
  subst h
  cases r <;> simp

omit [DecidableEq ν] [DecidableEq π] in
theorem stepOutcome_calls {self : Val ν π} {s : Stack ν π} {r : Option (Entry ν π)} {o : Option (Val ν π)} :
    (stepOutcome call self s r).calls = (o.map fun v => (v, self)).toList ↔ r.map Prod.snd = o := by
  cases r <;> cases o <;> simp [stepOutcome]

/-- The step ends and makes the one call it is to make when no number key comes before the step's entry,
    the stack has room and the error that the callback may raise can be printed; and only then, unless the
    search goes on behind the string form of a number key. -/
theorem doBuildStep_calls (H : Host ν) (call : Val ν π → Val ν π → Called ν π) (L : ℕ) (p : LuaSide ν π)
    (step : CStr) (s : Stack ν π) :
    (p.Good H call L step s → ∃ fuel out, doBuildStep H call L p step fuel s = .ended out ∧
      out.calls = ((p.table.get (.string step.1)).map fun v => (v, p.self)).toList) ∧
    ((∃ fuel out, doBuildStep H call L p step fuel s = .ended out ∧
      out.calls = ((p.table.get (.string step.1)).map fun v => (v, p.self)).toList) →
        p.Good H call L step s ∨ Doubled H.form p.table step) := by
  rw [LuaSide.Good]
  split
  · rename_i h
    constructor
    · rintro ⟨hstraight, hfits, hreports⟩
      obtain ⟨r, hleads, hr⟩ := hstraight.leads
      obtain ⟨fuel, hfuel⟩ := (doBuildStep_ended H call h s).mpr
        ⟨hfits, r, hleads, (all_reports hr).mpr hreports, rfl⟩
      exact ⟨fuel, _, hfuel, stepOutcome_calls.mpr hr⟩
    · rintro ⟨fuel, out, hfuel, hout⟩
      obtain ⟨hfits, r, hleads, hall, rfl⟩ := (doBuildStep_ended H call h s).mp ⟨fuel, hfuel⟩
      have hr := stepOutcome_calls.mp hout
      rcases number_cases H.form step p.table.entries with hnumbers | ⟨a, n, v, b, hsplit, ha, hn⟩
      · have hfind := (leads_numbers hnumbers).unique hleads
        exact .inl ⟨⟨hnumbers, hfind ▸ hr⟩, hfits, (all_reports hr).mp hall⟩
      · refine .inr ⟨a, n, v, b, hsplit, ha, fun hget => ?_⟩
        have hlost : p.table.rest (.string (H.form n)) = none := (Table.rest_none_iff (by simp)).mpr hget
        rw [hsplit] at hleads
        exact leads_lost ha hn hlost hleads
  · rename_i h
    constructor
    · exact fun hget => ⟨0, _, doBuildStep_foreign h 0 s, by rw [hget]; rfl⟩
    · rintro ⟨fuel, out, hfuel, hout⟩
      rw [doBuildStep_foreign h, Ending.ended.injEq] at hfuel
      subst hfuel
      cases hget : p.table.get (.string step.1) with
      | none => exact .inl rfl
      | some v => simp [hget] at hout

/-- The form of whole numbers. -/
def decimal (n : ℕ) : Str := Nat.toDigits 10 n

/-- Whole numbers, and no more slots than Lua promises. -/
def minHost : Host ℕ := ⟨decimal, 20, false⟩

def preStep : CStr := ⟨"pre".toList, by decide⟩

def postStep : CStr := ⟨"post".toList, by decide⟩

/-- A project table in which the makefile has stored something at index 1. -/
def indexed : LuaSide ℕ ℕ where
  m_L := some 0
  self := .table 0
  table :=
    { entries := [(.number 1, .boolean true), (.string "pre".toList, .function 0)]
      keys := by simp
      stored := by simp }

/-- Its pre step is not called: the search fails. -/
theorem indexed_raises (call : Val ℕ ℕ → Val ℕ ℕ → Called ℕ ℕ) (s : Stack ℕ ℕ) :
    ∀ fuel out, doBuildStep minHost call 0 indexed preStep fuel s ≠ .ended out := by
  intro fuel out h
  obtain ⟨-, r, hleads, -⟩ := (doBuildStep_ended minHost call rfl s).mp ⟨fuel, h⟩
  exact leads_lost (a := []) nofun (by decide) (by decide) hleads

/-- A callback that returns true. -/
def returnsTrue : Val ℕ ℕ → Val ℕ ℕ → Called ℕ ℕ := fun _ _ => .returned [.boolean true]

theorem indexed_pre : indexed.table.get (.string "pre".toList) = some (.function 0) ∧
    (match doBuildStep minHost returnsTrue 0 indexed preStep 2 [] with
      | .raised => True
      | _ => False) ∧
    ¬ ∃ fuel out, doBuildStep minHost returnsTrue 0 indexed preStep fuel [] = .ended out ∧
      out.calls = [(.function 0, .table 0)] := by
  refine ⟨by decide, ?_, ?_⟩
  · have hround : doBuildStep minHost returnsTrue 0 indexed preStep 2 [] = .raised := rfl
    rw [hround]
    trivial
  · rintro ⟨fuel, out, h, _⟩
    exact indexed_raises returnsTrue [] fuel out h

end Cake
