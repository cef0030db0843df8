import Cake.BuildStep
import Cake.Stores

/-! The table of a project as the Lua core keeps it.

    What a makefile stores goes into an array and a hash part that grow and are filled anew as keys come;
    `do_build_step` reads them with `lua_next`. For it they are a list of entries, in some order, with what
    was stored last under each key.

        p.pre = f; p[1] = x; …  ──▶  array, nodes  ──lua_next──▶  entries  ──▶  f -/

namespace Cake

open Lua (Val Entry Stack isString tostring)

variable {ν π : Type}

/-- What an entry can have as its value. -/
abbrev NonNil (ν π : Type) := { v : Val ν π // v ≠ .nil }

/-- The keys of Lua: integers are numbers, and some numbers are none. -/
structure LuaKeys (ν π : Type) extends Ltable.Keys (Val ν π) where
  isNaN : ν → Bool
  num_number : ∀ i, ∃ n, num i = .number n

section Code

variable [DecidableEq ν] [DecidableEq π] (K : LuaKeys ν π)

/-- What is assigned; none for nil. -/
def tvalue (v : Val ν π) : Option (NonNil ν π) := if h : v = .nil then none else some ⟨v, h⟩

/-- The error "table index is nil" or "table index is NaN" of `luaH_set` is not raised. -/
def validKey : Val ν π → Bool
  | .nil => false
  | .number n => !K.isNaN n
  | _ => true

/-- `lua_settable` on a table without a metatable. A key that raises an error changes nothing; none is for
    the error of a table that is too large. -/
def settable (t : Ltable.Table (Val ν π) (NonNil ν π)) (e : Entry ν π) :
    Option (Ltable.Table (Val ν π) (NonNil ν π)) :=
  if validKey K e.1 then
    match Ltable.set K.toKeys 1 t e.1 (tvalue e.2) with
    | .ok t => some t
    | _ => none
  else some t

/-- One store after the other. -/
def settables : List (Entry ν π) → Ltable.Table (Val ν π) (NonNil ν π) →
    Option (Ltable.Table (Val ν π) (NonNil ν π))
  | [], t => some t
  | e :: stores, t => (settable K t e).bind (settables stores)

/-- `lua_next`, by the key on the stack: the entry, `some none` at the end, none for an error. -/
def luaNext (t : Ltable.Table (Val ν π) (NonNil ν π)) (key : Val ν π) : Option (Option (Entry ν π)) :=
  (t.next K.toKeys (if key = .nil then none else some key)).map (Option.map fun e => (e.1, e.2.1))

/-- The loop of `do_build_step`, over a `lua_next`. -/
def traverseBy (next : Val ν π → Option (Option (Entry ν π))) (form : ν → Str) (step : CStr) :
    ℕ → Stack ν π → Ending (Stack ν π)
  | 0, _ => .running
  | _ + 1, [] => .raised
  | fuel + 1, key :: s =>
    match next key with
    | none => .raised
    | some none => .ended s
    | some (some (key, value)) =>
      if isString key then
        let key := tostring form key
        if reads step key then .ended (value :: key :: s) else traverseBy next form step fuel (key :: s)
      else traverseBy next form step fuel (key :: s)

/-- The stores that raise no error. -/
def assigned (stores : List (Entry ν π)) : List (Val ν π × Option (NonNil ν π)) :=
  (stores.filter fun e => validKey K e.1).map fun e => (e.1, tvalue e.2)

/-- What is stored last under a key; none for nothing, or nil. -/
def lastStored (stores : List (Entry ν π)) (key : Val ν π) : Option (NonNil ν π) :=
  Ltable.stored (fun _ => none) (assigned K stores) key

end Code

variable [DecidableEq ν] [DecidableEq π] {K : LuaKeys ν π} {stores : List (Entry ν π)}
  {t : Ltable.Table (Val ν π) (NonNil ν π)}

theorem settables_run (stores : List (Entry ν π)) (t : Ltable.Table (Val ν π) (NonNil ν π)) :
    settables K stores t = match Ltable.runStores K.toKeys 1 (assigned K stores) t with
      | .ok t => some t
      | _ => none := by
  induction stores generalizing t with
  | nil => rfl
  | cons e stores ih =>
    rw [settables, settable]
    cases hvalid : validKey K e.1 with
    | false =>
      rw [assigned, List.filter_cons_of_neg (by simp [hvalid]), if_neg (by simp), Option.bind_some]
      exact ih t
    | true =>
      rw [assigned, List.filter_cons_of_pos (by simp [hvalid]), if_pos rfl, List.map_cons, Ltable.runStores]
      cases Ltable.set K.toKeys 1 t e.1 (tvalue e.2) with
      | ok t => exact ih t
      | overflow => rfl
      | stuck => rfl

/-- The entries as `do_build_step` sees them. -/
def viewed (K : LuaKeys ν π) (t : Ltable.Table (Val ν π) (NonNil ν π)) : List (Entry ν π) :=
  (t.entries K.toKeys).map fun e => (e.1, e.2.1)

/-! ### The entries -/

omit [DecidableEq ν] [DecidableEq π] in
theorem validKey_ne_nil {key : Val ν π} (h : validKey K key = true) : key ≠ .nil := by
  rintro rfl
  cases h

/-- A table after some stores. -/
structure Stocked (K : LuaKeys ν π) (stores : List (Entry ν π))
    (t : Ltable.Table (Val ν π) (NonNil ν π)) : Prop where
  proper : t.Proper K.toKeys
  get : ∀ key, t.get K.toKeys key = lastStored K stores key
  live : ∀ key, lastStored K stores key ≠ none → key ≠ .nil ∧ key ∈ stores.map Prod.fst
  nodes : ∀ p key, (t.hash.nodes p).key = some key → key ∈ stores.map Prod.fst
  length : (t.entries K.toKeys).length ≤ stores.length

/-- A makefile that stores less than a table can have nodes comes to its end. -/
theorem settables_stocked (K : LuaKeys ν π) (h : stores.length ≤ 2 ^ 26) :
    ∃ t, settables K stores Ltable.Table.new = some t ∧ Stocked K stores t := by
  have hkeys : ∀ key ∈ ((assigned K stores).map Prod.fst).reverse ++ [],
      validKey K key = true ∧ key ∈ stores.map Prod.fst := by
    intro key hkey
    rw [List.append_nil, List.mem_reverse, assigned, List.map_map] at hkey
    obtain ⟨e, he, rfl⟩ := List.mem_map.mp hkey
    obtain ⟨hmem, hvalid⟩ := List.mem_filter.mp he
    exact ⟨hvalid, List.mem_map_of_mem hmem⟩
  rw [settables_run]
  obtain ⟨-, hlarge⟩ | ⟨t, heq, ht⟩ := Ltable.runStores_ok (Ltable.Holds.new K.toKeys) 0 (assigned K stores)
  · rw [List.length_nil, assigned, List.length_map, Nat.zero_add] at hlarge
    exact absurd (hlarge.trans_le ((List.length_filter_le _ _).trans h)) (Nat.lt_irrefl _)
  · rw [heq]
    refine ⟨t, rfl, ht.proper, ht.get, fun key hkey => ?_,
      fun p key hp => (hkeys key (ht.nodes p key hp)).2, ?_⟩
    · obtain ⟨hvalid, hmem⟩ := hkeys key (ht.live key hkey)
      exact ⟨validKey_ne_nil hvalid, hmem⟩
    · have hle := ht.length_le
      rw [List.append_nil, List.length_reverse, List.length_map, assigned, List.length_map] at hle
      exact hle.trans (List.length_filter_le _ _)

/-- The table as `do_build_step` sees it. -/
def Stocked.view (h : Stocked K stores t) : Lua.Table ν π where
  entries := viewed K t
  keys := by
    rw [viewed, List.map_map]
    exact Ltable.nodup_entries h.proper
  stored e he := by
    obtain ⟨e, hmem, rfl⟩ := List.mem_map.mp he
    have hget := (Ltable.mem_entries h.proper).mp hmem
    rw [h.get] at hget
    exact ⟨(h.live e.1 (by rw [hget]; exact Option.some_ne_none e.2)).1, e.2.2⟩

theorem Stocked.mem_viewed (h : Stocked K stores t) {key : Val ν π} {v : NonNil ν π} :
    (key, v.1) ∈ viewed K t ↔ lastStored K stores key = some v := by
  rw [← h.get, ← Ltable.mem_entries h.proper, viewed, List.mem_map]
  constructor
  · rintro ⟨⟨k, w⟩, hmem, heq⟩
    rw [Prod.mk.injEq] at heq
    obtain ⟨rfl, hval⟩ := heq
    exact Subtype.ext hval ▸ hmem
  · exact fun hmem => ⟨(key, v), hmem, rfl⟩

/-- Under a key is what was stored last. -/
theorem Stocked.view_get (h : Stocked K stores t) (key : Val ν π) :
    h.view.get key = (lastStored K stores key).map Subtype.val := by
  rw [Lua.Table.get]
  cases hfind : h.view.entries.find? fun e => e.1 = key with
  | none =>
    cases hlast : lastStored K stores key with
    | none => rfl
    | some v =>
      have hnot := List.find?_eq_none.mp hfind _ (h.mem_viewed.mpr hlast)
      simp at hnot
  | some e =>
    obtain ⟨k, v⟩ := e
    obtain rfl : k = key := by simpa using List.find?_some hfind
    have hmem := List.mem_of_find?_eq_some hfind
    obtain ⟨⟨k', w⟩, -, heq⟩ := List.mem_map.mp hmem
    rw [Prod.mk.injEq] at heq
    obtain ⟨-, rfl⟩ := heq
    rw [h.mem_viewed.mp hmem]
    rfl

omit [DecidableEq ν] [DecidableEq π] in
theorem after_eq_none [DecidableEq ν] [DecidableEq π] {key : Val ν π} {entries : List (Entry ν π)}
    (h : key ∉ entries.map Prod.fst) : Lua.after key entries = none := by
  induction entries with
  | nil => rfl
  | cons e entries ih =>
    rw [List.map_cons, List.mem_cons, not_or] at h
    rw [Lua.after, if_neg (Ne.symm h.1)]
    exact ih h.2

/-- A key that a traversal can have: the start, a key that has a value, or a string that is no key. -/
def Passable (K : LuaKeys ν π) (stores : List (Entry ν π)) (key : Val ν π) : Prop :=
  key = .nil ∨ lastStored K stores key ≠ none ∨ (∃ s, key = .string s) ∧ key ∉ stores.map Prod.fst

/-- `lua_next` goes through the entries. -/
theorem Stocked.next_eq (h : Stocked K stores t) {key : Val ν π} (hkey : Passable K stores key) :
    luaNext K t key = h.view.next key := by
  have hconv : ∀ l : List (Val ν π × NonNil ν π),
      l.head?.map (fun e => (e.1, e.2.1)) = (l.map fun e => (e.1, e.2.1)).head? := fun l => List.head?_map.symm
  rw [luaNext, Ltable.next_eq, Option.map_map]
  rcases hkey with rfl | hlive | ⟨⟨s, rfl⟩, hunknown⟩
  · rw [if_pos rfl, Lua.Table.next, Lua.Table.rest_nil]
    simp only [Ltable.Table.findindex, Option.map_some, Function.comp_apply, Ltable.entriesFrom_zero, hconv]
    rfl
  · obtain ⟨v, hv⟩ := Option.ne_none_iff_exists'.mp hlive
    obtain ⟨i, hi, hcons⟩ := Ltable.findindex_entry h.proper ((h.get key).trans hv)
    have hsuffix := (Ltable.entriesFrom_suffix (K := K.toKeys) t i).map fun e => (e.1, e.2.1)
    rw [hcons, List.map_cons] at hsuffix
    have hrest : h.view.rest key = some ((t.entriesFrom K.toKeys (i + 1)).map fun e => (e.1, e.2.1)) :=
      Lua.Table.rest_entry (e := (key, v.1)) hsuffix
    rw [if_neg (h.live key hlive).1, hi, Lua.Table.next, hrest, Option.map_some, Option.map_some,
      Function.comp_apply, hconv]
  · have hloc : t.locate K.toKeys (.string s) = none := by
      refine (Ltable.locate_none_iff h.proper).mpr ⟨fun hin => ?_, fun p hp => hunknown (h.nodes p _ hp)⟩
      obtain ⟨i, hi, -⟩ := hin
      obtain ⟨n, hn⟩ := K.num_number i
      have hstring := (K.of_arrayindex _ i hi).2
      rw [hn] at hstring
      cases hstring
    have hnone : h.view.rest (.string s) = none := by
      rw [Lua.Table.rest_key (by simp)]
      refine after_eq_none fun hmem => hunknown ?_
      obtain ⟨e, hviewed, heq⟩ := List.mem_map.mp hmem
      obtain ⟨⟨k, v⟩, hentry, rfl⟩ := List.mem_map.mp hviewed
      obtain rfl : k = .string s := heq
      have hget := (Ltable.mem_entries h.proper).mp hentry
      rw [h.get] at hget
      exact (h.live _ (by rw [hget]; exact Option.some_ne_none v)).2
    rw [if_neg (by simp), Lua.Table.next, hnone, Ltable.Table.findindex, hloc]
    rfl

/-! ### The search -/

/-- The search is the same over any `lua_next` that agrees where a traversal comes. -/
theorem traverseBy_eq {next : Val ν π → Option (Option (Entry ν π))} {T : Lua.Table ν π} {form : ν → Str}
    {step : CStr} {P : Val ν π → Prop} (hnext : ∀ key, P key → next key = T.next key)
    (hon : ∀ e ∈ T.entries, P (tostring form e.1)) (fuel : ℕ) {key : Val ν π} (s : Stack ν π) (hkey : P key) :
    traverseBy next form step fuel (key :: s) = traverse form T step fuel (key :: s) := by
  induction fuel generalizing key with
  | zero => rfl
  | succ fuel ih =>
    rw [traverseBy, traverse, hnext key hkey]
    cases hfound : T.next key with
    | none => rfl
    | some o =>
      cases o with
      | none => rfl
      | some e =>
        obtain ⟨k, v⟩ := e
        have hmem : (k, v) ∈ T.entries := by
          obtain ⟨rest, hrest, hhead⟩ := Option.map_eq_some_iff.mp hfound
          exact (Lua.Table.rest_suffix hrest).subset (List.mem_of_mem_head? hhead)
        have hP := hon _ hmem
        dsimp only
        split
        · rw [ih hP]
        · rename_i hstring
          have hplain : tostring form k = k := by cases k <;> first | rfl | exact absurd rfl hstring
          rw [hplain] at hP
          exact ih hP

/-- The Lua core keeps a project table as a list of entries, each with what was stored last under its
    key, and `do_build_step` goes through them one after the other: through all growth of the table, and
    whatever the hashes of the keys are. -/
theorem settables_refine (K : LuaKeys ν π) (form : ν → Str) (h : stores.length ≤ 2 ^ 26) :
    ∃ t T, settables K stores Ltable.Table.new = some t ∧
      (∀ key, T.get key = (lastStored K stores key).map Subtype.val) ∧
      (∀ key, Passable K stores key → luaNext K t key = T.next key) ∧
      ((∀ n, lastStored K stores (.number n) ≠ none → Passable K stores (.string (form n))) →
        ∀ step fuel s, traverseBy (luaNext K t) form step fuel (.nil :: s) =
          traverse form T step fuel (.nil :: s)) := by
  obtain ⟨t, hrun, ht⟩ := settables_stocked K h
  refine ⟨t, ht.view, hrun, ht.view_get, fun key => ht.next_eq, fun hform step fuel s => ?_⟩
  refine traverseBy_eq (fun key => ht.next_eq) (fun e he => ?_) fuel s (.inl rfl)
  obtain ⟨⟨k, v⟩, hentry, rfl⟩ := List.mem_map.mp he
  have hlive : lastStored K stores k ≠ none := by
    rw [← ht.get, (Ltable.mem_entries ht.proper).mp hentry]
    exact Option.some_ne_none v
  cases k with
  | number n => exact hform n hlive
  | _ => exact .inr (.inl hlive)

/-- Natural numbers as numbers, and some hash. -/
def wholeKeys : LuaKeys ℕ ℕ where
  arrayindex
    | .number n => if 0 < n then some n else none
    | _ => none
  num i := .number i
  mainposition size
    | .number n => n % size
    | .string s => s.length % size
    | _ => 0
  arrayindex_num i hi _ := if_pos hi
  of_arrayindex k i h := by
    cases k with
    | number n =>
      obtain ⟨hpos, rfl⟩ := Option.ite_none_right_eq_some.mp h |>.imp_right Option.some.inj
      exact ⟨hpos, rfl⟩
    | _ => cases h
  mainposition_lt size k hsize := by
    cases k with
    | number n => exact Nat.mod_lt n hsize
    | string s => exact Nat.mod_lt s.length hsize
    | _ => exact hsize
  isNaN _ := false
  num_number i := ⟨i, rfl⟩

/-- A step, something at index 1, and the step again. -/
theorem settables_refine_three : ∃ t, ∃ T : Lua.Table ℕ ℕ, settables wholeKeys
    [(.string "pre".toList, .function 0), (.number 1, .boolean true), (.string "pre".toList, .function 1)]
      Ltable.Table.new = some t ∧ T.get (.string "pre".toList) = some (.function 1) ∧
        luaNext wholeKeys t .nil = T.next .nil := by
  obtain ⟨t, T, hrun, hget, hnext, -⟩ := @settables_refine ℕ ℕ _ _
    [(.string "pre".toList, .function 0), (.number 1, .boolean true), (.string "pre".toList, .function 1)]
    wholeKeys decimal (by decide)
  exact ⟨t, T, hrun, (hget _).trans (by decide), hnext .nil (.inl rfl)⟩

/-! ### The sizes -/

/-- A table is made larger only when every node is taken. Then the array part gets the largest size of
    which more than half is in use, and the hash part as many nodes as there are other keys, rounded up;
    what is stored stays. -/
theorem settables_rehash (h : stores.length < 2 ^ 26) (hrun : settables K stores Ltable.Table.new = some t)
    {key : Val ν π} (hkey : t.locate K.toKeys key = none)
    (hfull : t.hash.newkey (K.mainposition t.hash.size) key = some none) (fuel : ℕ) :
    (t.hash.dummy = true ∨ ∀ p < t.hash.size, (t.hash.nodes p).key ≠ none) ∧
      ∃ t', Ltable.rehash K.toKeys (Ltable.set K.toKeys fuel) t key = .ok t' ∧
        IsGreatest {n | Ltable.Suits ((t.keysWith K.toKeys key).filterMap K.arrayindex) n} t'.array.length ∧
        t'.hash.size = 2 ^ Ltable.ceillog2
          ((t.keysWith K.toKeys key).filter (Ltable.beyond K.toKeys t'.array.length)).length ∧
        ∀ c, t'.get K.toKeys c = lastStored K stores c := by
  obtain ⟨u, hu, ht⟩ := settables_stocked K h.le
  obtain rfl : u = t := Option.some.inj (hu.symm.trans hrun)
  have hnone : u.get K.toKeys key = none := by rw [Ltable.Table.get, hkey, Option.bind_none]
  constructor
  · obtain ⟨-, hall⟩ | ⟨hash, p, hnew, -⟩ :=
      ht.proper.hash.newkey ((Ltable.locate_none_iff ht.proper).mp hkey).2
    · exact hall
    · rw [hfull] at hnew
      cases hnew
  · obtain ⟨-, hlarge⟩ | ⟨t', hok, hrehashed⟩ := Ltable.rehash_ok ht.proper fuel key
    · exact absurd (hlarge.trans ht.length) (Nat.not_le.mpr h)
    · exact ⟨t', hok, hrehashed.length hnone, hrehashed.size, fun c => (hrehashed.get c).trans (ht.get c)⟩

/-- The first key of a table. -/
theorem settables_rehash_first : ∃ t' : Ltable.Table (Val ℕ ℕ) (NonNil ℕ ℕ),
    Ltable.rehash wholeKeys.toKeys (Ltable.set wholeKeys.toKeys 0) Ltable.Table.new (.string "pre".toList) =
      .ok t' ∧ t'.hash.size = 1 := by
  obtain ⟨-, t', hok, -, hsize, -⟩ := @settables_rehash ℕ ℕ _ _ wholeKeys [] Ltable.Table.new (by decide) rfl
    (.string "pre".toList) rfl rfl 0
  exact ⟨t', hok, hsize.trans rfl⟩

end Cake
