import Mathlib.Data.List.Nodup
import Mathlib.Data.Nat.Notation

/-! Values and tables of Lua 5.1 as its C interface shows them, and the part of that interface that works
    on a stack.

    The type of numbers `ν` and of pointers `π` are any. A stack is a list, its top first. A table is
    the list of its entries in the order `lua_next` goes through them; a traversal keeps nothing but
    the key on the stack and resumes after the entry with that key, wherever that is.

        lua_next     key :: s  ──▶  value :: key' :: s     the entry after key
                               ──▶  s                      no entry after key
                               ──▶  error                  key not in the table -/

namespace Lua

inductive Val (ν π : Type) where
  | nil
  | boolean (b : Bool)
  | number (n : ν)
  | string (s : List Char)
  | table (id : ℕ)
  | function (id : ℕ)
  | userdata (p : π)
  | lightuserdata (p : π)
  | thread (id : ℕ)
  deriving DecidableEq

variable {ν π : Type}

abbrev Stack (ν π : Type) := List (Val ν π)

abbrev Entry (ν π : Type) := Val ν π × Val ν π

/-- The entries in traversal order. A key occurs once, and nil is no key and no value. -/
structure Table (ν π : Type) where
  entries : List (Entry ν π)
  keys : (entries.map Prod.fst).Nodup
  stored : ∀ e ∈ entries, e.1 ≠ .nil ∧ e.2 ≠ .nil

/-- `lua_isstring`. -/
def isString : Val ν π → Bool
  | .string _ | .number _ => true
  | _ => false

/-- What `lua_tostring` leaves in the slot: a number becomes its string form. -/
def tostring (form : ν → List Char) : Val ν π → Val ν π
  | .number n => .string (form n)
  | v => v

/-- `lua_touserdata`; none is the null pointer. -/
def touserdata : Val ν π → Option π
  | .userdata p | .lightuserdata p => some p
  | _ => none

/-- `lua_insert(L, -2)`. -/
def swap : Stack ν π → Stack ν π
  | a :: b :: s => b :: a :: s
  | s => s

/-- How a called value ends; a value that cannot be called raises an error. -/
inductive Called (ν π : Type) where
  | returned (results : List (Val ν π))
  | raised (err : Val ν π)

/-- `lua_pcall(L, 1, 1, 0)`: whether there was an error, and the stack. -/
def pcall (call : Val ν π → Val ν π → Called ν π) : Stack ν π → Bool × Stack ν π
  | arg :: fn :: s =>
    match call fn arg with
    | .returned results => (false, results.headD .nil :: s)
    | .raised err => (true, err :: s)
  | s => (false, s)

variable [DecidableEq ν] [DecidableEq π]

/-- The entries after the one with this key; none when there is none. -/
def after (key : Val ν π) : List (Entry ν π) → Option (List (Entry ν π))
  | [] => none
  | e :: rest => if e.1 = key then some rest else after key rest

namespace Table

/-- What a traversal has before it when `key` is on the stack. -/
def rest (t : Table ν π) (key : Val ν π) : Option (List (Entry ν π)) :=
  if key = .nil then some t.entries else after key t.entries

/-- The entry `lua_next` gives; `some none` at the end, none for an error. -/
def next (t : Table ν π) (key : Val ν π) : Option (Option (Entry ν π)) := (t.rest key).map List.head?

/-- The raw value of a key. -/
def get (t : Table ν π) (key : Val ν π) : Option (Val ν π) :=
  (t.entries.find? (fun e => e.1 = key)).map Prod.snd

end Table

/-! ### Traversal -/

theorem after_mem {key : Val ν π} {rest : List (Entry ν π)} : ∀ {entries : List (Entry ν π)},
    after key entries = some rest → rest <:+ entries
  | [], h => by simp [after] at h
  | e :: entries, h => by
    rw [after] at h
    split at h
    · rw [Option.some.injEq] at h
      exact h ▸ List.suffix_cons e entries
    · exact (after_mem h).trans (List.suffix_cons e entries)

/-- In a list whose keys are distinct, what follows an entry is found again by its key. -/
theorem after_suffix {e : Entry ν π} {rest : List (Entry ν π)} : ∀ {entries : List (Entry ν π)},
    (entries.map Prod.fst).Nodup → e :: rest <:+ entries → after e.1 entries = some rest
  | [], _, h => by simp at h
  | x :: entries, hnodup, h => by
    rw [List.map_cons, List.nodup_cons] at hnodup
    rw [after]
    rcases List.suffix_cons_iff.mp h with heq | h
    · rw [List.cons.injEq] at heq
      rw [if_pos (congrArg Prod.fst heq.1.symm), heq.2]
    · have hmem : e.1 ∈ entries.map Prod.fst := List.mem_map_of_mem (h.subset List.mem_cons_self)
      have hne : x.1 ≠ e.1 := fun heq => hnodup.1 (heq ▸ hmem)
      rw [if_neg hne, after_suffix hnodup.2 h]

namespace Table

variable {t : Table ν π}

theorem rest_suffix {key : Val ν π} {rest : List (Entry ν π)} (h : t.rest key = some rest) :
    rest <:+ t.entries := by
  rw [Table.rest] at h
  split at h
  · rw [Option.some.injEq] at h
    exact h ▸ List.suffix_rfl
  · exact after_mem h

theorem rest_nil : t.rest .nil = some t.entries := if_pos rfl

theorem rest_key {key : Val ν π} (h : key ≠ .nil) : t.rest key = after key t.entries := if_neg h

/-- A traversal that resumes with the key it was given goes on to the next entry. -/
theorem rest_entry {e : Entry ν π} {rest : List (Entry ν π)} (h : e :: rest <:+ t.entries) :
    t.rest e.1 = some rest := by
  rw [rest_key (t.stored e (h.subset List.mem_cons_self)).1, after_suffix t.keys h]

/-- A traversal fails to go on exactly behind a key that has no value. -/
theorem rest_none_iff {key : Val ν π} (h : key ≠ .nil) : t.rest key = none ↔ t.get key = none := by
  rw [rest_key h, Table.get, Option.map_eq_none_iff]
  induction t.entries with
  | nil => simp [after]
  | cons e rest ih =>
    by_cases he : e.1 = key
    · simp [after, he]
    · rw [after, if_neg he, List.find?_cons_of_neg (by simpa using he), ih]

theorem next_cons {key : Val ν π} {e : Entry ν π} {rest : List (Entry ν π)}
    (h : t.rest key = some (e :: rest)) : t.next key = some (some e) := by
  rw [next, h]
  rfl

theorem next_nil {key : Val ν π} (h : t.rest key = some []) : t.next key = some none := by
  rw [next, h]
  rfl

theorem next_none {key : Val ν π} (h : t.rest key = none) : t.next key = none := by
  rw [next, h]
  rfl

end Table

end Lua
