import Cake.Lib.Scatter
import Mathlib.Algebra.Ring.Nat
import Mathlib.Data.Nat.Log

/-! The tables of Lua 5.1 (ltable.c): an array part for the keys 1, 2, … and a hash part for the others.

    When a new key finds no free node, the sizes of both parts are computed anew from the keys in use, and
    all is inserted again: the array part is to be more than half full, and the hash part has as many nodes
    as there are keys left, rounded up to a power of two. The insertion never comes back to a rehash.

        set ──▶ found ──▶ assign
            └─▶ newkey ──▶ node ──▶ assign
                       └─▶ full ──▶ rehash ──▶ resize ──▶ set … set ──▶ set -/

namespace Ltable

open Scatter (Hash Node Nodes)

variable {κ α : Type*}

/-- What the tables need to know of keys: which of them are positive integers, and their main position in
    a hash part of so many nodes. -/
structure Keys (κ : Type*) where
  arrayindex : κ → Option ℕ
  num : ℕ → κ
  mainposition : ℕ → κ → ℕ
  arrayindex_num : ∀ i, 0 < i → i ≤ 2 ^ 26 → arrayindex (num i) = some i
  of_arrayindex : ∀ k i, arrayindex k = some i → 0 < i ∧ k = num i
  mainposition_lt : ∀ size k, 0 < size → mainposition size k < size

/-- `MAXBITS`. -/
def maxBits : ℕ := 26

/-- A table. `array` has a place for each of the keys 1, 2, … up to its length. -/
structure Table (κ α : Type*) where
  array : List (Option α)
  hash : Hash κ α

/-- How an operation ends: well, with the error "table overflow", or not at all. -/
inductive Result (β : Type*) where
  | ok (r : β)
  | overflow
  | stuck

def Result.bind {β γ : Type*} : Result β → (β → Result γ) → Result γ
  | .ok r, f => f r
  | .overflow, _ => .overflow
  | .stuck, _ => .stuck

/-- Where a value is. -/
inductive Place where
  | array (i : ℕ)
  | node (p : ℕ)

section Code

variable [DecidableEq κ] (K : Keys κ)

namespace Table

/-- The place `luaH_get` points at; none for `luaO_nilobject`. -/
def locate (t : Table κ α) (k : κ) : Option Place :=
  match K.arrayindex k with
  | some i =>
    if i ≤ t.array.length then some (.array (i - 1))
    else (Scatter.find t.hash.nodes k t.hash.size (K.mainposition t.hash.size k)).map .node
  | none => (Scatter.find t.hash.nodes k t.hash.size (K.mainposition t.hash.size k)).map .node

def value (t : Table κ α) : Place → Option α
  | .array i => (t.array[i]?).join
  | .node p => (t.hash.nodes p).val

/-- `luaH_get`; none for nil. -/
def get (t : Table κ α) (k : κ) : Option α := (t.locate K k).bind t.value

def assign (t : Table κ α) (v : Option α) : Place → Table κ α
  | .array i => { t with array := t.array.set i v }
  | .node p =>
    { t with hash := { t.hash with nodes := Function.update t.hash.nodes p { t.hash.nodes p with val := v } } }

/-- The value at an index of a traversal, with its key: first the array part, then the nodes. -/
def arraySlot (t : Table κ α) (i : ℕ) : Option (κ × α) := (t.array[i]?).join.map fun v => (K.num (i + 1), v)

def nodeSlot (t : Table κ α) (p : ℕ) : Option (κ × α) :=
  match t.hash.nodes p with
  | ⟨some k, some v, _⟩ => some (k, v)
  | _ => none

end Table

/-! ### Rehash -/

/-- `ceillog2`. -/
def ceillog2 (x : ℕ) : ℕ := Nat.clog 2 x

/-- `countint`: whether the key is counted, and the counters. -/
def countint (k : κ) (nums : ℕ → ℕ) : ℕ × (ℕ → ℕ) :=
  match K.arrayindex k with
  | some i =>
    if i ≤ 2 ^ maxBits then (1, Function.update nums (ceillog2 i) (nums (ceillog2 i) + 1)) else (0, nums)
  | none => (0, nums)

/-- The elements of the array part from index `i` to `lim`, counted from 1, that are not nil. -/
def lives (array : List (Option α)) (i lim : ℕ) : ℕ :=
  (List.range' i (lim + 1 - i)).countP fun j => (array[j - 1]?).join.isSome

/-- The loop over the slices in `numusearray`, `lg` being the next one. -/
def numusearray (array : List (Option α)) : ℕ → ℕ → ℕ → (ℕ → ℕ) → ℕ × (ℕ → ℕ)
  | 0, _, _, nums => (0, nums)
  | slices + 1, lg, i, nums =>
    if array.length < 2 ^ lg ∧ array.length < i then (0, nums)
    else
      let lim := min (2 ^ lg) array.length
      let lc := lives array i lim
      let rest := numusearray array slices (lg + 1) (lim + 1) (Function.update nums lg (nums lg + lc))
      (lc + rest.1, rest.2)

/-- The loop of `numusehash`, from the last node to the first: all keys, the keys that are counted, and
    the counters. -/
def numusehash (t : Table κ α) : ℕ → (ℕ → ℕ) → ℕ × ℕ × (ℕ → ℕ)
  | 0, nums => (0, 0, nums)
  | p + 1, nums =>
    match t.nodeSlot p with
    | some (k, _) =>
      let c := countint K k nums
      let rest := numusehash t p c.2
      (rest.1 + 1, c.1 + rest.2.1, rest.2.2)
    | none => numusehash t p nums

/-- The loop of `computesizes`: the size of the array part, and the elements that go there. -/
def computesizes (nums : ℕ → ℕ) (narray i a na n : ℕ) : ℕ × ℕ :=
  if 2 ^ i / 2 < narray then
    let a' := a + nums i
    let grow := 0 < nums i ∧ 2 ^ i / 2 < a'
    let n' := if grow then 2 ^ i else n
    let na' := if grow then a' else na
    if a' = narray then (n', na') else computesizes nums narray (i + 1) a' na' n'
  else (n, na)
termination_by narray - 2 ^ i / 2
decreasing_by
  have : 2 ^ (i + 1) / 2 = 2 ^ i := by rw [pow_succ]; omega
  have := Nat.one_le_two_pow (n := i)
  omega

/-- `setnodevector`. -/
def setnodevector (size : ℕ) : Result (Hash κ α) :=
  if size = 0 then .ok ⟨fun _ => Scatter.unused, 1, 0, true⟩
  else if maxBits < ceillog2 size then .overflow
  else .ok ⟨fun _ => Scatter.unused, 2 ^ ceillog2 size, 2 ^ ceillog2 size, false⟩

/-- One insertion after the other, by the `luaH_set` that is given. -/
def reinsert (set : Table κ α → κ → Option α → Result (Table κ α)) :
    List (κ × α) → Table κ α → Result (Table κ α)
  | [], t => .ok t
  | (k, v) :: rest, t => (set t k (some v)).bind (reinsert set rest)

/-- `resize`. -/
def resize (set : Table κ α → κ → Option α → Result (Table κ α)) (t : Table κ α) (nasize nhsize : ℕ) :
    Result (Table κ α) :=
  (setnodevector nhsize).bind fun hash =>
    let array := (t.array ++ List.replicate (nasize - t.array.length) none).take nasize
    -- from the part of the array that vanishes, and from the old nodes
    let old := (List.range' nasize (t.array.length - nasize)).filterMap (t.arraySlot K) ++
      (List.range t.hash.size).reverse.filterMap t.nodeSlot
    reinsert set old ⟨array, hash⟩

/-- `rehash`, for the sake of the key `ek`. -/
def rehash (set : Table κ α → κ → Option α → Result (Table κ α)) (t : Table κ α) (ek : κ) :
    Result (Table κ α) :=
  let inarray := numusearray t.array (maxBits + 1) 0 1 fun _ => 0
  let inhash := numusehash K t t.hash.size inarray.2
  let extra := countint K ek inhash.2.2
  let nasize := inarray.1 + inhash.2.1 + extra.1
  let totaluse := inarray.1 + inhash.1 + 1
  let sizes := computesizes extra.2 nasize 0 0 0 0
  resize K set t sizes.1 (totaluse - sizes.2)

/-- `luaH_set` and the assignment to the place it finds, with so many rehashes one inside the other. -/
def set (fuel : ℕ) (t : Table κ α) (k : κ) (v : Option α) : Result (Table κ α) :=
  match t.locate K k with
  | some place => .ok (t.assign v place)
  | none =>
    match t.hash.newkey (K.mainposition t.hash.size) k with
    | none => .stuck
    | some (some (hash, p)) => .ok (Table.assign { t with hash := hash } v (.node p))
    | some none =>
      match fuel with
      | 0 => .stuck
      | fuel + 1 => (rehash K (set fuel) t k).bind fun t => set fuel t k v

/-- `luaH_new`. -/
def luaHNew (narray nhash : ℕ) : Result (Table κ α) :=
  (setnodevector nhash).bind fun hash => .ok ⟨List.replicate narray none, hash⟩

/-- `lua_newtable`, which is `luaH_new` without room for anything. -/
def Table.new : Table κ α := ⟨[], ⟨fun _ => Scatter.unused, 1, 0, true⟩⟩

/-- `findindex`, plus one: where a traversal goes on behind the key; none for the error of an unknown
    key. -/
def Table.findindex (t : Table κ α) : Option κ → Option ℕ
  | none => some 0
  | some k =>
    match t.locate K k with
    | none => none
    | some (.array i) => some (i + 1)
    | some (.node p) => some (t.array.length + p + 1)

/-- `luaH_next`. -/
def Table.next (t : Table κ α) (key : Option κ) : Option (Option (κ × α)) :=
  (t.findindex K key).map fun i =>
    let n := t.array.length
    match (List.range' i (n - i)).findSome? (t.arraySlot K) with
    | some e => some e
    | none => (List.range' (max i n - n) (t.hash.size - (max i n - n))).findSome? t.nodeSlot

end Code

/-! ### Places -/

/-- The nodes are in order, and no key that belongs to the array part is in a node. -/
structure Table.Proper (K : Keys κ) (t : Table κ α) : Prop where
  hash : t.hash.Proper (K.mainposition t.hash.size)
  array : t.array.length ≤ 2 ^ maxBits
  outside : ∀ p k i, (t.hash.nodes p).key = some k → K.arrayindex k = some i → t.array.length < i

/-- The key has its place in the array part. -/
def Table.InArray (K : Keys κ) (t : Table κ α) (k : κ) : Prop :=
  ∃ i, K.arrayindex k = some i ∧ i ≤ t.array.length

variable {K : Keys κ} {t t' : Table κ α} {k c : κ} {v : Option α}

section Places

variable [DecidableEq κ]

theorem locate_array {i : ℕ} (h : K.arrayindex k = some i) (hle : i ≤ t.array.length) :
    t.locate K k = some (.array (i - 1)) := by
  rw [Table.locate, h]
  exact if_pos hle

theorem locate_outside (h : ¬ t.InArray K k) : t.locate K k =
    (Scatter.find t.hash.nodes k t.hash.size (K.mainposition t.hash.size k)).map .node := by
  rw [Table.locate]
  split
  · rename_i i hi
    exact if_neg fun hle => h ⟨i, hi, hle⟩
  · rfl

theorem locate_node_iff (ht : t.Proper K) {p : ℕ} :
    t.locate K k = some (.node p) ↔ (t.hash.nodes p).key = some k := by
  by_cases hin : t.InArray K k
  · obtain ⟨i, hi, hle⟩ := hin
    rw [locate_array hi hle]
    refine iff_of_false (by simp) fun hp => ?_
    have := ht.outside p k i hp hi
    omega
  · rw [locate_outside hin, ← Scatter.find_iff ht.hash.inv, Option.map_eq_some_iff]
    constructor
    · rintro ⟨q, hq, heq⟩
      rw [hq, Place.node.inj heq]
    · exact fun hp => ⟨p, hp, rfl⟩

theorem locate_array_iff (ht : t.Proper K) {i : ℕ} :
    t.locate K k = some (.array i) ↔ i < t.array.length ∧ k = K.num (i + 1) := by
  constructor
  · intro h
    by_cases hin : t.InArray K k
    · obtain ⟨j, hj, hle⟩ := hin
      obtain ⟨hpos, hnum⟩ := K.of_arrayindex k j hj
      rw [locate_array hj hle, Option.some.injEq, Place.array.injEq] at h
      subst h
      rw [Nat.sub_add_cancel hpos]
      exact ⟨by omega, hnum⟩
    · rw [locate_outside hin, Option.map_eq_some_iff] at h
      obtain ⟨q, -, heq⟩ := h
      cases heq
  · rintro ⟨hlt, rfl⟩
    have harray := ht.array
    exact locate_array (K.arrayindex_num (i + 1) (Nat.succ_pos i) (hlt.trans_le harray)) hlt

theorem locate_none_iff (ht : t.Proper K) :
    t.locate K k = none ↔ ¬ t.InArray K k ∧ ∀ p, (t.hash.nodes p).key ≠ some k := by
  constructor
  · intro h
    refine ⟨fun ⟨i, hi, hle⟩ => ?_, fun p hp => ?_⟩
    · rw [locate_array hi hle] at h
      cases h
    · rw [(locate_node_iff ht).mpr hp] at h
      cases h
  · rintro ⟨hin, hnew⟩
    rw [locate_outside hin, Option.map_eq_none_iff]
    refine Option.eq_none_iff_forall_ne_some.mpr fun p hp => hnew p (Scatter.find_key hp)

/-- Two keys are not at one place. -/
theorem locate_inj (ht : t.Proper K) {s : Place} (hk : t.locate K k = some s) (hc : t.locate K c = some s) :
    k = c := by
  cases s with
  | array i => rw [((locate_array_iff ht).mp hk).2, ((locate_array_iff ht).mp hc).2]
  | node p =>
    have heq := (locate_node_iff ht).mp hk
    rw [(locate_node_iff ht).mp hc, Option.some.injEq] at heq
    exact heq.symm

/-! ### Assignment -/

theorem locate_assign (t : Table κ α) (v : Option α) (s : Place) (c : κ) :
    (t.assign v s).locate K c = t.locate K c := by
  cases s with
  | array i => simp [Table.assign, Table.locate]
  | node p => simp [Table.assign, Table.locate, Scatter.find_setval]

omit [DecidableEq κ] in
theorem value_assign_of_ne (t : Table κ α) (v : Option α) {s s' : Place} (h : s' ≠ s) :
    (t.assign v s).value s' = t.value s' := by
  cases s with
  | array i =>
    cases s' with
    | array j =>
      have hne : i ≠ j := fun heq => h (by rw [heq])
      simp [Table.assign, Table.value, List.getElem?_set_ne hne]
    | node q => rfl
  | node p =>
    cases s' with
    | array j => rfl
    | node q =>
      have hne : q ≠ p := fun heq => h (by rw [heq])
      simp [Table.assign, Table.value, Function.update_of_ne hne]

theorem value_assign_self (ht : t.Proper K) {s : Place} (h : t.locate K k = some s) :
    (t.assign v s).value s = v := by
  cases s with
  | array i =>
    have hlt := ((locate_array_iff ht).mp h).1
    simp [Table.assign, Table.value, hlt]
  | node p => simp [Table.assign, Table.value]

/-- An assignment to the place of a key changes what this key has. -/
theorem get_assign (ht : t.Proper K) {s : Place} (h : t.locate K k = some s) (c : κ) :
    (t.assign v s).get K c = if c = k then v else t.get K c := by
  rw [Table.get, locate_assign]
  split
  · rename_i heq
    rw [heq, h, Option.bind_some, value_assign_self ht h]
  · rename_i hne
    rw [Table.get]
    cases hc : t.locate K c with
    | none => rfl
    | some s' =>
      have hs : s' ≠ s := fun heq => hne (locate_inj ht (heq ▸ hc) h)
      rw [Option.bind_some, Option.bind_some, value_assign_of_ne t v hs]

theorem Table.Proper.assign (ht : t.Proper K) {s : Place} (h : t.locate K k = some s) (v : Option α) :
    (t.assign v s).Proper K := by
  cases s with
  | array i =>
    refine ⟨ht.hash, ?_, fun p c i hp hi => ?_⟩
    · simpa [Table.assign] using ht.array
    · simpa [Table.assign] using ht.outside p c i hp hi
  | node p =>
    have hp := (locate_node_iff ht).mp h
    refine ⟨ht.hash.setval (by simp [hp]) v, ht.array, fun q c i hq hi => ?_⟩
    rw [Table.assign, Scatter.setval_key] at hq
    exact ht.outside q c i hq hi

/-! ### A store without a rehash -/

/-- What a store does: the key has the value, the others have what they had. -/
structure Stored (K : Keys κ) (t t' : Table κ α) (k : κ) (v : Option α) : Prop where
  proper : t'.Proper K
  get : ∀ c, t'.get K c = if c = k then v else t.get K c
  length : t'.array.length = t.array.length
  size : t'.hash.size = t.hash.size
  dummy : t'.hash.dummy = t.hash.dummy
  keys : ∀ p c, (t'.hash.nodes p).key = some c → c = k ∨ ∃ p, (t.hash.nodes p).key = some c

/-- What a key outside the array part has is in a node. -/
theorem get_holds (ht : t.Proper K) (hin : ¬ t.InArray K c) {a : α} :
    t.get K c = some a ↔ Scatter.Holds t.hash.nodes c a := by
  rw [Table.get, Option.bind_eq_some_iff]
  constructor
  · rintro ⟨s, hs, hval⟩
    cases s with
    | array i =>
      obtain ⟨hlt, rfl⟩ := (locate_array_iff ht).mp hs
      have harray := ht.array
      exact absurd ⟨i + 1, K.arrayindex_num (i + 1) (Nat.succ_pos i) (hlt.trans_le harray), hlt⟩ hin
    | node p => exact ⟨p, (locate_node_iff ht).mp hs, hval⟩
  · rintro ⟨p, hp, hval⟩
    exact ⟨.node p, (locate_node_iff ht).mpr hp, hval⟩

theorem get_array {i : ℕ} (h : K.arrayindex c = some i) (hle : i ≤ t.array.length) :
    t.get K c = (t.array[i - 1]?).join := by
  rw [Table.get, locate_array h hle]
  rfl

/-- A new node for a key changes no value. -/
theorem added_proper (ht : t.Proper K) (hin : ¬ t.InArray K k) {hash : Hash κ α} {p : ℕ}
    (hproper : hash.Proper (K.mainposition t.hash.size)) (hsize : hash.size = t.hash.size)
    (hadd : Scatter.Added t.hash.nodes hash.nodes k p) :
    (⟨t.array, hash⟩ : Table κ α).Proper K ∧
      (⟨t.array, hash⟩ : Table κ α).locate K k = some (.node p) ∧
      ∀ c, (⟨t.array, hash⟩ : Table κ α).get K c = t.get K c := by
  have ht' : (⟨t.array, hash⟩ : Table κ α).Proper K := by
    refine ⟨hsize ▸ hproper, ht.array, fun q c i hq hi => ?_⟩
    obtain rfl | ⟨q', hq'⟩ := hadd.keys q c hq
    · exact not_le.mp fun hle => hin ⟨i, hi, hle⟩
    · exact ht.outside q' c i hq' hi
  refine ⟨ht', (locate_node_iff ht').mpr hadd.key, fun c => ?_⟩
  by_cases hc : t.InArray K c
  · obtain ⟨i, hi, hle⟩ := hc
    exact (get_array (t := ⟨t.array, hash⟩) hi hle).trans (get_array hi hle).symm
  · ext a
    rw [get_holds ht' hc, get_holds ht hc, hadd.holds]

theorem set_found (ht : t.Proper K) {s : Place} (hloc : t.locate K k = some s) (fuel : ℕ) (v : Option α) :
    ∃ t', set K fuel t k v = .ok t' ∧ Stored K t t' k v := by
  rw [set.eq_def, hloc]
  refine ⟨_, rfl, ht.assign hloc v, get_assign ht hloc, ?_, ?_, ?_, fun p c hp => .inr ⟨p, ?_⟩⟩
  · cases s <;> simp [Table.assign]
  · cases s <;> rfl
  · cases s <;> rfl
  · cases s with
    | array i => exact hp
    | node q => rwa [Table.assign, Scatter.setval_key] at hp

/-- A store that needs no rehash. -/
theorem set_placed (ht : t.Proper K) (hloc : t.locate K k = none) {hash : Hash κ α} {p : ℕ}
    (hnew : t.hash.newkey (K.mainposition t.hash.size) k = some (some (hash, p)))
    (hproper : hash.Proper (K.mainposition t.hash.size)) (hsize : hash.size = t.hash.size)
    (hdummy : hash.dummy = t.hash.dummy) (hadd : Scatter.Added t.hash.nodes hash.nodes k p) (fuel : ℕ)
    (v : Option α) : ∃ t', set K fuel t k v = .ok t' ∧ Stored K t t' k v := by
  obtain ⟨ht', hloc', hget⟩ := added_proper ht ((locate_none_iff ht).mp hloc).1 hproper hsize hadd
  rw [set.eq_def, hloc, hnew]
  refine ⟨_, rfl, ht'.assign hloc' v, fun c => ?_, rfl, hsize, hdummy, fun p c hp => ?_⟩
  · rw [get_assign ht' hloc', hget]
  · rw [Table.assign, Scatter.setval_key] at hp
    exact hadd.keys p c hp

/-- With a place for the key a store needs none. -/
theorem set_room (ht : t.Proper K)
    (hroom : t.locate K k = none → t.hash.dummy = false ∧ ∃ p < t.hash.size, (t.hash.nodes p).key = none)
    (fuel : ℕ) (v : Option α) : ∃ t', set K fuel t k v = .ok t' ∧ Stored K t t' k v := by
  cases hloc : t.locate K k with
  | some s => exact set_found ht hloc fuel v
  | none =>
    obtain ⟨hdummy, p, hp, hfree⟩ := hroom hloc
    obtain ⟨-, hfull⟩ | ⟨hash, q, heq, hproper, hsize, hd, hadd⟩ :=
      ht.hash.newkey ((locate_none_iff ht).mp hloc).2
    · obtain hd | hall := hfull
      · rw [hdummy] at hd
        cases hd
      · exact absurd hfree (hall p hp)
    · exact set_placed ht hloc heq hproper hsize hd hadd fuel v

/-- With room for all keys that can come, there is a node for one that has not come. -/
theorem exists_unused {size : ℕ} {nodes : Nodes κ α} {H : List κ} (hfit : H.length ≤ size)
    (hkeys : ∀ p c, (nodes p).key = some c → c ∈ H) (hdistinct : ∀ p q c, (nodes p).key = some c →
      (nodes q).key = some c → p = q) (hk : k ∈ H) (hnew : ∀ p, (nodes p).key ≠ some k) :
    ∃ p < size, (nodes p).key = none := by
  by_contra hall
  push Not at hall
  have hsome : ∀ p < size, ∃ c, (nodes p).key = some c := fun p hp =>
    Option.ne_none_iff_exists'.mp (hall p hp)
  have hnodup : ((List.range size).map fun p => (nodes p).key).Nodup := by
    refine List.Nodup.map_on (fun p hp q hq heq => ?_) List.nodup_range
    obtain ⟨c, hc⟩ := hsome p (List.mem_range.mp hp)
    exact hdistinct p q c hc (heq ▸ hc)
  have hsub : ((List.range size).map fun p => (nodes p).key) ⊆ (H.erase k).map some := by
    intro o ho
    obtain ⟨p, hp, rfl⟩ := List.mem_map.mp ho
    obtain ⟨c, hc⟩ := hsome p (List.mem_range.mp hp)
    have hne : c ≠ k := fun heq => hnew p (heq ▸ hc)
    exact List.mem_map.mpr ⟨c, (List.mem_erase_of_ne hne).mpr (hkeys p c hc), hc.symm⟩
  have hle := (hnodup.subperm hsub).length_le
  rw [List.length_map, List.length_map, List.length_range, List.length_erase_of_mem hk] at hle
  have hpos := List.length_pos_of_mem hk
  omega

/-- The keys that can come fit into the nodes. -/
structure Fits (t : Table κ α) (H : List κ) : Prop where
  length : H ≠ [] → t.hash.dummy = false ∧ H.length ≤ t.hash.size
  keys : ∀ p c, (t.hash.nodes p).key = some c → c ∈ H

theorem Fits.room {H : List κ} (h : Fits t H) (ht : t.Proper K) (hk : t.InArray K k ∨ k ∈ H) :
    t.locate K k = none → t.hash.dummy = false ∧ ∃ p < t.hash.size, (t.hash.nodes p).key = none := by
  intro hloc
  obtain ⟨hin, hnew⟩ := (locate_none_iff ht).mp hloc
  have hmem := hk.resolve_left hin
  obtain ⟨hdummy, hfit⟩ := h.length (List.ne_nil_of_mem hmem)
  exact ⟨hdummy, exists_unused hfit h.keys ht.hash.inv.distinct hmem hnew⟩

theorem Fits.stored {H : List κ} (h : Fits t H) (hs : Stored K t t' k v) (hk : t.InArray K k ∨ k ∈ H) :
    Fits t' H := by
  refine ⟨by rw [hs.dummy, hs.size]; exact h.length, fun p c hp => ?_⟩
  obtain rfl | ⟨q, hq⟩ := hs.keys p c hp
  · obtain ⟨i, hi, hle⟩ | hmem := hk
    · have := hs.proper.outside p c i hp hi
      rw [hs.length] at this
      omega
    · exact hmem
  · exact h.keys q c hq

/-- Insertions into a table that has room for all of them. -/
theorem reinsert_ok {H : List κ} (fuel : ℕ) {l : List (κ × α)} (hnodup : (l.map Prod.fst).Nodup)
    (ht : t.Proper K) (hfits : Fits t H) (hl : ∀ e ∈ l, t.InArray K e.1 ∨ e.1 ∈ H) :
    ∃ t', reinsert (set K fuel) l t = .ok t' ∧ t'.Proper K ∧ Fits t' H ∧
      t'.array.length = t.array.length ∧ t'.hash.size = t.hash.size ∧ (∀ e ∈ l, t'.get K e.1 = some e.2) ∧
        ∀ c, c ∉ l.map Prod.fst → t'.get K c = t.get K c := by
  induction l generalizing t with
  | nil => exact ⟨t, rfl, ht, hfits, rfl, rfl, by simp, fun _ _ => rfl⟩
  | cons e l ih =>
    obtain ⟨k, a⟩ := e
    rw [List.map_cons, List.nodup_cons] at hnodup
    obtain ⟨hk, hl⟩ := List.forall_mem_cons.mp hl
    obtain ⟨t₁, hset, hstored⟩ := set_room ht (hfits.room ht hk) fuel (some a)
    have harray : ∀ c, t₁.InArray K c ↔ t.InArray K c := fun c => by
      rw [Table.InArray, Table.InArray, hstored.length]
    obtain ⟨t', heq, ht', hfits', hlength, hsize, hget, hold⟩ := ih hnodup.2 hstored.proper
      (hfits.stored hstored hk) fun e he => (hl e he).imp_left (harray e.1).mpr
    refine ⟨t', ?_, ht', hfits', hlength.trans hstored.length, hsize.trans hstored.size,
      List.forall_mem_cons.mpr ⟨?_, hget⟩, ?_⟩
    · rw [reinsert, hset]
      exact heq
    · rw [hold k hnodup.1, hstored.get, if_pos rfl]
    · intro c hc
      rw [List.map_cons, List.mem_cons, not_or] at hc
      rw [hold c hc.2, hstored.get, if_neg hc.1]

end Places

end Ltable
