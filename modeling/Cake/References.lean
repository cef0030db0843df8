import Cake.Registry
import Cake.Tables

/-! References in a Lua table: the registry as it is.

    `luaL_ref` and `luaL_unref` keep their free list in the slots of the table and ask `luaH_getn` for its
    end, while the table lies partly in the array part and partly in nodes, and others store in it under
    keys of their own. Whatever the layout, it is a table of slots, and a reference stays good.

        registry    "_LOADED": …    array  1: p  2: q    nodes  0: 3   3: nil   4: r        3 is free -/

namespace Ltable

open RefTable (Slot Slots Layout Refs)

variable {κ α : Type*}

/-- The numbers among the values. -/
structure Values (α : Type*) where
  integer : ℕ → α
  tointeger : α → ℕ
  tointeger_integer : ∀ n < 2 ^ 31, tointeger (integer n) = n

/-! ### The end of a table -/

/-- The binary search of `luaH_getn` and `unbound_search`, by what is nil. -/
def bisect (isNil : ℕ → Bool) (i j : ℕ) : ℕ :=
  if 1 < j - i then
    let m := (i + j) / 2
    if isNil m then bisect isNil i m else bisect isNil m j
  else i
termination_by j - i

/-- The linear search of `unbound_search`, in so many rounds. -/
def linear (isNil : ℕ → Bool) : ℕ → ℕ → Option ℕ
  | 0, _ => none
  | fuel + 1, i => if isNil i then some (i - 1) else linear isNil fuel (i + 1)

/-- The loop of `unbound_search`. -/
def unbound (maxInt : ℕ) (isNil : ℕ → Bool) (i j : ℕ) : Option ℕ :=
  if h : 0 < j ∧ isNil j = false then
    if maxInt < j * 2 then linear isNil maxInt 1 else unbound maxInt isNil j (j * 2)
  else some (bisect isNil i j)
termination_by maxInt - j

section Code

variable [DecidableEq κ] (K : Keys κ) (V : Values α)

/-- `luaH_getn`; none for a search that finds no end. -/
def Table.getn (maxInt : ℕ) (t : Table κ α) : Option ℕ :=
  let j := t.array.length
  if 0 < j ∧ (t.array[j - 1]?).join.isNone then
    some (bisect (fun m => (t.array[m - 1]?).join.isNone) 0 j)
  else if t.hash.dummy then some j
  else unbound maxInt (fun m => (t.get K (K.num m)).isNone) j (j + 1)

/-- `luaL_ref` for something that is not nil: the reference, and the table afterwards. -/
def luaLRef (maxInt fuel : ℕ) (t : Table κ α) (a : α) : Result (ℕ × Table κ α) :=
  let ref := ((t.get K (K.num 0)).map V.tointeger).getD 0
  if ref ≠ 0 then
    (set K fuel t (K.num 0) (t.get K (K.num ref))).bind fun t =>
      (set K fuel t (K.num ref) (some a)).bind fun t => .ok (ref, t)
  else
    match t.getn K maxInt with
    | none => .stuck
    | some n => (set K fuel t (K.num (n + 1)) (some a)).bind fun t => .ok (n + 1, t)

/-- `luaL_unref`. -/
def luaLUnref (fuel : ℕ) (t : Table κ α) (ref : ℕ) : Result (Table κ α) :=
  (set K fuel t (K.num ref) (t.get K (K.num 0))).bind fun t => set K fuel t (K.num 0) (some (V.integer ref))

end Code

variable {K : Keys κ} {V : Values α} {t t' : Table κ α} {s : Slots α} {other : κ → Option α}
  {count maxInt n : ℕ}

/-! ### Slots -/

/-- The value a slot stands for. -/
def Values.ofSlot (V : Values α) : Slot α → Option α
  | .nil => none
  | .num n => some (V.integer n)
  | .kept a => some a

/-- Different integers are different keys. -/
def Keys.Exact (K : Keys κ) : Prop := ∀ a < 2 ^ 31, ∀ b < 2 ^ 31, K.num a = K.num b → a = b

theorem isNone_ofSlot (x : Slot α) : (V.ofSlot x).isNone = x.isNil := by cases x <;> rfl

theorem tointeger_ofSlot {x : Slot α} (hx : ∀ a, x ≠ .kept a) (hlt : x.tointeger < 2 ^ 31) :
    ((V.ofSlot x).map V.tointeger).getD 0 = x.tointeger := by
  cases x with
  | nil => rfl
  | num n => exact V.tointeger_integer n hlt
  | kept a => exact absurd rfl (hx a)

section Steps

variable [DecidableEq κ]

/-- The table is a table of slots and what others have in it, and has come to know so many keys. -/
structure Represents (K : Keys κ) (V : Values α) (other : κ → Option α) (count : ℕ) (s : Slots α)
    (t : Table κ α) : Prop where
  holds : ∃ known, known.length ≤ count ∧ Holds K (t.get K) known t
  slots : ∀ n < 2 ^ 31, t.get K (K.num n) = V.ofSlot (s.get n)
  other : ∀ k, (∀ n < 2 ^ 31, k ≠ K.num n) → t.get K k = other k

/-- A table with nothing in it. -/
theorem Represents.empty (h : Holds K (fun _ => none) [] t) : Represents K V (fun _ => none) 0 .empty t where
  holds := ⟨[], le_rfl, by rwa [funext h.get]⟩
  slots n _ := h.get (K.num n)
  other k _ := h.get k

theorem Represents.mono (h : Represents K V other count s t) {count' : ℕ} (hle : count ≤ count') :
    Represents K V other count' s t := by
  obtain ⟨known, hlen, hholds⟩ := h.holds
  exact ⟨⟨known, hlen.trans hle, hholds⟩, h.slots, h.other⟩

theorem Represents.set (h : Represents K V other count s t) (hcount : count < 2 ^ maxBits) (fuel : ℕ) (k : κ)
    (v : Option α) : ∃ t', set K (fuel + 1) t k v = .ok t' ∧
      (∀ c, t'.get K c = Function.update (t.get K) k v c) ∧
      ∃ known, known.length ≤ count + 1 ∧ Holds K (t'.get K) known t' := by
  obtain ⟨known, hlen, hholds⟩ := h.holds
  obtain ⟨-, hlarge⟩ | ⟨t', heq, hholds'⟩ := hholds.set fuel k v
  · exact absurd (hlarge.trans hlen) (Nat.not_le.mpr hcount)
  · refine ⟨t', heq, hholds'.get, k :: known, Nat.succ_le_succ hlen, ?_⟩
    rwa [← funext hholds'.get] at hholds'

/-- A store in a slot. -/
theorem Represents.set_slot (hK : K.Exact) (h : Represents K V other count s t)
    (hcount : count < 2 ^ maxBits) (fuel : ℕ) {r : ℕ} (hr : r < 2 ^ 31) {x : Slot α} {v : Option α}
    (hv : v = V.ofSlot x) :
    ∃ t', Ltable.set K (fuel + 1) t (K.num r) v = .ok t' ∧
      Represents K V other (count + 1) (s.set r x) t' := by
  obtain ⟨t', heq, hget, hholds⟩ := h.set hcount fuel (K.num r) v
  refine ⟨t', heq, hholds, fun n hn => ?_, fun k hk => ?_⟩
  · rw [hget]
    rcases eq_or_ne n r with rfl | hne
    · rw [Function.update_self, Slots.get_set_self, hv]
    · rw [Function.update_of_ne fun hnr => hne (hK n hn r hr hnr), Slots.get_set_of_ne _ hne]
      exact h.slots n hn
  · rw [hget, Function.update_of_ne (hk r hr)]
    exact h.other k hk

/-- A store of somebody else. -/
theorem Represents.set_other (h : Represents K V other count s t) (hcount : count < 2 ^ maxBits) (fuel : ℕ)
    {k : κ} (hk : ∀ n < 2 ^ 31, k ≠ K.num n) (v : Option α) :
    ∃ t', Ltable.set K (fuel + 1) t k v = .ok t' ∧
      Represents K V (Function.update other k v) (count + 1) s t' := by
  obtain ⟨t', heq, hget, hholds⟩ := h.set hcount fuel k v
  refine ⟨t', heq, hholds, fun n hn => ?_, fun c hc => ?_⟩
  · rw [hget, Function.update_of_ne (hk n hn).symm]
    exact h.slots n hn
  · rw [hget, Function.update_apply, Function.update_apply, h.other c hc]

/-! ### The same end -/

omit [DecidableEq κ] in
theorem bisect_eq {isNil : ℕ → Bool} {i j : ℕ} (h : ∀ m, i < m → m < j → isNil m = (s.get m).isNil) :
    bisect isNil i j = RefTable.bisect s i j := by
  induction i, j using bisect.induct isNil with
  | case1 i j hlt m hm ih =>
    have hmid : isNil m = (s.get m).isNil := h m (by omega) (by omega)
    rw [bisect, RefTable.bisect, if_pos hlt, if_pos hlt, if_pos hm, if_pos (hmid ▸ hm)]
    exact ih fun q hq hqm => h q hq (by omega)
  | case2 i j hlt m hm ih =>
    have hmid : isNil m = (s.get m).isNil := h m (by omega) (by omega)
    rw [bisect, RefTable.bisect, if_pos hlt, if_pos hlt, if_neg hm, if_neg (hmid ▸ hm)]
    exact ih fun q hq hqj => h q (by omega) hqj
  | case3 i j hlt => rw [bisect, RefTable.bisect, if_neg hlt, if_neg hlt]

omit [DecidableEq κ] in
/-- The doubled index does not come near the largest integer. -/
theorem unbound_eq {isNil : ℕ → Bool} {i j : ℕ} (hs : ∀ q, n < q → s.get q = .nil) (hn : n * 2 ≤ maxInt)
    (hj : j ≤ maxInt) (h : ∀ q ≤ maxInt, isNil q = (s.get q).isNil) :
    unbound maxInt isNil i j = some (RefTable.unbound maxInt s i j) := by
  induction i, j using unbound.induct maxInt isNil with
  | case1 i j hwhile hlarge =>
    have hle : j ≤ n := by
      by_contra hlt
      rw [h j hj, hs j (by omega)] at hwhile
      cases hwhile.2
    omega
  | case2 i j hwhile hsmall ih =>
    rw [unbound, RefTable.unbound, dif_pos hwhile, dif_pos (h j hj ▸ hwhile), if_neg hsmall, if_neg hsmall]
    exact ih (by omega)
  | case3 i j hwhile =>
    rw [unbound, RefTable.unbound, dif_neg hwhile, dif_neg (h j hj ▸ hwhile),
      bisect_eq fun q _ hq => h q (by omega)]

/-- How the table lies in memory. -/
def Table.layout (t : Table κ α) : Layout := ⟨t.array.length, t.hash.dummy⟩

theorem Represents.isNil (h : Represents K V other count s t) {q : ℕ} (hq : q < 2 ^ 31) :
    (t.get K (K.num q)).isNone = (s.get q).isNil := by
  rw [h.slots q hq, isNone_ofSlot]

/-- With the dummy node there is nothing beyond the array. -/
theorem Represents.layout (hK : K.Exact) (h : Represents K V other count s t)
    (hs : ∀ q, n < q → s.get q = .nil) (hn : n < 2 ^ 31) : t.layout.Holds s := by
  obtain ⟨known, -, hholds⟩ := h.holds
  intro hdummy q hq
  rcases Nat.lt_or_ge n q with hlt | hle
  · exact hs q hlt
  · have hin : ¬ t.InArray K (K.num q) := by
      rintro ⟨i, hi, hlen⟩
      have hsmall : i < 2 ^ 31 := (hlen.trans hholds.proper.array).trans_lt (by decide)
      obtain rfl := hK q (hle.trans_lt hn) i hsmall (K.of_arrayindex _ i hi).2
      exact absurd hlen (Nat.not_le.mpr hq)
    have hnone : t.get K (K.num q) = none := by
      refine Option.eq_none_iff_forall_ne_some.mpr fun a ha => ?_
      obtain ⟨p, hp, -⟩ := (get_holds hholds.proper hin).mp ha
      rw [(hholds.proper.hash.dummy hdummy).2 p] at hp
      cases hp
    have hnil := h.isNil (hle.trans_lt hn)
    rw [hnone] at hnil
    cases hslot : s.get q with
    | nil => rfl
    | num k => rw [hslot] at hnil; cases hnil
    | kept a => rw [hslot] at hnil; cases hnil

/-- `luaH_getn` finds the end that it finds for the slots. -/
theorem Represents.getn (h : Represents K V other count s t) (hs : ∀ q, n < q → s.get q = .nil)
    (hn : n * 2 ≤ maxInt) (hsmall : 2 ^ maxBits < maxInt) (hlarge : maxInt < 2 ^ 31) :
    t.getn K maxInt = some (RefTable.getn maxInt t.layout s) := by
  obtain ⟨known, -, hholds⟩ := h.holds
  have hlen : t.array.length < maxInt := hholds.proper.array.trans_lt hsmall
  have harray : ∀ q, 0 < q → q ≤ t.array.length → (t.array[q - 1]?).join.isNone = (s.get q).isNil := by
    intro q hpos hle
    rw [← get_array (K.arrayindex_num q hpos (hle.trans hholds.proper.array)) hle]
    exact h.isNil (by omega)
  rw [Table.getn, RefTable.getn, Table.layout]
  by_cases hlast : 0 < t.array.length ∧ (s.get t.array.length).isNil = true
  · rw [if_pos hlast, if_pos ⟨hlast.1, (harray _ hlast.1 le_rfl).trans hlast.2⟩,
      bisect_eq fun q hpos hlt => harray q hpos hlt.le]
  · rw [if_neg hlast, if_neg fun hl => hlast ⟨hl.1, (harray _ hl.1 le_rfl).symm.trans hl.2⟩]
    cases t.hash.dummy with
    | true => rfl
    | false => exact unbound_eq hs hn hlen fun q hq => h.isNil (hq.trans_lt hlarge)

/-! ### Calls -/

/-- `luaL_ref` on the table is `luaL_ref` on the slots. -/
theorem Represents.ref (hK : K.Exact) (h : Represents K V other count s t)
    {live : ℕ → Option α} {free : List ℕ} (hrefs : Refs s n live free) (hn : n < 2 ^ maxBits)
    (hcount : count + 1 < 2 ^ maxBits) (fuel : ℕ) (a : α) :
    ∃ t', luaLRef K V Cake.maxInt (fuel + 1) t a =
        .ok ((RefTable.luaLRef Cake.maxInt t.layout a s).1, t') ∧
      Represents K V other (count + 2) (RefTable.luaLRef Cake.maxInt t.layout a s).2 t' := by
  have hbits : 2 ^ maxBits = 67108864 := rfl
  have hle : (s.get 0).tointeger ≤ n := by
    cases free with
    | nil => exact hrefs.chain.of_nil ▸ Nat.zero_le n
    | cons r rs => exact hrefs.chain.of_cons.1 ▸ (hrefs.lives List.mem_cons_self).2.1
  have hzero : ((t.get K (K.num 0)).map V.tointeger).getD 0 = (s.get 0).tointeger := by
    rw [h.slots 0 (by decide)]
    exact tointeger_ofSlot hrefs.chain.not_kept.1 (by omega)
  rw [luaLRef, hzero]
  cases free with
  | nil =>
    have hnil : (s.get 0).tointeger = 0 := congrArg Slot.tointeger hrefs.chain.of_nil
    have hlayout : t.layout.Holds s := h.layout hK hrefs.above (by omega)
    obtain ⟨heq, -, -⟩ := hrefs.ref_new Cake.maxInt hlayout a
    have hend : RefTable.getn Cake.maxInt t.layout s = n := hrefs.end (RefTable.getn_border hlayout)
    obtain ⟨t₁, hset, h₁⟩ := h.set_slot hK (by omega) fuel (r := n + 1) (by omega) (x := .kept a)
      (v := some a) rfl
    rw [if_neg (by simp [hnil]), heq,
      h.getn hrefs.above (by rw [Cake.maxInt]; omega) (by decide) (by decide), hend]
    simp only [hset, Result.bind]
    exact ⟨t₁, rfl, h₁.mono (Nat.le_succ _)⟩
  | cons r rs =>
    obtain ⟨hpos, hle, -⟩ := hrefs.lives List.mem_cons_self
    have hr : (s.get 0).tointeger = r := congrArg Slot.tointeger hrefs.chain.of_cons.1
    obtain ⟨heq, -, -⟩ := hrefs.ref_free Cake.maxInt t.layout a
    obtain ⟨t₁, hset₁, h₁⟩ := h.set_slot hK (by omega) fuel (r := 0) (by decide)
      (h.slots r (by omega))
    obtain ⟨t₂, hset₂, h₂⟩ := h₁.set_slot hK hcount fuel (r := r) (by omega) (x := .kept a)
      (v := some a) rfl
    rw [if_pos (by omega), hr, heq, hset₁, Result.bind, hset₂]
    exact ⟨t₂, rfl, h₂⟩

/-- So is `luaL_unref`. -/
theorem Represents.unref (hK : K.Exact) (h : Represents K V other count s t)
    (hcount : count + 1 < 2 ^ maxBits) (fuel : ℕ) {r : ℕ} (hr : r < 2 ^ 31) :
    ∃ t', luaLUnref K V (fuel + 1) t r = .ok t' ∧
      Represents K V other (count + 2) (RefTable.luaLUnref r s) t' := by
  obtain ⟨t₁, hset₁, h₁⟩ := h.set_slot hK (by omega) fuel hr (h.slots 0 (by decide))
  obtain ⟨t₂, hset₂, h₂⟩ := h₁.set_slot hK hcount fuel (r := 0) (by decide) (x := .num r)
    (v := some (V.integer r)) rfl
  rw [luaLUnref, hset₁]
  exact ⟨t₂, hset₂, h₂⟩

end Steps

end Ltable

namespace Cake

open Lua (Val)
open Ltable (Represents)

variable {ν π : Type}

/-- Keys with `lua_tointeger`, which gives back the integers that are stored. -/
structure RegistryKeys (ν π : Type) extends LuaKeys ν π where
  tointeger : Val ν π → ℕ
  tointeger_num : ∀ n < 2 ^ 31, tointeger (num n) = n

def RegistryKeys.values (K : RegistryKeys ν π) : Ltable.Values (NonNil ν π) where
  integer n := ⟨K.num n, by
    obtain ⟨x, hx⟩ := K.num_number n
    rw [hx]
    exact nofun⟩
  tointeger v := K.tointeger v.1
  tointeger_integer := K.tointeger_num

theorem RegistryKeys.exact (K : RegistryKeys ν π) : K.toKeys.Exact := by
  intro a ha b hb hab
  rw [← K.tointeger_num a ha, hab, K.tointeger_num b hb]

variable [DecidableEq ν] [DecidableEq π]

/-- What calls make of the registry that `f_luaopen` makes with `luaH_new(L, 0, 2)`: what each reference is
    for, what others have stored under keys that are no references, and after how many calls. -/
inductive RegistryRun (K : RegistryKeys ν π) : (ℕ → Option (NonNil ν π)) →
    (Val ν π → Option (NonNil ν π)) → ℕ → Ltable.Table (Val ν π) (NonNil ν π) → Prop where
  | start {t : Ltable.Table (Val ν π) (NonNil ν π)} (h : Ltable.luaHNew 0 2 = .ok t) :
    RegistryRun K (fun _ => none) (fun _ => none) 0 t
  | ref {live : ℕ → Option (NonNil ν π)} {other : Val ν π → Option (NonNil ν π)} {calls r : ℕ}
    {t t' : Ltable.Table (Val ν π) (NonNil ν π)} (a : NonNil ν π) (h : RegistryRun K live other calls t)
    (hr : Ltable.luaLRef K.toKeys K.values maxInt 1 t a = .ok (r, t')) :
    RegistryRun K (Function.update live r (some a)) other (calls + 1) t'
  | unref {live : ℕ → Option (NonNil ν π)} {other : Val ν π → Option (NonNil ν π)} {calls r : ℕ}
    {t t' : Ltable.Table (Val ν π) (NonNil ν π)} {a : NonNil ν π} (h : RegistryRun K live other calls t)
    (ha : live r = some a) (hr : Ltable.luaLUnref K.toKeys K.values 1 t r = .ok t') :
    RegistryRun K (Function.update live r none) other (calls + 1) t'
  | store {live : ℕ → Option (NonNil ν π)} {other : Val ν π → Option (NonNil ν π)} {calls : ℕ}
    {t t' : Ltable.Table (Val ν π) (NonNil ν π)} {key v : Val ν π} (h : RegistryRun K live other calls t)
    (hkey : ∀ n < 2 ^ 31, key ≠ K.num n) (hs : settable K.toLuaKeys t (key, v) = some t') :
    RegistryRun K live (if validKey K.toLuaKeys key then Function.update other key (tvalue v) else other)
      (calls + 1) t'

variable {K : RegistryKeys ν π} {live : ℕ → Option (NonNil ν π)}
  {other : Val ν π → Option (NonNil ν π)} {calls count : ℕ} {t : Ltable.Table (Val ν π) (NonNil ν π)}
  {s : RefTable.Slots (NonNil ν π)}

/-- A store of others does not fail, and stays out of the slots. -/
theorem settable_other (h : Represents K.toKeys K.values other count s t)
    (hcount : count < 2 ^ Ltable.maxBits) {key : Val ν π} (hkey : ∀ n < 2 ^ 31, key ≠ K.num n) (v : Val ν π) :
    ∃ t', settable K.toLuaKeys t (key, v) = some t' ∧ Represents K.toKeys K.values
      (if validKey K.toLuaKeys key then Function.update other key (tvalue v) else other) (count + 1) s t' := by
  rw [settable]
  by_cases hvalid : validKey K.toLuaKeys key = true
  · obtain ⟨t', heq, ht'⟩ := h.set_other hcount 0 hkey (tvalue v)
    rw [if_pos hvalid, if_pos hvalid, heq]
    exact ⟨t', rfl, ht'⟩
  · rw [if_neg hvalid, if_neg hvalid]
    exact ⟨t, rfl, h.mono (Nat.le_succ count)⟩

/-- What holds after any calls: there are slots, in use or free, and no more of them than calls. -/
theorem RegistryRun.represents (h : RegistryRun K live other calls t)
    (hcalls : 2 * calls ≤ 2 ^ Ltable.maxBits) : ∃ s, Represents K.toKeys K.values other (2 * calls) s t ∧
      ∃ n ≤ calls, ∃ free, RefTable.Refs s n live free := by
  have hbits : 2 ^ Ltable.maxBits = 67108864 := rfl
  induction h with
  | start h => exact ⟨.empty, .empty (.luaHNew h), 0, le_rfl, [], RefTable.refs_empty⟩
  | ref a h hr ih =>
    obtain ⟨s, htable, n, hn, free, hrefs⟩ := ih (by omega)
    obtain ⟨t₁, heq, ht₁⟩ := htable.ref K.exact hrefs (by omega) (by omega) 0 a
    obtain ⟨-, n', free', hn', hrefs'⟩ :=
      hrefs.ref maxInt (htable.layout K.exact hrefs.above (by omega)) a
    rw [heq, Ltable.Result.ok.injEq, Prod.mk.injEq] at hr
    obtain ⟨rfl, rfl⟩ := hr
    exact ⟨_, ht₁, n', by omega, free', hrefs'⟩
  | @unref live other calls r t t' a h ha hr ih =>
    obtain ⟨s, htable, n, hn, free, hrefs⟩ := ih (by omega)
    have hle := (hrefs.kept r a ha).2.1
    obtain ⟨t₁, heq, ht₁⟩ := htable.unref K.exact (by omega) 0 (r := r) (by omega)
    rw [heq, Ltable.Result.ok.injEq] at hr
    subst hr
    exact ⟨_, ht₁, n, by omega, _, hrefs.unref ha⟩
  | store h hkey hs ih =>
    obtain ⟨s, htable, n, hn, free, hrefs⟩ := ih (by omega)
    obtain ⟨t₁, heq, ht₁⟩ := settable_other htable (by omega) hkey _
    rw [heq, Option.some.injEq] at hs
    subst hs
    exact ⟨s, ht₁.mono (by omega), n, by omega, free, hrefs⟩

/-- The registry of Lua keeps what it is given: under a reference is what it was given for until it is
    given back, under every other key what was stored last, and no call fails or hands out a reference
    that somebody has. -/
theorem registry_references (h : RegistryRun K live other calls t) (hcalls : 2 * calls + 2 ≤ 2 ^ 26) :
    (∀ r a, live r = some a → 0 < r ∧ t.get K.toKeys (K.num r) = some a) ∧
    (∀ key, (∀ n < 2 ^ 31, key ≠ K.num n) → t.get K.toKeys key = other key) ∧
    (∀ a, ∃ r t', Ltable.luaLRef K.toKeys K.values maxInt 1 t a = .ok (r, t') ∧ live r = none) ∧
    (∀ r a, live r = some a → ∃ t', Ltable.luaLUnref K.toKeys K.values 1 t r = .ok t') ∧
    ∀ key v, (∀ n < 2 ^ 31, key ≠ K.num n) → ∃ t', settable K.toLuaKeys t (key, v) = some t' := by
  have hbits : 2 ^ Ltable.maxBits = 67108864 := rfl
  obtain ⟨s, htable, n, hn, free, hrefs⟩ := h.represents (by omega)
  refine ⟨fun r a ha => ?_, htable.other, fun a => ?_, fun r a ha => ?_, fun key v hkey => ?_⟩
  · obtain ⟨hpos, hle, hkept⟩ := hrefs.kept r a ha
    rw [htable.slots r (by omega), hkept]
    exact ⟨hpos, rfl⟩
  · obtain ⟨t', heq, -⟩ := htable.ref K.exact hrefs (by omega) (by omega) 0 a
    exact ⟨_, t', heq, (hrefs.ref maxInt (htable.layout K.exact hrefs.above (by omega)) a).1⟩
  · have hle := (hrefs.kept r a ha).2.1
    obtain ⟨t', heq, -⟩ := htable.unref K.exact (by omega) 0 (r := r) (by omega)
    exact ⟨t', heq⟩
  · obtain ⟨t', heq, -⟩ := settable_other htable (by omega) hkey v
    exact ⟨t', heq⟩

/-- Natural numbers as numbers. -/
def wholeRegistryKeys : RegistryKeys ℕ ℕ where
  toLuaKeys := wholeKeys
  tointeger
    | .number n => n
    | _ => 0
  tointeger_num _ _ := rfl

/-- A reference, and its value. -/
theorem registry_references_one : ∃ registry r t, Ltable.luaHNew 0 2 = .ok registry ∧
    Ltable.luaLRef wholeRegistryKeys.toKeys wholeRegistryKeys.values maxInt 1 registry ⟨.table 7, nofun⟩ =
      .ok (r, t) ∧
    t.get wholeRegistryKeys.toKeys (.number r) = some ⟨.table 7, nofun⟩ := by
  have hnew : (Ltable.luaHNew 0 2 : Ltable.Result (Ltable.Table (Val ℕ ℕ) (NonNil ℕ ℕ))) = .ok _ := rfl
  obtain ⟨-, -, href, -⟩ := registry_references (.start (K := wholeRegistryKeys) hnew) (by decide)
  obtain ⟨r, t, hr, -⟩ := href ⟨.table 7, nofun⟩
  obtain ⟨hget, -⟩ := registry_references (.ref _ (.start hnew) hr) (by decide)
  exact ⟨_, r, t, hnew, hr, (hget r _ (Function.update_self ..)).2⟩

end Cake
