import Cake.Rehash

/-! Traversals of a Lua table, and runs of stores.

    `luaH_next` finds the index of the key it is given and goes on behind it, first through the array part
    and then through the nodes. After any stores a table holds for each key what was stored last, and its
    entries are the keys that have a value.

        array    1: a   2: nil   3: b      nodes    x: nil   y: c        1, 3, y -/

namespace Ltable

variable {κ α : Type*} {K : Keys κ} {t t' : Table κ α} {k c : κ} {v : Option α}

/-! ### Traversal -/

/-- The entries from an index of a traversal on. -/
def Table.entriesFrom (K : Keys κ) (t : Table κ α) (i : ℕ) : List (κ × α) :=
  let n := t.array.length
  (List.range' i (n - i)).filterMap (t.arraySlot K) ++
    (List.range' (max i n - n) (t.hash.size - (max i n - n))).filterMap t.nodeSlot

theorem entriesFrom_zero (t : Table κ α) : t.entriesFrom K 0 = t.entries K := by
  simp [Table.entriesFrom, Table.entries, Table.arrayEntries, Table.nodeEntries, List.range_eq_range']

/-- One index in the array part. -/
theorem entriesFrom_array (t : Table κ α) {i : ℕ} (hi : i < t.array.length) :
    t.entriesFrom K i = (t.arraySlot K i).toList ++ t.entriesFrom K (i + 1) := by
  have hlen : t.array.length - i = (t.array.length - (i + 1)) + 1 := by omega
  rw [Table.entriesFrom, Table.entriesFrom, hlen, List.range'_succ, Nat.max_eq_right hi.le,
    Nat.max_eq_right (Nat.succ_le_of_lt hi)]
  cases h : t.arraySlot K i <;> simp [h]

/-- One node. -/
theorem entriesFrom_node (t : Table κ α) {p : ℕ} (hp : p < t.hash.size) :
    t.entriesFrom K (t.array.length + p) =
      (t.nodeSlot p).toList ++ t.entriesFrom K (t.array.length + p + 1) := by
  have hlen : t.hash.size - p = (t.hash.size - (p + 1)) + 1 := by omega
  have hmax : max (t.array.length + p) t.array.length - t.array.length = p := by omega
  have hmax' : max (t.array.length + p + 1) t.array.length - t.array.length = p + 1 := by omega
  have hnone : t.array.length - (t.array.length + p) = 0 := by omega
  have hnone' : t.array.length - (t.array.length + p + 1) = 0 := by omega
  simp only [Table.entriesFrom, hmax, hmax', hnone, hnone', hlen, List.range'_succ, List.range'_zero,
    List.filterMap_nil, List.nil_append]
  cases h : t.nodeSlot p <;> simp [h]

theorem entriesFrom_suffix (t : Table κ α) (i : ℕ) : t.entriesFrom K i <:+ t.entries K := by
  induction i with
  | zero => exact entriesFrom_zero t ▸ List.suffix_rfl
  | succ i ih =>
    refine List.IsSuffix.trans ?_ ih
    by_cases hi : i < t.array.length
    · rw [entriesFrom_array t hi]
      exact List.suffix_append _ _
    · obtain ⟨p, rfl⟩ := Nat.exists_eq_add_of_le (Nat.not_lt.mp hi)
      by_cases hp : p < t.hash.size
      · rw [entriesFrom_node t hp]
        exact List.suffix_append _ _
      · have hmax : max (t.array.length + p + 1) t.array.length - t.array.length = p + 1 := by omega
        have hnone : t.array.length - (t.array.length + p + 1) = 0 := by omega
        have hend : t.hash.size - (p + 1) = 0 := by omega
        have hnil : t.entriesFrom K (t.array.length + p + 1) = [] := by
          simp only [Table.entriesFrom, hmax, hnone, hend, List.range'_zero, List.filterMap_nil,
            List.append_nil]
        rw [hnil]
        exact List.nil_suffix

section Next

variable [DecidableEq κ]

/-- `luaH_next` gives the first entry from where it goes on. -/
theorem next_eq (t : Table κ α) (key : Option κ) :
    t.next K key = (t.findindex K key).map fun i => (t.entriesFrom K i).head? := by
  rw [Table.next]
  congr 1
  funext i
  simp only [Table.entriesFrom, List.head?_append, List.head?_filterMap]
  cases (List.range' i (t.array.length - i)).findSome? (t.arraySlot K) <;> rfl

/-- Behind the key of an entry it goes on with the next one. -/
theorem findindex_entry (ht : t.Proper K) {a : α} (h : t.get K k = some a) :
    ∃ i, t.findindex K (some k) = some (i + 1) ∧ t.entriesFrom K i = (k, a) :: t.entriesFrom K (i + 1) := by
  obtain ⟨s, hs, hval⟩ := Option.bind_eq_some_iff.mp h
  rw [Table.findindex, hs]
  cases s with
  | array i =>
    obtain ⟨hi, rfl⟩ := (locate_array_iff ht).mp hs
    have hslot : t.arraySlot K i = some (K.num (i + 1), a) := by
      rw [Table.arraySlot]
      exact congrArg (Option.map _) hval
    exact ⟨i, rfl, by rw [entriesFrom_array t hi, hslot]; rfl⟩
  | node p =>
    have hkey := (locate_node_iff ht).mp hs
    have hp := ht.hash.inv.bounded p (by simp [hkey])
    exact ⟨t.array.length + p, rfl, by rw [entriesFrom_node t hp, nodeSlot_iff.mpr ⟨hkey, hval⟩]; rfl⟩

end Next

/-! ### Runs -/

section Runs

variable [DecidableEq κ]

/-- One store after the other. -/
def runStores (K : Keys κ) (fuel : ℕ) : List (κ × Option α) → Table κ α → Result (Table κ α)
  | [], t => .ok t
  | (k, v) :: rest, t => (set K fuel t k v).bind (runStores K fuel rest)

/-- What is stored last under each key. -/
def stored (m : κ → Option α) (stores : List (κ × Option α)) : κ → Option α :=
  stores.foldl (fun m e => Function.update m e.1 e.2) m

/-- What a run has stored, and the keys it can know. -/
structure Holds (K : Keys κ) (m : κ → Option α) (known : List κ) (t : Table κ α) : Prop where
  proper : t.Proper K
  get : ∀ c, t.get K c = m c
  live : ∀ c, m c ≠ none → c ∈ known
  nodes : ∀ p c, (t.hash.nodes p).key = some c → c ∈ known

/-- Without an array part and with unused nodes only there is nothing in it. -/
theorem Holds.unused {hash : Scatter.Hash κ α} (hhash : hash.Proper (K.mainposition hash.size))
    (hunused : ∀ p, hash.nodes p = Scatter.unused) : Holds K (fun _ => none) [] ⟨[], hash⟩ := by
  have hkey : ∀ p c, (hash.nodes p).key ≠ some c := fun p c hp => by
    rw [hunused p] at hp
    cases hp
  have hproper : Table.Proper K ⟨[], hash⟩ :=
    ⟨hhash, Nat.zero_le _, fun p k i hp => absurd hp (hkey p k)⟩
  refine ⟨hproper, fun c => Option.eq_none_iff_forall_ne_some.mpr fun a ha => ?_,
    fun c hc => absurd rfl hc, fun p c hp => absurd hp (hkey p c)⟩
  have hin : ¬ (⟨[], hash⟩ : Table κ α).InArray K c := fun ⟨i, hi, hle⟩ => by
    have := (K.of_arrayindex c i hi).1
    exact absurd hle (Nat.not_le.mpr this)
  obtain ⟨p, hp, -⟩ := (get_holds hproper hin).mp ha
  exact hkey p c hp

theorem Holds.new (K : Keys κ) : Holds K (fun _ => none) [] (Table.new : Table κ α) :=
  .unused (unused_proper Nat.one_pos true) fun _ => rfl

/-- Whatever room `luaH_new` makes for nodes. -/
theorem Holds.luaHNew {nhash : ℕ} {t : Table κ α} (h : luaHNew 0 nhash = .ok t) :
    Holds K (fun _ => none) [] t := by
  obtain ⟨hover, -⟩ | ⟨hash, hok, hproper, hunused, -⟩ :=
    setnodevector_cases (α := α) K (List.replicate nhash (K.num 0))
  · rw [List.length_replicate] at hover
    rw [Ltable.luaHNew, hover] at h
    cases h
  · rw [List.length_replicate] at hok
    rw [Ltable.luaHNew, hok] at h
    obtain rfl := Result.ok.inj h
    exact .unused hproper hunused

/-- There are no more entries than keys. -/
theorem Holds.length_le {m : κ → Option α} {known : List κ} (h : Holds K m known t) :
    (t.entries K).length ≤ known.length := by
  have hsub : (t.entries K).map Prod.fst ⊆ known := by
    intro c hc
    obtain ⟨⟨c, a⟩, hmem, rfl⟩ := List.mem_map.mp hc
    refine h.live c ?_
    rw [← h.get, (mem_entries h.proper).mp hmem]
    exact Option.some_ne_none a
  simpa using ((nodup_entries h.proper).subperm hsub).length_le

theorem Holds.set {m : κ → Option α} {known : List κ} (h : Holds K m known t) (fuel : ℕ) (k : κ)
    (v : Option α) : set K (fuel + 1) t k v = .overflow ∧ 2 ^ maxBits ≤ known.length ∨
      ∃ t', set K (fuel + 1) t k v = .ok t' ∧ Holds K (Function.update m k v) (k :: known) t' := by
  obtain ⟨hover, hlarge⟩ | ⟨t', heq, ht', hget, hkeys⟩ := set_ok h.proper fuel k v
  · exact .inl ⟨hover, hlarge.trans h.length_le⟩
  · refine .inr ⟨t', heq, ht', fun c => ?_, fun c hc => ?_, fun p c hp => ?_⟩
    · rw [hget, h.get, Function.update_apply]
    · rcases eq_or_ne c k with rfl | hne
      · exact List.mem_cons_self
      · rw [Function.update_of_ne hne] at hc
        exact List.mem_cons_of_mem k (h.live c hc)
    · obtain rfl | hold | ⟨q, hq⟩ := hkeys p c hp
      · exact List.mem_cons_self
      · rw [h.get] at hold
        exact List.mem_cons_of_mem k (h.live c hold)
      · exact List.mem_cons_of_mem k (h.nodes q c hq)

/-- Any run of stores, with one rehash at most inside each of them. -/
theorem runStores_ok {m : κ → Option α} {known : List κ} (h : Holds K m known t) (fuel : ℕ)
    (stores : List (κ × Option α)) :
    runStores K (fuel + 1) stores t = .overflow ∧ 2 ^ maxBits < known.length + stores.length ∨
      ∃ t', runStores K (fuel + 1) stores t = .ok t' ∧
        Holds K (stored m stores) ((stores.map Prod.fst).reverse ++ known) t' := by
  induction stores generalizing t m known with
  | nil => exact .inr ⟨t, rfl, h⟩
  | cons e stores ih =>
    obtain ⟨k, v⟩ := e
    rw [runStores]
    obtain ⟨hover, hlarge⟩ | ⟨t', heq, h'⟩ := h.set fuel k v
    · rw [hover]
      refine .inl ⟨rfl, ?_⟩
      rw [List.length_cons]
      omega
    · rw [heq]
      obtain ⟨hover, hlarge⟩ | ⟨t'', heq', h''⟩ := ih h'
      · refine .inl ⟨hover, ?_⟩
        rw [List.length_cons] at hlarge ⊢
        omega
      · refine .inr ⟨t'', heq', ?_⟩
        rw [List.map_cons, List.reverse_cons, List.append_assoc]
        exact h''

end Runs

end Ltable
