import Mathlib.Data.List.Nodup
import Mathlib.Data.List.Perm.Subperm
import Mathlib.Data.Nat.Notation
import Mathlib.Logic.Function.Basic
import Mathlib.Order.Nat

/-! Chained scatter tables with Brent's variation.

    Every key has its main position, and the nodes of a table are linked into chains that are followed
    from there. A key that comes to a taken main position either goes to a free node and into the chain,
    or moves the node that is there to the free one when that is not in its own main position. A node
    whose value is gone keeps its key and its place in a chain, and can be taken over by a key whose main
    position it is: then chains run into each other.

        main position   3 ──▶ 7 ──▶ 1       node 7 has no value any more, and a key of main position 7 comes:
                        3 ──▶ 7 ──▶ 1       which begins at 7 what is the rest of the chain of 3 -/

namespace Scatter

variable {κ α : Type*}

structure Node (κ α : Type*) where
  key : Option κ
  val : Option α
  next : Option ℕ

/-- A node that has not been used. -/
abbrev unused : Node κ α := ⟨none, none, none⟩

abbrev Nodes (κ α : Type*) := ℕ → Node κ α

section Code

variable [DecidableEq κ]

/-- Where the key stands in the chain from `p` on. -/
def find (t : Nodes κ α) (k : κ) : ℕ → ℕ → Option ℕ
  | 0, _ => none
  | fuel + 1, p =>
    if (t p).key = some k then some p
    else match (t p).next with
      | none => none
      | some q => find t k fuel q

/-- The node before `mp` in the chain from `p` on. -/
def previous (t : Nodes κ α) (mp : ℕ) : ℕ → ℕ → Option ℕ
  | 0, _ => none
  | fuel + 1, p =>
    match (t p).next with
    | none => none
    | some q => if q = mp then some p else previous t mp fuel q

/-- A key takes over its main position, which has no value. -/
def claim (t : Nodes κ α) (k : κ) (mp : ℕ) : Nodes κ α :=
  Function.update t mp { t mp with key := some k }

/-- A key goes to the free node `n`, behind its main position. -/
def behind (t : Nodes κ α) (k : κ) (mp n : ℕ) : Nodes κ α :=
  let t := Function.update t n { t n with next := (t mp).next }
  let t := Function.update t mp { t mp with next := some n }
  Function.update t n { t n with key := some k }

/-- A key takes its main position; what was there goes to the free node `n`, behind `prev` as before. -/
def evict (t : Nodes κ α) (k : κ) (mp n prev : ℕ) : Nodes κ α :=
  let t := Function.update t prev { t prev with next := some n }
  let t := Function.update t n (t mp)
  Function.update t mp ⟨some k, none, none⟩

/-- `getfreepos`: the last node below `lastfree` that is not used, and where `lastfree` is then. -/
def getfreepos (t : Nodes κ α) : ℕ → Option ℕ × ℕ
  | 0 => (none, 0)
  | lastfree + 1 => if (t lastfree).key.isNone then (some lastfree, lastfree) else getfreepos t lastfree

end Code

/-- The nodes of a table. A table without nodes of its own has the common dummy node, which is never
    written. -/
structure Hash (κ α : Type*) where
  nodes : Nodes κ α
  size : ℕ
  lastfree : ℕ
  dummy : Bool

/-- `newkey` up to the rehash: the node for a key that is in no node. `some none` is for no free place;
    none is for a null pointer that would be followed. -/
def Hash.newkey (h : κ → ℕ) (t : Hash κ α) (k : κ) : Option (Option (Hash κ α × ℕ)) :=
  let mp := h k
  if (t.nodes mp).val.isSome || t.dummy then
    match getfreepos t.nodes t.lastfree with
    | (none, _) => some none
    | (some n, lastfree) =>
      match (t.nodes mp).key with
      | none => none
      | some c =>
        if h c ≠ mp then
          (previous t.nodes mp t.size (h c)).map fun prev =>
            some ({ t with nodes := evict t.nodes k mp n prev, lastfree := lastfree }, mp)
        else some (some ({ t with nodes := behind t.nodes k mp n, lastfree := lastfree }, n))
  else some (some ({ t with nodes := claim t.nodes k mp }, mp))

/-! ### Chains -/

/-- The nodes from one to another along a chain. -/
inductive Path (t : Nodes κ α) : ℕ → List ℕ → ℕ → Prop where
  | single (p : ℕ) : Path t p [p] p
  | cons {p q b : ℕ} {l : List ℕ} (h : (t p).next = some q) (hl : Path t q l b) : Path t p (p :: l) b

def Reaches (t : Nodes κ α) (a b : ℕ) : Prop := ∃ l, Path t a l b

/-- A table of `size` nodes, `h` being the main position of a key. -/
structure Inv (h : κ → ℕ) (size : ℕ) (t : Nodes κ α) : Prop where
  bounded : ∀ p, (t p).key ≠ none → p < size
  unused : ∀ p, (t p).key = none → t p = unused
  used : ∀ p q, (t p).next = some q → (t q).key ≠ none
  inj : ∀ p p' q, (t p).next = some q → (t p').next = some q → p = p'
  rank : ∃ r : ℕ → ℕ, ∀ p q, (t p).next = some q → r q < r p
  reach : ∀ p k, (t p).key = some k → Reaches t (h k) p
  main : ∀ p k, (t p).key = some k → ∃ c, (t (h k)).key = some c ∧ h c = h k
  distinct : ∀ p q k, (t p).key = some k → (t q).key = some k → p = q

/-- A key with a value. -/
def Holds (t : Nodes κ α) (k : κ) (v : α) : Prop := ∃ p, (t p).key = some k ∧ (t p).val = some v

variable {t t' : Nodes κ α} {h : κ → ℕ} {size : ℕ}

theorem Reaches.refl (t : Nodes κ α) (p : ℕ) : Reaches t p p := ⟨[p], .single p⟩

theorem Reaches.head {p q b : ℕ} (hp : (t p).next = some q) (hq : Reaches t q b) : Reaches t p b := by
  obtain ⟨l, hl⟩ := hq
  exact ⟨p :: l, .cons hp hl⟩

theorem Reaches.trans {a b c : ℕ} (hab : Reaches t a b) (hbc : Reaches t b c) : Reaches t a c := by
  obtain ⟨l, hl⟩ := hab
  induction hl with
  | single p => exact hbc
  | cons hp _ ih => exact .head hp (ih hbc)

/-- Where every link of one table can be followed in another, all that is reached still is. -/
theorem Reaches.map {σ : ℕ → ℕ} (hstep : ∀ p q, (t p).next = some q → Reaches t' (σ p) (σ q)) {a b : ℕ}
    (hab : Reaches t a b) : Reaches t' (σ a) (σ b) := by
  obtain ⟨l, hl⟩ := hab
  induction hl with
  | single p => exact .refl t' (σ p)
  | cons hp _ ih => exact (hstep _ _ hp).trans ih

/-- A chain does not come back, so it is no longer than the table. -/
theorem Path.length_le (hi : Inv h size t) {a b : ℕ} {l : List ℕ} (hl : Path t a l b)
    (ha : (t a).key ≠ none) : l.length ≤ size := by
  obtain ⟨r, hr⟩ := hi.rank
  have hnodup : l.Nodup ∧ ∀ p ∈ l, r p ≤ r a ∧ p < size := by
    induction hl with
    | single p => exact ⟨List.nodup_singleton p, by simpa using hi.bounded p ha⟩
    | @cons p q b l hp hl ih =>
      obtain ⟨hnodup, hle⟩ := ih (hi.used p q hp)
      have hlt := hr p q hp
      refine ⟨List.nodup_cons.mpr ⟨fun hmem => ?_, hnodup⟩, List.forall_mem_cons.mpr ⟨?_, ?_⟩⟩
      · have := (hle p hmem).1
        omega
      · exact ⟨le_rfl, hi.bounded p ha⟩
      · exact fun c hc => ⟨(hle c hc).1.trans hlt.le, (hle c hc).2⟩
  have hsub : l ⊆ List.range size := fun p hp => List.mem_range.mpr (hnodup.2 p hp).2
  simpa using (hnodup.1.subperm hsub).length_le

section Find

variable [DecidableEq κ]

theorem find_key {k : κ} {fuel p q : ℕ} (hf : find t k fuel p = some q) : (t q).key = some k := by
  induction fuel generalizing p with
  | zero => cases hf
  | succ fuel ih =>
    rw [find] at hf
    split at hf
    · rename_i hkey
      exact Option.some.inj hf ▸ hkey
    · split at hf
      · cases hf
      · exact ih hf

theorem find_path (hi : Inv h size t) {k : κ} {p q : ℕ} {l : List ℕ} (hl : Path t p l q)
    (hq : (t q).key = some k) {fuel : ℕ} (hfuel : l.length ≤ fuel) : find t k fuel p = some q := by
  induction hl generalizing fuel with
  | single p =>
    obtain ⟨fuel, rfl⟩ := Nat.exists_eq_add_of_lt (Nat.lt_of_lt_of_le Nat.one_pos hfuel)
    rw [Nat.zero_add, find, if_pos hq]
  | @cons p c q l hp hl ih =>
    rw [List.length_cons] at hfuel
    obtain ⟨fuel, rfl⟩ : ∃ n, fuel = n + 1 := ⟨fuel - 1, by omega⟩
    rw [find]
    split
    · rename_i hkey
      rw [hi.distinct p q k hkey hq]
    · rw [hp]
      exact ih hq (by omega)

/-- The search from the main position finds the node with the key, and only that. -/
theorem find_iff (hi : Inv h size t) {k : κ} {p : ℕ} :
    find t k size (h k) = some p ↔ (t p).key = some k := by
  refine ⟨find_key, fun hp => ?_⟩
  obtain ⟨l, hl⟩ := hi.reach p k hp
  obtain ⟨c, hc, -⟩ := hi.main p k hp
  exact find_path hi hl hp (hl.length_le hi (by simp [hc]))

end Find

/-- The search for the node before another finds it, when the other is on the chain. -/
theorem previous_path {mp p : ℕ} {l : List ℕ} (hl : Path t p l mp) (hne : p ≠ mp)
    {fuel : ℕ} (hfuel : l.length ≤ fuel) :
    ∃ prev, previous t mp fuel p = some prev ∧ (t prev).next = some mp := by
  induction hl generalizing fuel with
  | single p => exact absurd rfl hne
  | @cons p c q l hp hl ih =>
    rw [List.length_cons] at hfuel
    obtain ⟨fuel, rfl⟩ : ∃ n, fuel = n + 1 := ⟨fuel - 1, by omega⟩
    rw [previous, hp]
    by_cases hc : c = q
    · subst hc
      exact ⟨p, if_pos rfl, hp⟩
    · obtain ⟨prev, hprev, hnext⟩ := ih hc (by omega : l.length ≤ fuel)
      exact ⟨prev, (if_neg hc).trans hprev, hnext⟩

/-! ### A new value -/

section Value

variable {p : ℕ} {v : Option α}

theorem setval_key (t : Nodes κ α) (p : ℕ) (v : Option α) (q : ℕ) :
    (Function.update t p { t p with val := v } q).key = (t q).key := by
  rcases eq_or_ne q p with rfl | hq
  · rw [Function.update_self]
  · rw [Function.update_of_ne hq]

theorem setval_next (t : Nodes κ α) (p : ℕ) (v : Option α) (q : ℕ) :
    (Function.update t p { t p with val := v } q).next = (t q).next := by
  rcases eq_or_ne q p with rfl | hq
  · rw [Function.update_self]
  · rw [Function.update_of_ne hq]

theorem find_setval [DecidableEq κ] (t : Nodes κ α) (p : ℕ) (v : Option α) (k : κ) (fuel q : ℕ) :
    find (Function.update t p { t p with val := v }) k fuel q = find t k fuel q := by
  induction fuel generalizing q with
  | zero => rfl
  | succ fuel ih => simp only [find, setval_key, setval_next, ih]

theorem Inv.setval (hi : Inv h size t) (hp : (t p).key ≠ none) :
    Inv h size (Function.update t p { t p with val := v }) := by
  constructor
  · intro q hq
    rw [setval_key] at hq
    exact hi.bounded q hq
  · intro q hq
    rw [setval_key] at hq
    have hne : q ≠ p := fun heq => hp (heq ▸ hq)
    rw [Function.update_of_ne hne]
    exact hi.unused q hq
  · intro a b hab
    rw [setval_next] at hab
    rw [setval_key]
    exact hi.used a b hab
  · intro a a' b hab hab'
    rw [setval_next] at hab hab'
    exact hi.inj a a' b hab hab'
  · obtain ⟨r, hr⟩ := hi.rank
    exact ⟨r, fun a b hab => hr a b (setval_next t p v a ▸ hab)⟩
  · intro q k hq
    rw [setval_key] at hq
    have hstep : ∀ a b, (t a).next = some b →
        Reaches (Function.update t p { t p with val := v }) (id a) (id b) := fun a b hab =>
      .head ((setval_next t p v a).trans hab) (.refl _ _)
    exact Reaches.map hstep (hi.reach q k hq)
  · intro q k hq
    rw [setval_key] at hq
    obtain ⟨c, hc, hmain⟩ := hi.main q k hq
    exact ⟨c, (setval_key t p v _).trans hc, hmain⟩
  · intro a b k ha hb
    rw [setval_key] at ha hb
    exact hi.distinct a b k ha hb

end Value

/-! ### A new key -/

/-- What a new key changes: it is at `p`, without a value, and the values are where they can be found. -/
structure Added (t t' : Nodes κ α) (k : κ) (p : ℕ) : Prop where
  key : (t' p).key = some k
  val : (t' p).val = none
  holds : ∀ c v, Holds t' c v ↔ Holds t c v
  keys : ∀ q c, (t' q).key = some c → c = k ∨ ∃ q, (t q).key = some c
  kept : ∀ q, (t q).key ≠ none → (t' q).key ≠ none

variable {k : κ} {n prev : ℕ}

section Claim

theorem claim_self (t : Nodes κ α) (k : κ) (mp : ℕ) : claim t k mp mp = { t mp with key := some k } :=
  Function.update_self ..

theorem claim_of_ne (t : Nodes κ α) (k : κ) {mp p : ℕ} (hp : p ≠ mp) : claim t k mp p = t p :=
  Function.update_of_ne hp ..

theorem claim_next (t : Nodes κ α) (k : κ) (mp p : ℕ) : (claim t k mp p).next = (t p).next := by
  rcases eq_or_ne p mp with rfl | hp
  · rw [claim_self]
  · rw [claim_of_ne t k hp]

theorem claim_added (hval : (t (h k)).val = none) : Added t (claim t k (h k)) k (h k) where
  key := by rw [claim_self]
  val := by rw [claim_self]; exact hval
  holds c v := by
    refine exists_congr fun p => ?_
    rcases eq_or_ne p (h k) with rfl | hp
    · simp [claim_self, hval]
    · rw [claim_of_ne t k hp]
  keys q c hq := by
    rcases eq_or_ne q (h k) with rfl | hne
    · rw [claim_self, Option.some.injEq] at hq
      exact .inl hq.symm
    · rw [claim_of_ne t k hne] at hq
      exact .inr ⟨q, hq⟩
  kept q hq := by
    rcases eq_or_ne q (h k) with rfl | hne
    · simp [claim_self]
    · rwa [claim_of_ne t k hne]

theorem claim_inv (hi : Inv h size t) (hlt : h k < size) (hnew : ∀ p, (t p).key ≠ some k) :
    Inv h size (claim t k (h k)) := by
  have hkey : ∀ p c, (claim t k (h k) p).key = some c → p = h k ∧ c = k ∨ p ≠ h k ∧ (t p).key = some c := by
    intro p c hp
    rcases eq_or_ne p (h k) with rfl | hne
    · rw [claim_self, Option.some.injEq] at hp
      exact .inl ⟨rfl, hp.symm⟩
    · rw [claim_of_ne t k hne] at hp
      exact .inr ⟨hne, hp⟩
  constructor
  · intro p hp
    rcases eq_or_ne p (h k) with rfl | hne
    · exact hlt
    · rw [claim_of_ne t k hne] at hp
      exact hi.bounded p hp
  · intro p hp
    rcases eq_or_ne p (h k) with rfl | hne
    · rw [claim_self] at hp
      cases hp
    · rw [claim_of_ne t k hne] at hp ⊢
      exact hi.unused p hp
  · intro p q hpq
    rw [claim_next] at hpq
    rcases eq_or_ne q (h k) with rfl | hne
    · simp [claim_self]
    · rw [claim_of_ne t k hne]
      exact hi.used p q hpq
  · intro p p' q hp hp'
    rw [claim_next] at hp hp'
    exact hi.inj p p' q hp hp'
  · obtain ⟨r, hr⟩ := hi.rank
    refine ⟨r, fun p q hpq => ?_⟩
    rw [claim_next] at hpq
    exact hr p q hpq
  · intro p c hp
    obtain ⟨rfl, rfl⟩ | ⟨-, hp⟩ := hkey p c hp
    · exact .refl _ _
    · have hstep : ∀ a b, (t a).next = some b → Reaches (claim t k (h k)) (id a) (id b) := fun a b hab =>
        .head (by rw [claim_next]; exact hab) (.refl _ _)
      exact Reaches.map hstep (hi.reach p c hp)
  · intro p c hp
    obtain ⟨rfl, rfl⟩ | ⟨-, hp⟩ := hkey p c hp
    · exact ⟨c, by rw [claim_self], rfl⟩
    · obtain ⟨d, hd, hmain⟩ := hi.main p c hp
      rcases eq_or_ne (h c) (h k) with heq | hne
      · exact ⟨k, by rw [heq, claim_self], heq.symm⟩
      · exact ⟨d, by rw [claim_of_ne t k hne]; exact hd, hmain⟩
  · intro p q c hp hq
    obtain ⟨rfl, rfl⟩ | ⟨-, hpold⟩ := hkey p c hp
    · obtain ⟨rfl, -⟩ | ⟨-, hqold⟩ := hkey q c hq
      · rfl
      · exact absurd hqold (hnew q)
    · obtain ⟨-, rfl⟩ | ⟨-, hqold⟩ := hkey q c hq
      · exact absurd hpold (hnew p)
      · exact hi.distinct p q c hpold hqold

end Claim

section Behind

variable {mp : ℕ}

theorem behind_main (hn : n ≠ mp) : behind t k mp n mp = { t mp with next := some n } := by
  simp [behind, Function.update_of_ne hn.symm]

theorem behind_free (hn : n ≠ mp) (hfree : t n = unused) :
    behind t k mp n n = ⟨some k, none, (t mp).next⟩ := by
  simp [behind, Function.update_of_ne hn, hfree]

theorem behind_of_ne {p : ℕ} (hmp : p ≠ mp) (hp : p ≠ n) : behind t k mp n p = t p := by
  simp [behind, Function.update_of_ne hmp, Function.update_of_ne hp]

/-- Where the links go now. -/
theorem behind_next (hn : n ≠ mp) (hfree : t n = unused) {p q : ℕ} :
    (behind t k mp n p).next = some q ↔ p = mp ∧ q = n ∨ p = n ∧ (t mp).next = some q ∨
      p ≠ mp ∧ p ≠ n ∧ (t p).next = some q := by
  rcases eq_or_ne p mp with rfl | hmp
  · rw [behind_main hn]
    simp [hn.symm, eq_comm]
  · rcases eq_or_ne p n with rfl | hp
    · rw [behind_free hn hfree]
      simp [hmp]
    · rw [behind_of_ne hmp hp]
      simp [hmp, hp]

/-- Where the keys are now. -/
theorem behind_key (hn : n ≠ mp) (hfree : t n = unused) {p : ℕ} {c : κ} :
    (behind t k mp n p).key = some c ↔ p = n ∧ c = k ∨ p ≠ n ∧ (t p).key = some c := by
  rcases eq_or_ne p n with rfl | hp
  · rw [behind_free hn hfree]
    simp [eq_comm]
  · rcases eq_or_ne p mp with rfl | hmp
    · rw [behind_main hn]
      simp [hp]
    · rw [behind_of_ne hmp hp]
      simp [hp]

theorem behind_val (hn : n ≠ mp) (hfree : t n = unused) (p : ℕ) : (behind t k mp n p).val = (t p).val := by
  rcases eq_or_ne p n with rfl | hp
  · rw [behind_free hn hfree, hfree]
  · rcases eq_or_ne p mp with rfl | hmp
    · rw [behind_main hn]
    · rw [behind_of_ne hmp hp]

theorem behind_added (hn : n ≠ mp) (hfree : t n = unused) : Added t (behind t k mp n) k n where
  key := (behind_key hn hfree).mpr (.inl ⟨rfl, rfl⟩)
  val := by rw [behind_val hn hfree, hfree]
  holds c v := by
    refine exists_congr fun p => ?_
    rw [behind_key hn hfree, behind_val hn hfree]
    rcases eq_or_ne p n with rfl | hp
    · simp [hfree]
    · simp [hp]
  keys q c hq := by
    obtain ⟨-, rfl⟩ | ⟨-, hold⟩ := (behind_key hn hfree).mp hq
    · exact .inl rfl
    · exact .inr ⟨q, hold⟩
  kept q hq := by
    obtain ⟨c, hc⟩ := Option.ne_none_iff_exists'.mp hq
    have hp : q ≠ n := fun heq => by simp [heq, hfree] at hc
    rw [(behind_key hn hfree).mpr (.inr ⟨hp, hc⟩)]
    exact Option.some_ne_none c

/-- The main position is taken by a key that belongs there. -/
theorem behind_inv (hi : Inv h size t) {c : κ} (hc : (t (h k)).key = some c) (hmain : h c = h k)
    (hlt : n < size) (hfree : (t n).key = none) (hnew : ∀ p, (t p).key ≠ some k) :
    Inv h size (behind t k (h k) n) := by
  have hn : n ≠ h k := fun heq => by simp [heq, hc] at hfree
  have hunused := hi.unused n hfree
  have hto : ∀ p q, (t p).next = some q → q ≠ n := fun p q hpq heq => hi.used p q hpq (heq ▸ hfree)
  constructor
  · intro p hp
    obtain ⟨d, hd⟩ := Option.ne_none_iff_exists'.mp hp
    obtain ⟨rfl, -⟩ | ⟨-, hold⟩ := (behind_key hn hunused).mp hd
    · exact hlt
    · exact hi.bounded p (by simp [hold])
  · intro p hp
    have hpn : p ≠ n := fun heq => by simp [heq, behind_free hn hunused] at hp
    have hpm : p ≠ h k := fun heq => by simp [heq, behind_main hn, hc] at hp
    rw [behind_of_ne hpm hpn] at hp ⊢
    exact hi.unused p hp
  · intro p q hpq
    have hkept := (behind_added (k := k) hn hunused).kept
    obtain ⟨-, rfl⟩ | ⟨-, hold⟩ | ⟨-, -, hold⟩ := (behind_next hn hunused).mp hpq
    · rw [behind_free hn hunused]
      exact Option.some_ne_none k
    · exact hkept q (hi.used _ q hold)
    · exact hkept q (hi.used _ q hold)
  · intro p p' q hp hp'
    obtain ⟨rfl, rfl⟩ | ⟨rfl, hold⟩ | ⟨hpm, hpn, hold⟩ := (behind_next hn hunused).mp hp
    · obtain ⟨rfl, -⟩ | ⟨-, hold'⟩ | ⟨-, -, hold'⟩ := (behind_next hn hunused).mp hp'
      · rfl
      · exact absurd rfl (hto _ _ hold')
      · exact absurd rfl (hto _ _ hold')
    · obtain ⟨-, rfl⟩ | ⟨rfl, -⟩ | ⟨hpm', -, hold'⟩ := (behind_next hn hunused).mp hp'
      · exact absurd rfl (hto _ _ hold)
      · rfl
      · exact absurd (hi.inj _ _ q hold' hold) hpm'
    · obtain ⟨-, rfl⟩ | ⟨-, hold'⟩ | ⟨-, -, hold'⟩ := (behind_next hn hunused).mp hp'
      · exact absurd rfl (hto _ _ hold)
      · exact absurd (hi.inj _ _ q hold hold') hpm
      · exact hi.inj _ _ q hold hold'
  · -- room for one more between a node and the next one
    obtain ⟨r, hr⟩ := hi.rank
    refine ⟨fun p => if p = n then 2 * r (h k) else 2 * r p + 1, fun p q hpq => ?_⟩
    obtain ⟨rfl, rfl⟩ | ⟨rfl, hold⟩ | ⟨-, hpn, hold⟩ := (behind_next hn hunused).mp hpq
    · simp [hn.symm]
    · have := hr _ q hold
      simp [hto _ q hold]
      omega
    · have := hr p q hold
      simp [hpn, hto p q hold]
      omega
  · intro p d hp
    have hstep : ∀ a b, (t a).next = some b → Reaches (behind t k (h k) n) (id a) (id b) := by
      intro a b hab
      have han : a ≠ n := fun heq => by simp [heq, hunused] at hab
      rcases eq_or_ne a (h k) with rfl | ham
      · exact .head ((behind_next hn hunused).mpr (.inl ⟨rfl, rfl⟩))
          (.head ((behind_next hn hunused).mpr (.inr (.inl ⟨rfl, hab⟩))) (.refl _ _))
      · exact .head ((behind_next hn hunused).mpr (.inr (.inr ⟨ham, han, hab⟩))) (.refl _ _)
    obtain ⟨rfl, rfl⟩ | ⟨-, hold⟩ := (behind_key hn hunused).mp hp
    · exact .head ((behind_next hn hunused).mpr (.inl ⟨rfl, rfl⟩)) (.refl _ _)
    · exact Reaches.map hstep (hi.reach p d hold)
  · intro p d hp
    obtain ⟨rfl, rfl⟩ | ⟨-, hold⟩ := (behind_key hn hunused).mp hp
    · exact ⟨c, (behind_key hn hunused).mpr (.inr ⟨hn.symm, hc⟩), hmain⟩
    · obtain ⟨e, he, heq⟩ := hi.main p d hold
      have hne : h d ≠ n := fun heq => by simp [heq, hfree] at he
      exact ⟨e, (behind_key hn hunused).mpr (.inr ⟨hne, he⟩), heq⟩
  · intro p q d hp hq
    obtain ⟨rfl, rfl⟩ | ⟨-, hold⟩ := (behind_key hn hunused).mp hp
    · obtain ⟨rfl, -⟩ | ⟨-, hold'⟩ := (behind_key hn hunused).mp hq
      · rfl
      · exact absurd hold' (hnew q)
    · obtain ⟨-, rfl⟩ | ⟨-, hold'⟩ := (behind_key hn hunused).mp hq
      · exact absurd hold (hnew p)
      · exact hi.distinct p q d hold hold'

end Behind

section Evict

variable {mp : ℕ}

theorem evict_main : evict t k mp n prev mp = ⟨some k, none, none⟩ := Function.update_self ..

theorem evict_free (hn : n ≠ mp) (hprev : prev ≠ mp) : evict t k mp n prev n = t mp := by
  simp [evict, Function.update_of_ne hn, Function.update_of_ne hprev.symm]

theorem evict_prev (hprev : prev ≠ mp) (hpn : prev ≠ n) :
    evict t k mp n prev prev = { t prev with next := some n } := by
  simp [evict, Function.update_of_ne hprev, Function.update_of_ne hpn]

theorem evict_of_ne {p : ℕ} (hmp : p ≠ mp) (hn : p ≠ n) (hp : p ≠ prev) : evict t k mp n prev p = t p := by
  simp [evict, Function.update_of_ne hmp, Function.update_of_ne hn, Function.update_of_ne hp]

/-- Where the links go now. -/
theorem evict_next (hn : n ≠ mp) (hprev : prev ≠ mp) (hpn : prev ≠ n) {p q : ℕ} :
    (evict t k mp n prev p).next = some q ↔ p = prev ∧ q = n ∨ p = n ∧ (t mp).next = some q ∨
      p ≠ mp ∧ p ≠ n ∧ p ≠ prev ∧ (t p).next = some q := by
  rcases eq_or_ne p mp with rfl | hmp
  · rw [evict_main]
    simp [hprev.symm, hn.symm]
  · rcases eq_or_ne p n with rfl | hp
    · rw [evict_free hn hprev]
      simp [hpn.symm]
    · rcases eq_or_ne p prev with rfl | hpp
      · rw [evict_prev hprev hpn]
        simp [hp, eq_comm]
      · rw [evict_of_ne hmp hp hpp]
        simp [hmp, hp, hpp]

/-- Where the keys are now. -/
theorem evict_key (hn : n ≠ mp) (hprev : prev ≠ mp) {p : ℕ} {c : κ} :
    (evict t k mp n prev p).key = some c ↔ p = mp ∧ c = k ∨ p = n ∧ (t mp).key = some c ∨
      p ≠ mp ∧ p ≠ n ∧ (t p).key = some c := by
  rcases eq_or_ne p mp with rfl | hmp
  · rw [evict_main]
    simp [hn.symm, eq_comm]
  · rcases eq_or_ne p n with rfl | hp
    · rw [evict_free hn hprev]
      simp [hmp]
    · rcases eq_or_ne p prev with rfl | hpp
      · rw [evict_prev hprev hp]
        simp [hmp, hp]
      · rw [evict_of_ne hmp hp hpp]
        simp [hmp, hp]

theorem evict_val (hprev : prev ≠ mp) {p : ℕ} (hmp : p ≠ mp) (hp : p ≠ n) :
    (evict t k mp n prev p).val = (t p).val := by
  rcases eq_or_ne p prev with rfl | hpp
  · rw [evict_prev hprev hp]
  · rw [evict_of_ne hmp hp hpp]

theorem evict_added (hn : n ≠ mp) (hprev : prev ≠ mp) (hfree : t n = unused) :
    Added t (evict t k mp n prev) k mp where
  key := (evict_key hn hprev).mpr (.inl ⟨rfl, rfl⟩)
  val := by rw [evict_main]
  holds c v := by
    constructor
    · rintro ⟨p, hp, hval⟩
      obtain ⟨rfl, rfl⟩ | ⟨rfl, hold⟩ | ⟨hmp, hpn, hold⟩ := (evict_key hn hprev).mp hp
      · rw [evict_main] at hval
        cases hval
      · rw [evict_free hn hprev] at hval
        exact ⟨mp, hold, hval⟩
      · rw [evict_val hprev hmp hpn] at hval
        exact ⟨p, hold, hval⟩
    · rintro ⟨p, hp, hval⟩
      rcases eq_or_ne p mp with rfl | hmp
      · exact ⟨n, by rwa [evict_free hn hprev], by rwa [evict_free hn hprev]⟩
      · have hpn : p ≠ n := fun heq => by simp [heq, hfree] at hp
        exact ⟨p, (evict_key hn hprev).mpr (.inr (.inr ⟨hmp, hpn, hp⟩)), by rwa [evict_val hprev hmp hpn]⟩
  keys q c hq := by
    obtain ⟨-, rfl⟩ | ⟨-, hold⟩ | ⟨-, -, hold⟩ := (evict_key hn hprev).mp hq
    · exact .inl rfl
    · exact .inr ⟨mp, hold⟩
    · exact .inr ⟨q, hold⟩
  kept q hq := by
    obtain ⟨c, hc⟩ := Option.ne_none_iff_exists'.mp hq
    have hqn : q ≠ n := fun heq => by simp [heq, hfree] at hc
    rcases eq_or_ne q mp with rfl | hmp
    · rw [evict_main]
      exact Option.some_ne_none k
    · rw [(evict_key hn hprev).mpr (.inr (.inr ⟨hmp, hqn, hc⟩))]
      exact Option.some_ne_none c

/-- The main position is taken by a key that does not belong there. -/
theorem evict_inv (hi : Inv h size t) {c : κ} (hc : (t (h k)).key = some c) (hmain : h c ≠ h k)
    (hlt : n < size) (hfree : (t n).key = none) (hnew : ∀ p, (t p).key ≠ some k)
    (hnext : (t prev).next = some (h k)) : Inv h size (evict t k (h k) n prev) := by
  have hn : n ≠ h k := fun heq => by simp [heq, hc] at hfree
  have hunused := hi.unused n hfree
  have hto : ∀ p q, (t p).next = some q → q ≠ n := fun p q hpq heq => hi.used p q hpq (heq ▸ hfree)
  have hfrom : ∀ p q, (t p).next = some q → p ≠ n := fun p q hpq heq => by simp [heq, hunused] at hpq
  have hne : ∀ p q, (t p).next = some q → p ≠ q := by
    obtain ⟨r, hr⟩ := hi.rank
    intro p q hpq heq
    have := hr p q hpq
    rw [heq] at this
    exact Nat.lt_irrefl _ this
  have hprev := hne prev (h k) hnext
  have hpn := hfrom prev (h k) hnext
  -- no key belongs to the main position so far
  have hforeign : ∀ p d, (t p).key = some d → h d ≠ h k := by
    intro p d hd heq
    obtain ⟨e, he, hmain'⟩ := hi.main p d hd
    rw [heq, hc, Option.some.injEq] at he
    exact hmain (he ▸ hmain'.trans heq)
  have hkept := (evict_added (k := k) hn hprev hunused).kept
  constructor
  · intro p hp
    obtain ⟨d, hd⟩ := Option.ne_none_iff_exists'.mp hp
    obtain ⟨rfl, -⟩ | ⟨rfl, -⟩ | ⟨-, -, hold⟩ := (evict_key hn hprev).mp hd
    · exact hi.bounded _ (by simp [hc])
    · exact hlt
    · exact hi.bounded p (by simp [hold])
  · intro p hp
    have hpm : p ≠ h k := fun heq => by simp [heq, evict_main] at hp
    have hpn' : p ≠ n := fun heq => by simp [heq, evict_free hn hprev, hc] at hp
    rcases eq_or_ne p prev with rfl | hpp
    · rw [evict_prev hprev hpn] at hp
      rw [hi.unused p hp] at hnext
      cases hnext
    · rw [evict_of_ne hpm hpn' hpp] at hp ⊢
      exact hi.unused p hp
  · intro p q hpq
    obtain ⟨-, rfl⟩ | ⟨-, hold⟩ | ⟨-, -, -, hold⟩ := (evict_next hn hprev hpn).mp hpq
    · rw [evict_free hn hprev, hc]
      exact Option.some_ne_none c
    · exact hkept q (hi.used _ q hold)
    · exact hkept q (hi.used _ q hold)
  · intro p p' q hp hp'
    obtain ⟨rfl, rfl⟩ | ⟨rfl, hold⟩ | ⟨hpm, -, -, hold⟩ := (evict_next hn hprev hpn).mp hp
    · obtain ⟨rfl, -⟩ | ⟨-, hold'⟩ | ⟨-, -, -, hold'⟩ := (evict_next hn hprev hpn).mp hp'
      · rfl
      · exact absurd rfl (hto _ _ hold')
      · exact absurd rfl (hto _ _ hold')
    · obtain ⟨-, rfl⟩ | ⟨rfl, -⟩ | ⟨hpm', -, -, hold'⟩ := (evict_next hn hprev hpn).mp hp'
      · exact absurd rfl (hto _ _ hold)
      · rfl
      · exact absurd (hi.inj _ _ q hold' hold) hpm'
    · obtain ⟨-, rfl⟩ | ⟨-, hold'⟩ | ⟨-, -, -, hold'⟩ := (evict_next hn hprev hpn).mp hp'
      · exact absurd rfl (hto _ _ hold)
      · exact absurd (hi.inj _ _ q hold hold') hpm
      · exact hi.inj _ _ q hold hold'
  · -- the free node takes the place of the one that goes there
    obtain ⟨r, hr⟩ := hi.rank
    refine ⟨fun p => if p = n then r (h k) else r p, fun p q hpq => ?_⟩
    obtain ⟨rfl, rfl⟩ | ⟨rfl, hold⟩ | ⟨-, hpn', -, hold⟩ := (evict_next hn hprev hpn).mp hpq
    · simpa [hpn] using hr p _ hnext
    · simpa [hto _ q hold] using hr _ q hold
    · simpa [hpn', hto p q hold] using hr p q hold
  · intro p d hp
    obtain ⟨rfl, rfl⟩ | hp := (evict_key hn hprev).mp hp
    · exact .refl _ _
    · let σ : ℕ → ℕ := fun p => if p = h k then n else p
      have hstep : ∀ a b, (t a).next = some b → Reaches (evict t k (h k) n prev) (σ a) (σ b) := by
        intro a b hab
        have han := hfrom a b hab
        rcases eq_or_ne a (h k) with rfl | ham
        · have hb : σ b = b := if_neg (hne _ b hab).symm
          rw [hb]
          exact .head ((evict_next hn hprev hpn).mpr (.inr (.inl ⟨if_pos rfl, hab⟩))) (.refl _ _)
        · have ha : σ a = a := if_neg ham
          rw [ha]
          rcases eq_or_ne a prev with rfl | hap
          · rw [hnext, Option.some.injEq] at hab
            have hb : σ b = n := if_pos hab.symm
            rw [hb]
            exact .head ((evict_next hn hprev hpn).mpr (.inl ⟨rfl, rfl⟩)) (.refl _ _)
          · have hb : σ b = b := if_neg fun heq : b = h k => hap (hi.inj a prev b hab (heq ▸ hnext))
            rw [hb]
            exact .head ((evict_next hn hprev hpn).mpr (.inr (.inr ⟨ham, han, hap, hab⟩))) (.refl _ _)
      have hd : ∃ q, (t q).key = some d ∧ σ q = p := by
        obtain ⟨rfl, hold⟩ | ⟨hpm, -, hold⟩ := hp
        · exact ⟨h k, hold, if_pos rfl⟩
        · exact ⟨p, hold, if_neg hpm⟩
      obtain ⟨q, hq, rfl⟩ := hd
      have hhead : σ (h d) = h d := if_neg (hforeign q d hq)
      exact hhead ▸ Reaches.map hstep (hi.reach q d hq)
  · intro p d hp
    obtain ⟨rfl, rfl⟩ | hp := (evict_key hn hprev).mp hp
    · exact ⟨d, by rw [evict_main], rfl⟩
    · obtain ⟨q, hq⟩ : ∃ q, (t q).key = some d := by
        obtain ⟨-, hold⟩ | ⟨-, -, hold⟩ := hp
        · exact ⟨h k, hold⟩
        · exact ⟨p, hold⟩
      obtain ⟨e, he, heq⟩ := hi.main q d hq
      have hdn : h d ≠ n := fun heq => by simp [heq, hfree] at he
      exact ⟨e, (evict_key hn hprev).mpr (.inr (.inr ⟨hforeign q d hq, hdn, he⟩)), heq⟩
  · intro p q d hp hq
    obtain ⟨rfl, rfl⟩ | hpold := (evict_key hn hprev).mp hp
    · obtain ⟨rfl, -⟩ | ⟨-, hqold⟩ | ⟨-, -, hqold⟩ := (evict_key hn hprev).mp hq
      · rfl
      · exact absurd hqold (hnew _)
      · exact absurd hqold (hnew q)
    · obtain ⟨rfl, hpold⟩ | ⟨hpm, -, hpold⟩ := hpold
      · obtain ⟨-, rfl⟩ | ⟨rfl, -⟩ | ⟨hqm, -, hqold⟩ := (evict_key hn hprev).mp hq
        · exact absurd hpold (hnew _)
        · rfl
        · exact absurd (hi.distinct _ _ d hqold hpold) hqm
      · obtain ⟨-, rfl⟩ | ⟨rfl, hqold⟩ | ⟨-, -, hqold⟩ := (evict_key hn hprev).mp hq
        · exact absurd hpold (hnew p)
        · exact absurd (hi.distinct _ _ d hpold hqold) hpm
        · exact hi.distinct p q d hpold hqold

end Evict

/-! ### The free place -/

theorem getfreepos_cases (t : Nodes κ α) (lastfree : ℕ) :
    getfreepos t lastfree = (none, 0) ∧ (∀ p < lastfree, (t p).key ≠ none) ∨
      ∃ n < lastfree, getfreepos t lastfree = (some n, n) ∧ (t n).key = none ∧
        ∀ p, n < p → p < lastfree → (t p).key ≠ none := by
  induction lastfree with
  | zero => exact .inl ⟨rfl, nofun⟩
  | succ lastfree ih =>
    by_cases hkey : (t lastfree).key = none
    · exact .inr ⟨lastfree, Nat.lt_succ_self _, by rw [getfreepos, hkey]; rfl, hkey, fun p _ _ => by omega⟩
    · have hstep : getfreepos t (lastfree + 1) = getfreepos t lastfree := by
        rw [getfreepos, if_neg (by rwa [Option.isNone_iff_eq_none])]
      have hlast : ∀ p, p < lastfree + 1 → p < lastfree ∨ p = lastfree := fun p hp => by omega
      rw [hstep]
      refine ih.imp (fun ⟨heq, hall⟩ => ⟨heq, fun p hp => ?_⟩) fun ⟨n, hn, heq, hfree, hall⟩ =>
        ⟨n, hn.trans (Nat.lt_succ_self _), heq, hfree, fun p hnp hp => ?_⟩
      · rcases hlast p hp with hlt | rfl
        · exact hall p hlt
        · exact hkey
      · rcases hlast p hp with hlt | rfl
        · exact hall p hnp hlt
        · exact hkey

/-- The nodes are in order, and behind `lastfree` all are used. -/
structure Hash.Proper (h : κ → ℕ) (t : Hash κ α) : Prop where
  inv : Inv h t.size t.nodes
  main : ∀ k, h k < t.size
  last : t.lastfree ≤ t.size
  free : ∀ p, t.lastfree ≤ p → p < t.size → t.dummy = false → (t.nodes p).key ≠ none
  dummy : t.dummy = true → t.lastfree = 0 ∧ ∀ p, t.nodes p = unused

theorem Hash.Proper.placed {t : Hash κ α} (ht : t.Proper h) (hd : t.dummy = false) {nodes : Nodes κ α} {p : ℕ}
    (hinv : Inv h t.size nodes) (hadd : Added t.nodes nodes k p) (hle : n ≤ t.lastfree)
    (hused : ∀ q, n ≤ q → q < t.lastfree → (nodes q).key ≠ none) :
    Hash.Proper h ⟨nodes, t.size, n, false⟩ where
  inv := hinv
  main := ht.main
  last := hle.trans ht.last
  free q hq hlt _ := by
    rcases Nat.lt_or_ge q t.lastfree with hbelow | habove
    · exact hused q hq hbelow
    · exact hadd.kept q (ht.free q habove hlt hd)
  dummy := nofun

/-- A new key finds its place, except in a table whose nodes are all used. -/
theorem Hash.Proper.newkey {t : Hash κ α} (ht : t.Proper h) (hnew : ∀ p, (t.nodes p).key ≠ some k) :
    t.newkey h k = some none ∧ (t.dummy = true ∨ ∀ p < t.size, (t.nodes p).key ≠ none) ∨
      ∃ t' p, t.newkey h k = some (some (t', p)) ∧ t'.Proper h ∧ t'.size = t.size ∧
        t'.dummy = t.dummy ∧ Added t.nodes t'.nodes k p := by
  rw [Hash.newkey]
  cases hd : t.dummy with
  | true =>
    rw [(ht.dummy hd).1]
    exact .inl ⟨by simp [getfreepos], .inl rfl⟩
  | false =>
    cases hval : (t.nodes (h k)).val with
    | none =>
      rw [if_neg (by simp)]
      have hadd := claim_added hval
      exact .inr ⟨_, _, rfl, ht.placed hd (claim_inv ht.inv (ht.main k) hnew) hadd le_rfl
        (fun q _ _ => by omega), rfl, rfl, hadd⟩
    | some v =>
      rw [if_pos (by simp)]
      obtain ⟨heq, hall⟩ | ⟨n, hlt, heq, hfree, hall⟩ := getfreepos_cases t.nodes t.lastfree
      · rw [heq]
        refine .inl ⟨rfl, .inr fun p hp => ?_⟩
        rcases Nat.lt_or_ge p t.lastfree with hbelow | habove
        · exact hall p hbelow
        · exact ht.free p habove hp hd
      · obtain ⟨c, hc⟩ : ∃ c, (t.nodes (h k)).key = some c := by
          refine Option.ne_none_iff_exists'.mp fun hnone => ?_
          rw [ht.inv.unused _ hnone] at hval
          cases hval
        have hn : n ≠ h k := fun h => by simp [h, hc] at hfree
        have hunused := ht.inv.unused n hfree
        have hsize := hlt.trans_le ht.last
        -- `n` is used now, and what is behind it was
        have hbehind : ∀ {nodes : Nodes κ α} {p : ℕ}, Added t.nodes nodes k p → (nodes n).key ≠ none →
            ∀ q, n ≤ q → q < t.lastfree → (nodes q).key ≠ none := by
          intro nodes p hadd hnode q hnq hq
          rcases eq_or_lt_of_le hnq with rfl | hnq
          · exact hnode
          · exact hadd.kept q (hall q hnq hq)
        rw [heq]
        simp only [hc]
        by_cases hmain : h c = h k
        · have hadd := behind_added (k := k) hn hunused
          rw [if_neg (not_not_intro hmain)]
          exact .inr ⟨_, _, rfl, ht.placed hd (behind_inv ht.inv hc hmain hsize hfree hnew) hadd hlt.le
            (hbehind hadd (by simp [hadd.key])), rfl, rfl, hadd⟩
        · obtain ⟨l, hl⟩ := ht.inv.reach _ c hc
          obtain ⟨d, hd', -⟩ := ht.inv.main _ c hc
          obtain ⟨prev, hprev, hnext⟩ := previous_path hl hmain (hl.length_le ht.inv (by simp [hd']))
          have hpm : prev ≠ h k := by
            obtain ⟨r, hr⟩ := ht.inv.rank
            intro heq
            have := hr prev _ hnext
            rw [heq] at this
            exact Nat.lt_irrefl _ this
          have hadd := evict_added (k := k) hn hpm hunused
          rw [if_pos hmain, hprev]
          exact .inr ⟨_, _, rfl, ht.placed hd (evict_inv ht.inv hc hmain hsize hfree hnew hnext) hadd hlt.le
            (hbehind hadd (by simp [evict_free hn hpm, hc])), rfl, rfl, hadd⟩

theorem Hash.Proper.setval {t : Hash κ α} (ht : t.Proper h) {p : ℕ} (hp : (t.nodes p).key ≠ none)
    (v : Option α) :
    Hash.Proper h { t with nodes := Function.update t.nodes p { t.nodes p with val := v } } where
  inv := ht.inv.setval hp
  main := ht.main
  last := ht.last
  free q hq hlt hd := by
    rw [setval_key]
    exact ht.free q hq hlt hd
  dummy hd := absurd (congrArg Node.key ((ht.dummy hd).2 p)) hp

end Scatter
