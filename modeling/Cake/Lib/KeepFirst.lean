import Mathlib.Data.List.Nodup

/-! Dropping duplicates, the first of each kept, and what it does to words that come in pairs.

    A list holds pairs when some of its words, the options, belong to the word after them. Dropping
    duplicates keeps the pairs together exactly when each pair repeats an earlier one or consists of
    two new words (`pairs_inOrder`).

        a b c b d       ──▶ a b c d
        -I x -D y -I x  ──▶ -I x -D y       pairs kept
        -I x -I y       ──▶ -I x y          second pair torn -/

namespace KeepFirst

variable {α : Type*} [BEq α] [LawfulBEq α]

/-- The elements of a list that are not in `seen`, the first of each. -/
def keepFirst (seen : List α) : List α → List α
  | [] => []
  | x :: l => if seen.contains x then keepFirst seen l else x :: keepFirst (x :: seen) l

theorem keepFirst_old {seen : List α} {x : α} (h : x ∈ seen) (l : List α) :
    keepFirst seen (x :: l) = keepFirst seen l := by
  rw [keepFirst, if_pos (List.contains_iff_mem.mpr h)]

theorem keepFirst_new {seen : List α} {x : α} (h : x ∉ seen) (l : List α) :
    keepFirst seen (x :: l) = x :: keepFirst (x :: seen) l := by
  rw [keepFirst, if_neg (by rwa [List.contains_iff_mem])]

theorem keepFirst_congr {l seen seen' : List α} (h : ∀ x, x ∈ seen ↔ x ∈ seen') :
    keepFirst seen l = keepFirst seen' l := by
  induction l generalizing seen seen' with
  | nil => rfl
  | cons x l ih =>
    by_cases hx : x ∈ seen
    · rw [keepFirst_old hx, keepFirst_old ((h x).mp hx), ih h]
    · have hcons : ∀ y, y ∈ x :: seen ↔ y ∈ x :: seen' := by
        intro y
        simp [h y]
      rw [keepFirst_new hx, keepFirst_new (fun hx' => hx ((h x).mpr hx')), ih hcons]

/-- A word that has been seen may be seen again. -/
theorem keepFirst_seen {seen : List α} {x : α} (h : x ∈ seen) (l : List α) :
    keepFirst (x :: seen) l = keepFirst seen l := by
  refine keepFirst_congr fun y => ⟨fun hy => ?_, List.mem_cons_of_mem x⟩
  rcases List.mem_cons.mp hy with rfl | hy
  · exact h
  · exact hy

theorem keepFirst_append (a seen b : List α) :
    keepFirst seen (a ++ b) = keepFirst seen a ++ keepFirst (a ++ seen) b := by
  induction a generalizing seen with
  | nil => rfl
  | cons x a ih =>
    by_cases hx : x ∈ seen
    · have hx' : x ∈ a ++ seen := List.mem_append_right a hx
      rw [List.cons_append, keepFirst_old hx, keepFirst_old hx, ih seen,
        List.cons_append, keepFirst_seen hx']
    · have hcons : ∀ y, y ∈ a ++ x :: seen ↔ y ∈ x :: a ++ seen := by
        intro y
        simp only [List.mem_append, List.mem_cons]
        tauto
      rw [List.cons_append, keepFirst_new hx, keepFirst_new hx, ih (x :: seen),
        keepFirst_congr hcons]
      rfl

theorem keepFirst_mem {x : α} {l seen : List α} : x ∈ keepFirst seen l ↔ x ∈ l ∧ x ∉ seen := by
  induction l generalizing seen with
  | nil => simp [keepFirst]
  | cons y l ih =>
    by_cases hy : y ∈ seen
    · rw [keepFirst_old hy, ih, List.mem_cons]
      constructor
      · rintro ⟨hl, hs⟩
        exact ⟨Or.inr hl, hs⟩
      · rintro ⟨rfl | hl, hs⟩
        · exact absurd hy hs
        · exact ⟨hl, hs⟩
    · rw [keepFirst_new hy, List.mem_cons, ih, List.mem_cons, List.mem_cons]
      by_cases hxy : x = y
      · subst hxy
        simp [hy]
      · simp [hxy]

theorem keepFirst_nodup (l seen : List α) : (keepFirst seen l).Nodup := by
  induction l generalizing seen with
  | nil => exact List.nodup_nil
  | cons x l ih =>
    by_cases hx : x ∈ seen
    · rw [keepFirst_old hx]
      exact ih seen
    · rw [keepFirst_new hx]
      refine List.nodup_cons.mpr ⟨fun hmem => ?_, ih (x :: seen)⟩
      exact (keepFirst_mem.mp hmem).2 List.mem_cons_self

/-- What is kept, in the library's words. -/
theorem keepFirst_eq (l seen : List α) : keepFirst seen l = (l.removeAll seen).eraseDups := by
  induction l generalizing seen with
  | nil => simp [keepFirst, List.removeAll]
  | cons x l ih =>
    by_cases hx : x ∈ seen
    · rw [keepFirst_old hx, ih seen]
      simp [List.removeAll, hx]
    · rw [keepFirst_new hx, ih (x :: seen)]
      simp [List.removeAll, hx, List.eraseDups_cons]

theorem keepFirst_nil (l : List α) : keepFirst [] l = l.eraseDups := by
  rw [keepFirst_eq, List.removeAll_nil]

theorem eraseDups_nodup (l : List α) : l.eraseDups.Nodup := keepFirst_nil l ▸ keepFirst_nodup l []

/-! ### Words in another order -/

/-- The list with the words of `S` left blank. -/
def blank (S l : List α) : List (Option α) := l.map fun x => if S.contains x then none else some x

omit [LawfulBEq α] in
theorem blank_append (S l m : List α) : blank S (l ++ m) = blank S l ++ blank S m := List.map_append

theorem blank_congr {S S' : List α} (h : ∀ x, x ∈ S ↔ x ∈ S') (l : List α) : blank S l = blank S' l := by
  refine List.map_congr_left fun x _ => ?_
  simp only [List.contains_iff_mem, h x]

theorem blank_subset {S l : List α} (h : ∀ x ∈ l, x ∈ S) : blank S l = List.replicate l.length none := by
  rw [List.eq_replicate_iff, blank, List.length_map]
  refine ⟨rfl, fun y hy => ?_⟩
  obtain ⟨x, hx, rfl⟩ := List.mem_map.mp hy
  exact if_pos (List.contains_iff_mem.mpr (h x hx))

theorem keepFirst_perm {l m : List α} (h : l.Perm m) (seen : List α) :
    (keepFirst seen l).Perm (keepFirst seen m) := by
  refine (List.perm_ext_iff_of_nodup (keepFirst_nodup l seen) (keepFirst_nodup m seen)).mpr fun x => ?_
  rw [keepFirst_mem, keepFirst_mem, h.mem_iff]

/-- Words that come in another order are kept in another order, and the rest of the list is as before. -/
theorem keepFirst_reordered {l m : List α} (h : l.Perm m) (seen a z : List α) :
    (keepFirst seen (a ++ l ++ z)).Perm (keepFirst seen (a ++ m ++ z)) ∧
      blank l (keepFirst seen (a ++ l ++ z)) = blank m (keepFirst seen (a ++ m ++ z)) := by
  have hrest : keepFirst (a ++ l ++ seen) z = keepFirst (a ++ m ++ seen) z :=
    keepFirst_congr fun x => by simp only [List.mem_append, h.mem_iff]
  have hwords := keepFirst_perm h (a ++ seen)
  have hin : ∀ {k : List α}, ∀ x ∈ keepFirst (a ++ seen) k, x ∈ k := fun x hx => (keepFirst_mem.mp hx).1
  rw [keepFirst_append, keepFirst_append (a ++ m), keepFirst_append, keepFirst_append a seen m, hrest]
  refine ⟨(hwords.append_left _).append_right _, ?_⟩
  rw [blank_append, blank_append, blank_append, blank_append, blank_subset hin, blank_subset hin,
    hwords.length_eq, blank_congr fun x => h.mem_iff, blank_congr (S := l) fun x => h.mem_iff]

/-! ### Pairs -/

/-- The options of a list with the words after them, read left to right. -/
def pairs (isOption : α → Bool) : List α → List (α × α)
  | o :: a :: rest => if isOption o then (o, a) :: pairs isOption rest else pairs isOption (a :: rest)
  | _ => []

/-- The pairs stand in the list as neighbours, one after the other. -/
inductive InOrder : List (α × α) → List α → Prop where
  | nil (l : List α) : InOrder [] l
  | skip (x : α) {ps : List (α × α)} {l : List α} : InOrder ps l → InOrder ps (x :: l)
  | pair (o a : α) {ps : List (α × α)} {l : List α} : InOrder ps l → InOrder ((o, a) :: ps) (o :: a :: l)

/-- Every pair is one of `done` or its words are new; `seen` holds the words before. -/
def Attached (isOption : α → Bool) : List α → List (α × α) → List α → Prop
  | seen, done, o :: a :: rest =>
    if isOption o then
      ((o, a) ∈ done ∨ o ∉ seen ∧ a ∉ seen ∧ a ≠ o) ∧
        Attached isOption (a :: o :: seen) ((o, a) :: done) rest
    else Attached isOption (o :: seen) done (a :: rest)
  | _, _, _ => True

variable {isOption : α → Bool}

instance decidableAttached : ∀ (seen : List α) (done : List (α × α)) (toks : List α),
    Decidable (Attached isOption seen done toks)
  | _, _, [] => .isTrue trivial
  | _, _, [_] => .isTrue trivial
  | seen, done, o :: a :: rest =>
    have := decidableAttached (a :: o :: seen) ((o, a) :: done) rest
    have := decidableAttached (o :: seen) done (a :: rest)
    have : DecidableEq α := instDecidableEqOfLawfulBEq
    inferInstanceAs (Decidable (if isOption o = true then
      ((o, a) ∈ done ∨ o ∉ seen ∧ a ∉ seen ∧ a ≠ o) ∧
        Attached isOption (a :: o :: seen) ((o, a) :: done) rest
      else Attached isOption (o :: seen) done (a :: rest)))

omit [BEq α] [LawfulBEq α] in
theorem pairs_isOption {p : α × α} : ∀ {toks : List α}, p ∈ pairs isOption toks → isOption p.1 = true
  | [], h => absurd h List.not_mem_nil
  | [_], h => absurd h List.not_mem_nil
  | o :: a :: rest, h => by
    rw [pairs] at h
    split at h
    · rename_i ho
      rcases List.mem_cons.mp h with rfl | h
      · exact ho
      · exact pairs_isOption h
    · exact pairs_isOption h

omit [BEq α] [LawfulBEq α] in
theorem inOrder_skip {ps : List (α × α)} {l : List α} {x : α} (h : ∀ p ∈ ps, p.1 ≠ x) :
    InOrder ps (x :: l) ↔ InOrder ps l := by
  constructor
  · intro hps
    cases hps with
    | nil => exact .nil l
    | skip _ hps => exact hps
    | pair o a hps => exact absurd rfl (h (x, a) List.mem_cons_self)
  · exact InOrder.skip x

omit [BEq α] [LawfulBEq α] in
theorem inOrder_skips {ps : List (α × α)} {l pre : List α} (h : ∀ x ∈ pre, ∀ p ∈ ps, p.1 ≠ x) :
    InOrder ps (pre ++ l) ↔ InOrder ps l := by
  induction pre with
  | nil => rfl
  | cons x pre ih =>
    obtain ⟨hx, hpre⟩ := List.forall_mem_cons.mp h
    rw [List.cons_append, inOrder_skip hx, ih hpre]

omit [BEq α] [LawfulBEq α] in
theorem inOrder_mem {ps : List (α × α)} {l : List α} (h : InOrder ps l) :
    ∀ p ∈ ps, p.1 ∈ l ∧ p.2 ∈ l := by
  induction h with
  | nil =>
    intro p hp
    exact absurd hp List.not_mem_nil
  | skip x _ ih =>
    intro p hp
    exact ⟨List.mem_cons_of_mem _ (ih p hp).1, List.mem_cons_of_mem _ (ih p hp).2⟩
  | pair o a _ ih =>
    intro p hp
    rcases List.mem_cons.mp hp with rfl | hp
    · simp
    · exact ⟨by simp [(ih p hp).1], by simp [(ih p hp).2]⟩

omit [BEq α] [LawfulBEq α] in
/-- In a list without duplicates a pair has one place. -/
theorem inOrder_pair {ps : List (α × α)} {l : List α} {o a : α} (ho : o ∉ a :: l) :
    InOrder ((o, a) :: ps) (o :: a :: l) ↔ InOrder ps l := by
  constructor
  · intro h
    cases h with
    | skip _ h => exact absurd (inOrder_mem h (o, a) List.mem_cons_self).1 ho
    | pair _ _ h => exact h
  · exact InOrder.pair o a

omit [BEq α] [LawfulBEq α] in
theorem inOrder_ne {ps : List (α × α)} {l : List α} {o a : α} (h : InOrder ((o, a) :: ps) l)
    (hl : l.Nodup) : a ≠ o := by
  induction l with
  | nil => cases h
  | cons x l ih =>
    obtain ⟨hx, hl⟩ := List.nodup_cons.mp hl
    cases h with
    | skip _ h => exact ih h hl
    | pair _ _ h => exact fun heq => hx (heq ▸ List.mem_cons_self)

/-- A pair stands first in what is kept exactly when it brings two new words. -/
theorem inOrder_keepFirst {ps : List (α × α)} {seen l : List α} {o a : α} :
    InOrder ((o, a) :: ps) (keepFirst seen (o :: a :: l)) ↔
      (o ∉ seen ∧ a ∉ seen ∧ a ≠ o) ∧ InOrder ps (keepFirst (a :: o :: seen) l) := by
  by_cases hnew : o ∉ seen ∧ a ∉ seen ∧ a ≠ o
  · obtain ⟨ho, ha, hne⟩ := hnew
    have ha' : a ∉ o :: seen := by simp [hne, ha]
    have hone : o ∉ a :: keepFirst (a :: o :: seen) l := by
      rw [List.mem_cons, keepFirst_mem]
      simp [hne.symm]
    rw [keepFirst_new ho, keepFirst_new ha', inOrder_pair hone]
    exact ⟨fun h => ⟨⟨ho, ha, hne⟩, h⟩, fun h => h.2⟩
  · refine iff_of_false (fun h => hnew ?_) fun h => hnew h.1
    obtain ⟨ho, ha⟩ := inOrder_mem h _ List.mem_cons_self
    exact ⟨(keepFirst_mem.mp ho).2, (keepFirst_mem.mp ha).2, inOrder_ne h (keepFirst_nodup _ _)⟩

/-- The pairs of the list that are not done stand in what is kept of it, exactly when they are
    attached. -/
theorem keepFirst_inOrder (after : List α) : ∀ (toks : List α) {seen : List α} {done : List (α × α)},
    (∀ p ∈ done, p.1 ∈ seen ∧ p.2 ∈ seen) →
      (InOrder (keepFirst done (pairs isOption toks)) (keepFirst seen (toks ++ after)) ↔
        Attached isOption seen done toks)
  | [], seen, done, _ => by simp [pairs, keepFirst, Attached, InOrder.nil]
  | [x], seen, done, _ => by simp [pairs, keepFirst, Attached, InOrder.nil]
  | o :: a :: rest, seen, done, hdone => by
    rw [pairs, Attached]
    cases ho : isOption o with
    | false =>
      have hdone' : ∀ p ∈ done, p.1 ∈ o :: seen ∧ p.2 ∈ o :: seen := fun p hp =>
        ⟨List.mem_cons_of_mem _ (hdone p hp).1, List.mem_cons_of_mem _ (hdone p hp).2⟩
      have hskip : ∀ p ∈ keepFirst done (pairs isOption (a :: rest)), p.1 ≠ o := fun p hp heq => by
        have hopt := pairs_isOption (keepFirst_mem.mp hp).1
        rw [heq, ho] at hopt
        cases hopt
      simp only [Bool.false_eq_true, if_false]
      rw [← keepFirst_inOrder after (a :: rest) hdone', List.cons_append]
      by_cases hseen : o ∈ seen
      · rw [keepFirst_old hseen, keepFirst_seen hseen]
      · rw [keepFirst_new hseen, inOrder_skip hskip]
    | true =>
      have hdone' : ∀ p ∈ (o, a) :: done, p.1 ∈ a :: o :: seen ∧ p.2 ∈ a :: o :: seen := fun p hp => by
        rcases List.mem_cons.mp hp with rfl | hp
        · simp
        · simp [hdone p hp]
      simp only [if_true]
      rw [← keepFirst_inOrder after rest hdone', List.cons_append, List.cons_append]
      by_cases hold : (o, a) ∈ done
      · -- the pair is there already, with both its words
        obtain ⟨hoseen, haseen⟩ := hdone _ hold
        rw [keepFirst_old hold, keepFirst_old hoseen, keepFirst_old haseen, keepFirst_seen hold,
          keepFirst_seen (List.mem_cons_of_mem o haseen), keepFirst_seen hoseen]
        simp [hold]
      · rw [keepFirst_new hold, inOrder_keepFirst]
        simp [hold]

/-- In a list without its duplicates the pairs of the middle part stand together and in order exactly
    when each repeats an earlier one or brings two new words. -/
theorem pairs_inOrder {before : List α} (hb : ∀ x ∈ before, isOption x = false)
    (toks after : List α) :
    InOrder (pairs isOption toks).eraseDups (before ++ toks ++ after).eraseDups ↔
      Attached isOption before [] toks := by
  have hskip : ∀ x ∈ keepFirst [] before, ∀ p ∈ (pairs isOption toks).eraseDups, p.1 ≠ x :=
    fun x hx p hp heq => by
      have hopt := pairs_isOption (List.mem_eraseDups.mp hp)
      rw [heq, hb x (keepFirst_mem.mp hx).1] at hopt
      cases hopt
  have hmid : keepFirst [] (before ++ (toks ++ after)) =
      keepFirst [] before ++ keepFirst before (toks ++ after) := by
    rw [keepFirst_append, List.append_nil]
  rw [List.append_assoc, ← keepFirst_nil (before ++ (toks ++ after)), hmid, inOrder_skips hskip,
    ← keepFirst_nil (pairs isOption toks)]
  exact keepFirst_inOrder after toks fun p hp => absurd hp List.not_mem_nil

end KeepFirst
