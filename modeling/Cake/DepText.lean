import Mathlib.Data.Bool.AllAny
import Mathlib.Data.List.TakeWhile
import Mathlib.Tactic
import Cake.Stamps

/-! Reading a dependency file back.

    gcc writes `target: dep dep …` in Make's syntax and breaks long lines after a backslash.
    `needs_rebuild` cuts at the first colon and takes the backslash for one more blank, so that a line
    break vanishes. So does every backslash gcc has put before a blank or a `#`, and a doubled `$` stays
    doubled.

        name        gcc writes     cake reads
        a b.h       a\ b.h         a   b.h
        a#.h        a\#.h          a   #.h
        #a.h        \#a.h          #a.h
        $a.h        $$a.h          $$a.h -/

namespace Cake

/-- How gcc writes a name; `k` backslashes stand directly before. -/
def munge : ℕ → Str → Str
  | _, [] => []
  | k, c :: cs =>
    if c = ' ' ∨ c = '\t' then List.replicate (k + 1) '\\' ++ c :: munge 0 cs
    else if c = '#' then '\\' :: '#' :: munge 0 cs
    else if c = '$' then '$' :: '$' :: munge 0 cs
    else if c = '\\' then '\\' :: munge (k + 1) cs
    else c :: munge 0 cs

/-- The entries after the colon, each on the same line as the one before or on a new one. -/
def depEntries : List (Bool × Str) → Str
  | [] => ['\n']
  | (newline, dep) :: deps =>
    (if newline then " \\\n ".toList else " ".toList) ++ munge 0 dep ++ depEntries deps

/-- The dependency file gcc writes. -/
def depText (target : Str) (deps : List (Bool × Str)) : Str :=
  munge 0 target ++ ':' :: depEntries deps

/-- The name is read as it was before gcc wrote it. -/
structure Readable (name : Str) : Prop where
  nonempty : name ≠ []
  plain : ∀ c ∈ name, depDelim c = false ∧ c ≠ '$'
  hash : '#' ∉ name.tail

/-! ### What gcc adds -/

theorem munge_mem : ∀ {k : ℕ} {s : Str} {c : Char}, c ∈ munge k s →
    c ∈ s ∨ c = '\\' ∨ c = '#' ∨ c = '$'
  | _, [], _, h => absurd h List.not_mem_nil
  | k, x :: s, c, h => by
    have hrest : ∀ {j : ℕ}, c ∈ munge j s → c ∈ x :: s ∨ c = '\\' ∨ c = '#' ∨ c = '$' := fun h =>
      (munge_mem h).imp_left (List.mem_cons_of_mem x)
    rw [munge] at h
    split_ifs at h with h₁ h₂ h₃ h₄
    · rcases List.mem_append.mp h with h | h
      · exact Or.inr (Or.inl (List.eq_of_mem_replicate h))
      · rcases List.mem_cons.mp h with rfl | h
        · exact Or.inl (List.mem_cons_self ..)
        · exact hrest h
    · simp only [List.mem_cons] at h
      rcases h with rfl | rfl | h
      · simp
      · simp
      · exact hrest h
    · simp only [List.mem_cons] at h
      rcases h with rfl | rfl | h
      · simp
      · simp
      · exact hrest h
    · rcases List.mem_cons.mp h with rfl | h
      · simp
      · exact hrest h
    · rcases List.mem_cons.mp h with rfl | h
      · simp
      · exact hrest h

theorem munge_keeps : ∀ {k : ℕ} {s : Str} {c : Char}, c ∈ s → c ∈ munge k s
  | k, x :: s, c, h => by
    have hrest : ∀ {j : ℕ}, c ≠ x → c ∈ munge j s := fun hne =>
      munge_keeps ((List.mem_cons.mp h).resolve_left hne)
    by_cases hx : c = x
    · subst hx
      rw [munge]
      split_ifs with h₁ h₂ h₃ h₄ <;> simp [*]
    · rw [munge]
      split_ifs <;> simp [hrest hx]

theorem not_escape {c : Char} (hc : depDelim c = false) : c ≠ ' ' ∧ c ≠ '\t' ∧ c ≠ '\\' := by
  have hne : ∀ d, depDelim d = true → c ≠ d := fun d hd heq => by rw [heq, hd] at hc; cases hc
  exact ⟨hne _ (by decide), hne _ (by decide), hne _ (by decide)⟩

/-- Characters that gcc copies. -/
theorem munge_plain : ∀ {s : Str} (k : ℕ),
    (∀ c ∈ s, depDelim c = false ∧ c ≠ '$' ∧ c ≠ '#') → munge k s = s
  | [], _, _ => rfl
  | c :: s, k, h => by
    obtain ⟨⟨hd, hdollar, hhash⟩, hs⟩ := List.forall_mem_cons.mp h
    obtain ⟨hspace, htab, hback⟩ := not_escape hd
    rw [munge, if_neg (by simp [hspace, htab]), if_neg hhash, if_neg hdollar, if_neg hback,
      munge_plain 0 hs]

/-- How much is left of a name without delimiters: all of it, and a second `$` for each `$`. -/
theorem munge_count : ∀ {s : Str} (k : ℕ), (∀ c ∈ s, depDelim c = false) →
    ((munge k s).filter (fun c => !depDelim c)).length = s.length + s.count '$'
  | [], _, _ => rfl
  | c :: s, k, h => by
    obtain ⟨hd, hs⟩ := List.forall_mem_cons.mp h
    have hb : depDelim '\\' = true := by decide
    obtain ⟨hspace, htab, hback⟩ := not_escape hd
    rw [munge, if_neg (by simp [hspace, htab])]
    split_ifs with h₂ h₃
    · subst h₂
      simp only [List.filter_cons, hb, hd, Bool.not_true, Bool.not_false, Bool.false_eq_true, if_false,
        if_true, List.length_cons, munge_count 0 hs, List.count_cons, Char.reduceBEq]
      omega
    · subst h₃
      simp only [List.filter_cons, hd, Bool.not_false, if_true, List.length_cons, munge_count 0 hs,
        List.count_cons_self]
      omega
    · have hdollar : (c == '$') = false := by simpa using h₃
      simp only [List.filter_cons, hd, Bool.not_false, if_true, List.length_cons, munge_count 0 hs,
        List.count_cons, hdollar, Bool.false_eq_true, if_false]
      omega

/-- Text before a `#`. -/
theorem munge_hash : ∀ {a : Str} (k : ℕ) (b : Str), (∀ c ∈ a, depDelim c = false) →
    munge k (a ++ '#' :: b) = munge k a ++ '\\' :: '#' :: munge 0 b
  | [], k, b, _ => by rw [List.nil_append, munge, munge, if_neg (by decide), if_pos rfl, List.nil_append]
  | c :: a, k, b, h => by
    obtain ⟨hd, ha⟩ := List.forall_mem_cons.mp h
    obtain ⟨hspace, htab, hback⟩ := not_escape hd
    have hesc : ¬(c = ' ' ∨ c = '\t') := by simp [hspace, htab]
    simp only [List.cons_append, munge, if_neg hesc, if_neg hback, munge_hash 0 b ha]
    split_ifs <;> rfl

/-! ### What the reader sees of one name -/

/-- Something is left of a name without delimiters. -/
theorem tokens_munge_ne_nil {s : Str} (hne : s ≠ []) (hs : ∀ c ∈ s, depDelim c = false) :
    Tokens.tokens depDelim (munge 0 s) ≠ [] := by
  obtain ⟨c, hc⟩ := List.exists_mem_of_ne_nil s hne
  exact Tokens.tokens_ne_nil (munge_keeps hc) (hs c hc)

/-- A readable name comes back: its only escape is the one before a leading `#`. -/
theorem Readable.tokens {s : Str} (h : Readable s) : Tokens.tokens depDelim (munge 0 s) = [s] := by
  cases s with
  | nil => exact absurd rfl h.nonempty
  | cons c s =>
    obtain ⟨⟨hd, hdollar⟩, hs⟩ := List.forall_mem_cons.mp h.plain
    obtain ⟨hspace, htab, hback⟩ := not_escape hd
    have hdelim : ∀ x ∈ c :: s, depDelim x = false := fun x hx => (h.plain x hx).1
    have hrest : munge 0 s = s := munge_plain 0 fun x hx =>
      ⟨(hs x hx).1, (hs x hx).2, fun heq => h.hash (heq ▸ hx)⟩
    rw [munge, if_neg (by simp [hspace, htab])]
    split_ifs with hhash
    · subst hhash
      rw [Tokens.tokens_cons (by decide), hrest, Tokens.tokens_word hdelim (by simp)]
    · rw [hrest, Tokens.tokens_word hdelim (by simp)]

/-- Only a readable name comes back: a `$` comes back doubled, a `#` inside cuts the name in two. -/
theorem readable_of_tokens {s : Str} (h : Tokens.tokens depDelim (munge 0 s) = [s]) : Readable s := by
  have hs : s ∈ Tokens.tokens depDelim (munge 0 s) := h ▸ List.mem_singleton_self s
  obtain ⟨hne, hdelim⟩ := Tokens.tokens_mem hs
  refine ⟨hne, fun c hc => ⟨hdelim c hc, ?_⟩, fun hmem => ?_⟩
  · rintro rfl
    have hlen := congrArg List.length (@Tokens.tokens_flatten _ depDelim (munge 0 s))
    rw [h, List.flatten_singleton, munge_count 0 hdelim] at hlen
    have hpos : 0 < s.count '$' := List.count_pos_iff.mpr hc
    omega
  · obtain ⟨c, rest, rfl⟩ := List.exists_cons_of_ne_nil hne
    obtain ⟨a, b, hab⟩ := List.append_of_mem (List.tail_cons ▸ hmem)
    rw [hab, ← List.cons_append] at h hdelim
    have ha : ∀ x ∈ c :: a, depDelim x = false := fun x hx => hdelim x (List.mem_append_left _ hx)
    have hlen := congrArg List.length h
    rw [munge_hash 0 b ha, Tokens.tokens_append (by decide), List.length_append,
      List.length_singleton] at hlen
    have hfst := List.length_pos_of_ne_nil (tokens_munge_ne_nil (List.cons_ne_nil c a) ha)
    have hsnd : 0 < (Tokens.tokens depDelim ('#' :: munge 0 b)).length :=
      List.length_pos_of_ne_nil (Tokens.tokens_ne_nil List.mem_cons_self (by decide))
    omega

/-! ### What the reader sees of the text -/

theorem depEntries_cons (deps : List (Bool × Str)) :
    ∃ c rest, depDelim c = true ∧ depEntries deps = c :: rest := by
  cases deps with
  | nil => exact ⟨'\n', [], by decide, rfl⟩
  | cons d deps =>
    rw [depEntries]
    split
    · exact ⟨' ', _, by decide, rfl⟩
    · exact ⟨' ', _, by decide, rfl⟩

/-- Entries are read one by one, wherever the lines are broken. -/
theorem tokens_entries : ∀ deps : List (Bool × Str),
    Tokens.tokens depDelim (depEntries deps) =
      (deps.map Prod.snd).flatMap fun dep => Tokens.tokens depDelim (munge 0 dep)
  | [] => by decide
  | (newline, dep) :: deps => by
    obtain ⟨c, rest, hc, heq⟩ := depEntries_cons deps
    have ih := tokens_entries deps
    rw [heq, Tokens.tokens_cons hc] at ih
    have hentry : Tokens.tokens depDelim (munge 0 dep ++ c :: rest) =
        Tokens.tokens depDelim (munge 0 dep) ++ Tokens.tokens depDelim rest :=
      Tokens.tokens_append hc _ _
    rw [depEntries, heq, List.append_assoc, List.map_cons, List.flatMap_cons, ← ih, ← hentry]
    have hspace : depDelim ' ' = true := by decide
    have hback : depDelim '\\' = true := by decide
    have hline : depDelim '\n' = true := by decide
    split
    · rw [show " \\\n ".toList = [' ', '\\', '\n', ' '] from rfl]
      simp only [List.cons_append, List.nil_append, Tokens.tokens_cons, hspace, hback, hline]
    · rw [show " ".toList = [' '] from rfl]
      simp only [List.cons_append, List.nil_append, Tokens.tokens_cons, hspace]

theorem depEntries_mem {c : Char} : ∀ {deps : List (Bool × Str)}, c ∈ depEntries deps →
    (∃ d ∈ deps, c ∈ munge 0 d.2) ∨ depDelim c = true
  | [], h => Or.inr (by rw [List.mem_singleton.mp h]; decide)
  | (newline, dep) :: deps, h => by
    rw [depEntries] at h
    rcases List.mem_append.mp h with h | h
    · rcases List.mem_append.mp h with h | h
      · right
        split at h <;> fin_cases h <;> decide
      · exact Or.inl ⟨_, List.mem_cons_self .., h⟩
    · rcases depEntries_mem h with ⟨d, hd, hmem⟩ | hc
      · exact Or.inl ⟨d, List.mem_cons_of_mem _ hd, hmem⟩
      · exact Or.inr hc

theorem depText_nul {target : Str} {deps : List (Bool × Str)} (ht : '\x00' ∉ target)
    (hd : ∀ d ∈ deps, '\x00' ∉ d.2) : '\x00' ∉ depText target deps := by
  have hmunge : ∀ {s : Str}, '\x00' ∉ s → '\x00' ∉ munge 0 s := fun hs hm => by
    rcases munge_mem hm with h | h | h | h
    · exact hs h
    all_goals exact absurd h (by decide)
  intro hm
  rcases List.mem_append.mp hm with h | h
  · exact hmunge ht h
  · rcases List.mem_cons.mp h with h | h
    · exact absurd h (by decide)
    · rcases depEntries_mem h with ⟨d, hmem, h⟩ | h
      · exact hmunge (hd d hmem) h
      · exact absurd h (by decide)

theorem strchr_first {c : Char} : ∀ {a : Str} (b : Str), c ∉ a → strchr c (a ++ c :: b) = some b
  | [], b, _ => by rw [List.nil_append, strchr, if_pos rfl]
  | x :: a, b, h => by
    obtain ⟨hx, ha⟩ := List.ne_and_not_mem_of_not_mem_cons h
    rw [List.cons_append, strchr, if_neg hx.symm, strchr_first b ha]

theorem depTokens_mem {contents : Str} {ts : List Str} (h : depTokens contents = some ts) :
    ∀ t ∈ ts, t ≠ [] ∧ ∀ c ∈ t, depDelim c = false := fun t ht => by
  obtain ⟨text, _, rfl⟩ := Option.map_eq_some_iff.mp h
  exact Tokens.tokens_mem ht

/-- What is read is the names, after what follows the first colon of the target. -/
theorem depTokens_depText {target : Str} {deps : List (Bool × Str)} (ht : '\x00' ∉ target)
    (hd : ∀ d ∈ deps, '\x00' ∉ d.2) :
    ∃ extra, depTokens (depText target deps) =
        some (extra ++ (deps.map Prod.snd).flatMap fun dep => Tokens.tokens depDelim (munge 0 dep)) ∧
      (extra = [] ↔ ':' ∉ target) := by
  rw [depTokens, takeWhile_nul.mpr (depText_nul ht hd), depText, ← tokens_entries]
  by_cases hcolon : ':' ∈ target
  · obtain ⟨u, v, huv, hu⟩ := List.eq_append_cons_of_mem (munge_keeps (k := 0) hcolon)
    obtain ⟨c, rest, hc, heq⟩ := depEntries_cons deps
    refine ⟨Tokens.tokens depDelim (v ++ [':']), ?_, iff_of_false ?_ (not_not_intro hcolon)⟩
    · rw [huv, List.append_assoc, List.cons_append, strchr_first _ hu, Option.map_some, heq,
        Tokens.tokens_cons hc, ← Tokens.tokens_append hc, List.append_assoc, List.singleton_append]
    · exact Tokens.tokens_ne_nil (x := ':') (by simp) (by decide)
  · have hmunge : ':' ∉ munge 0 target := fun hm => by
      rcases munge_mem hm with h | h | h | h
      · exact hcolon h
      all_goals exact absurd h (by decide)
    exact ⟨[], by rw [strchr_first _ hmunge]; rfl, iff_of_true rfl hcolon⟩

/-- `needs_rebuild` reads the names gcc wrote exactly when each of them is readable and the target
    has no colon. -/
theorem listed_iff_readable {fs : FS} {dep target : Str} {deps : List (Bool × Str)} {m : ℕ}
    (hfile : fs dep = some ⟨m, depText target deps⟩) (ht : '\x00' ∉ target)
    (hd : ∀ d ∈ deps, '\x00' ∉ d.2) :
    listed fs dep = some (deps.map Prod.snd) ↔ ':' ∉ target ∧ ∀ d ∈ deps, Readable d.2 := by
  have hread : readFile fs dep = some (depText target deps) := by
    rw [readFile, hfile]
    exact if_neg (by simp [depText])
  obtain ⟨extra, heq, hextra⟩ := depTokens_depText ht hd
  rw [listed, hread, Option.bind_some, heq, Option.some.injEq, ← hextra, ← List.forall_mem_map (P := Readable)]
  constructor
  · intro h
    have hne : ∀ s ∈ deps.map Prod.snd, Tokens.tokens depDelim (munge 0 s) ≠ [] := fun s hs => by
      obtain ⟨hs, hdelim⟩ := depTokens_mem (heq.trans (congrArg some h)) s hs
      exact tokens_munge_ne_nil hs hdelim
    have hle : (deps.map Prod.snd).length ≤ ((deps.map Prod.snd).flatMap
        fun dep => Tokens.tokens depDelim (munge 0 dep)).length := Tokens.length_le_flatMap hne
    have hlen := congrArg List.length h
    rw [List.length_append] at hlen
    have hnil : extra = [] := List.eq_nil_of_length_eq_zero (by omega)
    rw [hnil, List.nil_append] at h
    exact ⟨hnil, fun s hs => readable_of_tokens ((Tokens.flatMap_eq_self hne).mp h s hs)⟩
  · rintro ⟨rfl, hr⟩
    rw [List.nil_append]
    exact (Tokens.flatMap_eq_self fun s hs => by simp [(hr s hs).tokens]).mpr fun s hs => (hr s hs).tokens

/-- Two names on two lines, the second with a leading `#`. -/
theorem listed_two_names :
    listed (FS.set (fun _ => none) "obj/main.d".toList (some ⟨5, depText "obj/main.o".toList
      [(false, "main.cpp".toList), (true, "#main.h".toList)]⟩)) "obj/main.d".toList =
        some ["main.cpp".toList, "#main.h".toList] := by
  have hfile : FS.set (fun _ => none) "obj/main.d".toList (some ⟨5, depText "obj/main.o".toList
      [(false, "main.cpp".toList), (true, "#main.h".toList)]⟩) "obj/main.d".toList =
        some ⟨5, depText "obj/main.o".toList
          [(false, "main.cpp".toList), (true, "#main.h".toList)]⟩ := if_pos rfl
  refine (listed_iff_readable hfile (by decide) (by decide)).mpr ⟨by decide, ?_⟩
  rintro d hd
  fin_cases hd
  · exact ⟨by decide, List.all_iff_forall_prop.mp (by decide), by decide⟩
  · exact ⟨by decide, List.all_iff_forall_prop.mp (by decide), by decide⟩

/-- A header with a blank in its name is read as two. -/
theorem blank_splits :
    depTokens (depText "obj/main.o".toList [(false, "a b.h".toList)]) =
        some ["a".toList, "b.h".toList] ∧
      depTokens (depText "obj/main.o".toList [(false, "a b.h".toList)]) ≠ some ["a b.h".toList] := by
  decide

end Cake
