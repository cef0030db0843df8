import Mathlib.Data.List.DropRight

/-! What a glob pattern can match.

    `*` and `?` stand for characters other than the slash, a bracket expression for one of them, a
    backslash takes the meaning from the next character, any other character stands for itself. Which
    characters a bracket expression lists is left open, so `Matches` says at least as much as any shell
    does; what is proved of it holds of them all. -/

namespace Glob

/-- The characters that make a text a pattern. -/
def isMeta (c : Char) : Bool := ['*', '?', '[', ']', '\\'].contains c

inductive Matches : List Char → List Char → Prop
  | nil : Matches [] []
  | char (c : Char) {p s : List Char} (h : Matches p s) : Matches (c :: p) (c :: s)
  | escape (c : Char) {p s : List Char} (h : Matches p s) : Matches ('\\' :: c :: p) (c :: s)
  | question {c : Char} {p s : List Char} (hc : c ≠ '/') (h : Matches p s) :
      Matches ('?' :: p) (c :: s)
  | starEnd {p s : List Char} (h : Matches p s) : Matches ('*' :: p) s
  | star {c : Char} {p s : List Char} (hc : c ≠ '/') (h : Matches ('*' :: p) s) :
      Matches ('*' :: p) (c :: s)
  | bracket {set p s : List Char} {c : Char} (hc : c ≠ '/') (h : Matches p s) :
      Matches ('[' :: (set ++ ']' :: p)) (c :: s)

theorem cons_ne_plain {c : Char} {rest suf : List Char} (hc : isMeta c = true)
    (hs : ∀ c ∈ suf, isMeta c = false) : c :: rest ≠ suf := by
  intro heq
  have hplain := hs c (heq ▸ List.mem_cons_self ..)
  rw [hc] at hplain
  cases hplain

/-- A plain end of the pattern is the end of what it matches; a pattern that is plain matches itself. -/
theorem Matches.ends {p s : List Char} (h : Matches p s) : ∀ {pre suf : List Char}, p = pre ++ suf →
    (∀ c ∈ suf, isMeta c = false) → ∃ n, s = n ++ suf ∧ (pre = [] → n = []) := by
  induction h with
  | nil =>
    intro pre suf hp _
    obtain ⟨rfl, rfl⟩ := List.append_eq_nil_iff.mp hp.symm
    exact ⟨[], rfl, fun _ => rfl⟩
  | char c h ih =>
    intro pre suf hp hs
    cases pre with
    | nil =>
      obtain rfl : suf = c :: _ := hp.symm
      obtain ⟨n, rfl, hn⟩ := ih (List.nil_append _).symm fun x hx => hs x (List.mem_cons_of_mem _ hx)
      exact ⟨[], by rw [hn rfl]; rfl, fun _ => rfl⟩
    | cons x pre =>
      obtain ⟨rfl, hrest⟩ := List.cons.inj hp
      obtain ⟨n, rfl, -⟩ := ih hrest hs
      exact ⟨c :: n, rfl, fun h => by cases h⟩
  | escape c h ih =>
    intro pre suf hp hs
    cases pre with
    | nil => exact absurd hp (cons_ne_plain (by decide) hs)
    | cons x pre =>
      obtain ⟨-, hrest⟩ := List.cons.inj hp
      cases pre with
      | nil =>
        obtain rfl : suf = c :: _ := hrest.symm
        obtain ⟨n, rfl, hn⟩ := ih (List.nil_append _).symm fun x hx => hs x (List.mem_cons_of_mem _ hx)
        exact ⟨[], by rw [hn rfl]; rfl, fun _ => rfl⟩
      | cons y pre =>
        obtain ⟨rfl, htail⟩ := List.cons.inj hrest
        obtain ⟨n, rfl, -⟩ := ih htail hs
        exact ⟨c :: n, rfl, fun h => by cases h⟩
  | question hc h ih =>
    intro pre suf hp hs
    cases pre with
    | nil => exact absurd hp (cons_ne_plain (by decide) hs)
    | cons x pre =>
      obtain ⟨n, rfl, -⟩ := ih (List.cons.inj hp).2 hs
      exact ⟨_ :: n, rfl, fun h => by cases h⟩
  | starEnd h ih =>
    intro pre suf hp hs
    cases pre with
    | nil => exact absurd hp (cons_ne_plain (by decide) hs)
    | cons x pre =>
      obtain ⟨n, rfl, -⟩ := ih (List.cons.inj hp).2 hs
      exact ⟨n, rfl, fun h => by cases h⟩
  | star hc h ih =>
    intro pre suf hp hs
    cases pre with
    | nil => exact absurd hp (cons_ne_plain (by decide) hs)
    | cons x pre =>
      obtain ⟨n, rfl, -⟩ := ih hp hs
      exact ⟨_ :: n, rfl, fun h => by cases h⟩
  | @bracket set p s c hc h ih =>
    intro pre suf hp hs
    cases pre with
    | nil => exact absurd hp (cons_ne_plain (by decide) hs)
    | cons x pre =>
      -- the bracket closes before the plain end begins
      rcases List.append_eq_append_iff.mp (List.cons.inj hp).2 with ⟨a, hpre, hrest⟩ | ⟨a, -, hsuf⟩
      · cases a with
        | nil => exact absurd hrest (cons_ne_plain (by decide) hs)
        | cons y a =>
          obtain ⟨n, rfl, -⟩ := ih (List.cons.inj hrest).2 hs
          exact ⟨c :: n, rfl, fun h => by cases h⟩
      · exact absurd (hs ']' (hsuf ▸ List.mem_append_right a (List.mem_cons_self ..))) (by decide)

/-- With a tilde in front the name of a user is replaced by a directory. -/
inductive Expands : List Char → List Char → Prop
  | plain {p s : List Char} (h : Matches p s) : Expands p s
  | tilde {user p home s : List Char} (huser : '/' ∉ user) (hp : p = [] ∨ ∃ rest, p = '/' :: rest)
      (h : Matches p s) : Expands ('~' :: (user ++ p)) (home ++ s)

/-- A tilde in front is followed by a slash before the plain end begins. -/
theorem Expands.ends {pre suf s : List Char} (h : Expands (pre ++ suf) s)
    (hs : ∀ c ∈ suf, isMeta c = false) (ht : (pre ++ suf).head? = some '~' → '/' ∈ pre) :
    ∃ n, s = n ++ suf ∧ (pre = [] → n = []) := by
  generalize hpat : pre ++ suf = pat at h ht
  cases h with
  | plain h => exact h.ends hpat.symm hs
  | @tilde user p home s huser hp h =>
    have hslash := ht rfl
    rcases List.append_eq_append_iff.mp (show pre ++ suf = ('~' :: user) ++ p from hpat) with
      ⟨a, huser', -⟩ | ⟨a, hpre, hrest⟩
    · have hmem : '/' ∈ '~' :: user := huser' ▸ List.mem_append_left a hslash
      simp [huser] at hmem
    · obtain ⟨n, rfl, -⟩ := h.ends hrest hs
      exact ⟨home ++ n, (List.append_assoc ..).symm, fun h => by rw [h] at hslash; cases hslash⟩

/-- The plain end of a pattern: what stands behind the last wildcard, and behind the name of a user. -/
def plainEnd (p : List Char) : List Char :=
  (if p.head? = some '~' then (p.dropWhile (· != '/')).tail else p).rtakeWhile fun c => !isMeta c

theorem isMeta_of_mem_plainEnd {p : List Char} {c : Char} (hc : c ∈ plainEnd p) : isMeta c = false := by
  simpa using List.mem_rtakeWhile_imp hc

theorem plainEnd_suffix (p : List Char) : plainEnd p <:+ p := by
  rw [plainEnd]
  split
  · exact ((List.rtakeWhile_suffix _ _).trans (List.tail_suffix _)).trans (List.dropWhile_suffix _)
  · exact List.rtakeWhile_suffix _ _

/-- Whatever a pattern matches has its plain end. -/
theorem Expands.plainEnd_suffix {p s : List Char} (h : Expands p s) : plainEnd p <:+ s := by
  have hplain : ∀ c ∈ plainEnd p, isMeta c = false := fun c => isMeta_of_mem_plainEnd
  rw [plainEnd] at hplain ⊢
  by_cases htilde : p.head? = some '~'
  · rw [if_pos htilde] at hplain ⊢
    cases hrest : p.dropWhile (· != '/') with
    | nil => exact List.nil_suffix
    | cons c rest =>
      rw [hrest, List.tail_cons] at hplain
      rw [List.tail_cons]
      have hslash : c = '/' := by
        have hhead := List.head?_dropWhile_not (· != '/') p
        rw [hrest] at hhead
        simpa using hhead
      subst hslash
      obtain ⟨pre, hpre⟩ := List.rtakeWhile_suffix (fun c => !isMeta c) rest
      have hsplit : p = (p.takeWhile (· != '/') ++ '/' :: pre) ++ rest.rtakeWhile fun c => !isMeta c := by
        rw [List.append_assoc, List.cons_append, hpre, ← hrest, List.takeWhile_append_dropWhile]
      rw [hsplit] at h
      obtain ⟨n, rfl, -⟩ := h.ends hplain fun _ => by simp
      exact List.suffix_append _ _
  · rw [if_neg htilde] at hplain ⊢
    obtain ⟨pre, hpre⟩ := List.rtakeWhile_suffix (fun c => !isMeta c) p
    rw [← hpre] at h
    obtain ⟨n, hn, -⟩ := h.ends hplain fun ht => absurd (hpre ▸ ht) htilde
    exact hn ▸ List.suffix_append _ _

end Glob
