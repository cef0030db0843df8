import Mathlib.Data.List.Basic
import Mathlib.Order.Nat

/-! Directories and files as numbered nodes, names as entries of directories.

    A process sees the nodes from its root and from its current directory. A node may have several
    names; `..` of a directory is a node of its own. New directories take numbers that were not used,
    so that a tree after some of them were made relates to the tree before by `Grows`.

        1 ──a──▶ 4 ──b──▶ 7           walk from 1 along a, b
        1 ──a──▶ 4 ──c──▶ next        make 4 c -/

namespace DirTree

/-- A file with what is in it, or a directory with what `..` means in it and its entries. -/
inductive Node (ν δ : Type*) where
  | file (data : δ)
  | dir (up : ℕ) (entries : ν → Option ℕ)

variable {ν δ : Type*}

def Node.IsDir : Option (Node ν δ) → Prop
  | some (.dir _ _) => True
  | _ => False

structure Tree (ν δ : Type*) where
  node : ℕ → Option (Node ν δ)
  root : ℕ
  cwd : ℕ
  next : ℕ
  /-- nodes from `next` on are not used -/
  fresh : ∀ n, next ≤ n → node n = none
  root_dir : Node.IsDir (node root)
  cwd_dir : Node.IsDir (node cwd)
  up_dir : ∀ n up es, node n = some (.dir up es) → Node.IsDir (node up)
  linked : ∀ n up es x c, node n = some (.dir up es) → es x = some c → (node c).isSome

namespace Tree

variable {t t' t'' : Tree ν δ} {n m c : ℕ} {x : ν}

def isDir (t : Tree ν δ) (n : ℕ) : Bool :=
  match t.node n with
  | some (.dir _ _) => true
  | _ => false

theorem isDir_iff : t.isDir n = true ↔ ∃ up es, t.node n = some (.dir up es) := by
  rw [isDir]
  split
  · rename_i up es h
    exact ⟨fun _ => ⟨up, es, h⟩, fun _ => rfl⟩
  · rename_i h
    refine ⟨fun hf => Bool.noConfusion hf, ?_⟩
    rintro ⟨up, es, hn⟩
    exact absurd hn (h up es)

theorem isDir_of_node (h : Node.IsDir (t.node n)) : t.isDir n = true := by
  rw [isDir_iff]
  match hn : t.node n, h with
  | some (.dir up es), _ => exact ⟨up, es, rfl⟩

/-- `x` is an entry of the directory `n` and leads to `c`. -/
def Entry (t : Tree ν δ) (n : ℕ) (x : ν) (c : ℕ) : Prop :=
  ∃ up es, t.node n = some (.dir up es) ∧ es x = some c

theorem lt_next_of_node {nd : Node ν δ} (h : t.node n = some nd) : n < t.next := by
  by_contra hle
  rw [t.fresh n (by omega)] at h
  exact absurd h (by simp)

section Walk

variable [DecidableEq ν] (here above : ν)

/-- One component of a path, in the directory `n`. -/
def step (t : Tree ν δ) (n : ℕ) (x : ν) : Option ℕ :=
  match t.node n with
  | some (.dir up es) => if x = here then some n else if x = above then some up else es x
  | _ => none

/-- The node at the end of a path from `n`. -/
def walk (t : Tree ν δ) (n : ℕ) (xs : List ν) : Option ℕ := xs.foldlM (t.step here above) n

variable {here above}

theorem step_eq_some (h : t.step here above n x = some m) :
    t.isDir n = true ∧ (x = here ∧ m = n ∨ x = above ∧ (∃ es, t.node n = some (.dir m es)) ∨
      x ≠ here ∧ x ≠ above ∧ t.Entry n x m) := by
  rw [step] at h
  split at h
  · rename_i up es hn
    refine ⟨isDir_iff.mpr ⟨up, es, hn⟩, ?_⟩
    split at h
    · exact .inl ⟨‹_›, (Option.some.inj h).symm⟩
    · split at h
      · obtain rfl := Option.some.inj h
        exact .inr (.inl ⟨‹_›, es, hn⟩)
      · exact .inr (.inr ⟨‹_›, ‹_›, up, es, hn, h⟩)
  · exact absurd h (by simp)

theorem step_here (h : t.isDir n = true) : t.step here above n here = some n := by
  obtain ⟨up, es, hn⟩ := isDir_iff.mp h
  simp [step, hn]

/-- Above a directory there is a directory. -/
theorem step_above (hne : above ≠ here) (h : t.isDir n = true) :
    ∃ up, t.step here above n above = some up ∧ t.isDir up = true := by
  obtain ⟨up, es, hn⟩ := isDir_iff.mp h
  exact ⟨up, by simp [step, hn, hne], isDir_of_node (t.up_dir n up es hn)⟩

theorem step_entry (hhere : x ≠ here) (habove : x ≠ above) (h : t.Entry n x c) :
    t.step here above n x = some c := by
  obtain ⟨up, es, hn, hx⟩ := h
  simp [step, hn, hhere, habove, hx]

theorem walk_append (xs ys : List ν) : t.walk here above n (xs ++ ys) =
    (t.walk here above n xs).bind fun m => t.walk here above m ys :=
  List.foldlM_append

theorem walk_concat (xs : List ν) : t.walk here above n (xs ++ [x]) =
    (t.walk here above n xs).bind fun m => t.step here above m x := by
  rw [walk_append]
  congr 1
  funext m
  exact bind_pure _

theorem walk_cons {xs : List ν} : t.walk here above n (x :: xs) =
    (t.step here above n x).bind fun m => t.walk here above m xs := rfl

theorem step_isSome (h : t.step here above n x = some m) : (t.node m).isSome := by
  obtain ⟨hn, ⟨-, rfl⟩ | ⟨-, es, hes⟩ | ⟨-, -, up, es, hes, hx⟩⟩ := step_eq_some h
  · obtain ⟨up, es, hes⟩ := isDir_iff.mp hn
    rw [hes]
    rfl
  · obtain ⟨up, es', hm⟩ := isDir_iff.mp (isDir_of_node (t.up_dir n m es hes))
    rw [hm]
    rfl
  · exact t.linked n up es x m hes hx

theorem walk_isSome {xs : List ν} (hn : (t.node n).isSome) (h : t.walk here above n xs = some m) :
    (t.node m).isSome := by
  induction xs generalizing n with
  | nil => exact (Option.some.inj h) ▸ hn
  | cons x xs ih =>
    rw [walk_cons, Option.bind_eq_some_iff] at h
    obtain ⟨k, hk, h⟩ := h
    exact ih (step_isSome hk) h

/-- A path that leads to a directory leads through directories. -/
theorem walk_through {xs ys : List ν} (h : t.walk here above n (xs ++ ys) = some m)
    (hm : t.isDir m = true) : ∃ k, t.walk here above n xs = some k ∧ t.isDir k = true := by
  rw [walk_append, Option.bind_eq_some_iff] at h
  obtain ⟨k, hk, h⟩ := h
  refine ⟨k, hk, ?_⟩
  cases ys with
  | nil => exact (Option.some.inj h) ▸ hm
  | cons y ys =>
    rw [walk_cons, Option.bind_eq_some_iff] at h
    obtain ⟨l, hl, -⟩ := h
    exact (step_eq_some hl).1

end Walk

/-! ### What a tree can become -/

/-- `t'` is `t` with new directories in it: files, directories and entries stay, and a new entry leads
    to a new directory whose `..` is the directory it is an entry of. -/
structure Grows (t t' : Tree ν δ) : Prop where
  root : t'.root = t.root
  cwd : t'.cwd = t.cwd
  next : t.next ≤ t'.next
  file : ∀ n data, t.node n = some (.file data) → t'.node n = some (.file data)
  dir : ∀ n up es, t.node n = some (.dir up es) → ∃ es', t'.node n = some (.dir up es')
  kept : ∀ n x c, t.Entry n x c → t'.Entry n x c
  entry : ∀ n x c, t'.Entry n x c → t.Entry n x c ∨ t.next ≤ c ∧ ∃ es, t'.node c = some (.dir n es)
  made : ∀ n nd, t.node n = none → t'.node n = some nd → ∃ up es, nd = .dir up es

theorem Grows.refl (t : Tree ν δ) : Grows t t where
  root := rfl
  cwd := rfl
  next := le_rfl
  file := fun _ _ h => h
  dir := fun _ _ es h => ⟨es, h⟩
  kept := fun _ _ _ h => h
  entry := fun _ _ _ h => .inl h
  made := fun n nd hn h => by
    rw [hn] at h
    exact absurd h (by simp)

theorem Grows.trans (h : Grows t t') (h' : Grows t' t'') : Grows t t'' where
  root := h'.root.trans h.root
  cwd := h'.cwd.trans h.cwd
  next := h.next.trans h'.next
  file := fun n data hn => h'.file n data (h.file n data hn)
  dir := fun n up es hn => by
    obtain ⟨es', hn'⟩ := h.dir n up es hn
    exact h'.dir n up es' hn'
  kept := fun n x c hx => h'.kept n x c (h.kept n x c hx)
  entry := fun n x c hx => by
    rcases h'.entry n x c hx with hx | ⟨hc, hes⟩
    · rcases h.entry n x c hx with hx | ⟨hc, es, hes⟩
      · exact .inl hx
      · exact .inr ⟨hc, h'.dir c n es hes⟩
    · exact .inr ⟨h.next.trans hc, hes⟩
  made := fun n nd hn hnd => by
    cases hn' : t'.node n with
    | none => exact h'.made n nd hn' hnd
    | some nd' =>
      obtain ⟨up, es, rfl⟩ := h.made n nd' hn hn'
      obtain ⟨es', hes'⟩ := h'.dir n up es hn'
      rw [hnd, Option.some.injEq] at hes'
      exact ⟨up, es', hes'⟩

theorem Grows.isDir (h : Grows t t') (hn : t.isDir n = true) : t'.isDir n = true := by
  obtain ⟨up, es, hn⟩ := isDir_iff.mp hn
  obtain ⟨es', hn'⟩ := h.dir n up es hn
  exact isDir_iff.mpr ⟨up, es', hn'⟩

theorem Grows.isDir_old (h : Grows t t') (hn : (t.node n).isSome) (hdir : t'.isDir n = true) :
    t.isDir n = true := by
  obtain ⟨up, es, hdir⟩ := isDir_iff.mp hdir
  cases hnode : t.node n with
  | none => rw [hnode] at hn; exact Bool.noConfusion hn
  | some nd =>
    cases nd with
    | file data =>
      rw [h.file n data hnode] at hdir
      exact absurd hdir (by simp)
    | dir up es => exact isDir_iff.mpr ⟨up, es, hnode⟩

/-- What is in a new directory is new. -/
theorem Grows.entry_new (h : Grows t t') (hn : t.next ≤ n) (hx : t'.Entry n x c) : t.next ≤ c := by
  rcases h.entry n x c hx with ⟨up, es, hnode, -⟩ | ⟨hc, -⟩
  · rw [t.fresh n hn] at hnode
    exact absurd hnode (by simp)
  · exact hc

section Walk

variable [DecidableEq ν] {here above : ν}

theorem Grows.step (h : Grows t t') (hs : t.step here above n x = some m) :
    t'.step here above n x = some m := by
  obtain ⟨hn, ⟨rfl, rfl⟩ | ⟨rfl, es, hes⟩ | ⟨hhere, habove, hx⟩⟩ := step_eq_some hs
  · exact step_here (h.isDir hn)
  · obtain ⟨es', hes'⟩ := h.dir n m es hes
    rw [Tree.step, hes] at hs
    rw [Tree.step, hes']
    by_cases heq : x = here
    · simpa [heq] using hs
    · simp [heq]
  · exact step_entry hhere habove (h.kept n x m hx)

theorem Grows.walk {xs : List ν} (h : Grows t t') (hw : t.walk here above n xs = some m) :
    t'.walk here above n xs = some m := by
  induction xs generalizing n with
  | nil => exact hw
  | cons x xs ih =>
    rw [walk_cons, Option.bind_eq_some_iff] at hw ⊢
    obtain ⟨k, hk, hw⟩ := hw
    exact ⟨k, h.step hk, ih hw⟩

/-- Without `..` nothing old is behind anything new. -/
theorem Grows.walk_new {xs : List ν} (h : Grows t t') (hxs : above ∉ xs) (hn : t.next ≤ n)
    (hw : t'.walk here above n xs = some m) : t.next ≤ m := by
  induction xs generalizing n with
  | nil => exact (Option.some.inj hw) ▸ hn
  | cons x xs ih =>
    rw [walk_cons, Option.bind_eq_some_iff] at hw
    obtain ⟨k, hk, hw⟩ := hw
    rw [List.mem_cons, not_or] at hxs
    refine ih hxs.2 ?_ hw
    obtain ⟨-, ⟨-, rfl⟩ | ⟨rfl, -⟩ | ⟨-, -, hx⟩⟩ := step_eq_some hk
    · exact hn
    · exact absurd rfl hxs.1
    · exact h.entry_new hn hx

/-- Without `..` a path leads where it led before, or to something new. -/
theorem Grows.walk_old {xs : List ν} (h : Grows t t') (hxs : above ∉ xs) (hn : (t.node n).isSome)
    (hw : t'.walk here above n xs = some m) : t.walk here above n xs = some m ∨ t.next ≤ m := by
  induction xs generalizing n with
  | nil => exact .inl hw
  | cons x xs ih =>
    rw [walk_cons, Option.bind_eq_some_iff] at hw
    obtain ⟨k, hk, hw⟩ := hw
    rw [List.mem_cons, not_or] at hxs
    obtain ⟨hdir', hcase⟩ := step_eq_some hk
    have hdir := h.isDir_old hn hdir'
    rcases hcase with ⟨rfl, rfl⟩ | ⟨rfl, -⟩ | ⟨hhere, habove, hx⟩
    · rw [walk_cons, step_here hdir]
      exact ih hxs.2 hn hw
    · exact absurd rfl hxs.1
    · rcases h.entry n x k hx with hold | ⟨hnew, -⟩
      · obtain ⟨up, es, hnode, hes⟩ := hold
        rw [walk_cons, step_entry hhere habove ⟨up, es, hnode, hes⟩]
        exact ih hxs.2 (t.linked n up es x k hnode hes) hw
      · exact .inr (h.walk_new hxs.2 hnew hw)

end Walk

/-! ### Making a directory -/

section Make

variable [DecidableEq ν]

/-- The nodes after `x` was made in the directory `n`, with `..` and entries `up` and `es`. -/
def madeNode (t : Tree ν δ) (n up : ℕ) (es : ν → Option ℕ) (x : ν) : ℕ → Option (Node ν δ) :=
  fun m =>
    if m = t.next then some (.dir n fun _ => none)
    else if m = n then some (.dir up (Function.update es x (some t.next)))
    else t.node m

variable {up : ℕ} {es : ν → Option ℕ}

theorem madeNode_next : t.madeNode n up es x t.next = some (.dir n fun _ => none) := if_pos rfl

theorem madeNode_self (h : t.node n = some (.dir up es)) :
    t.madeNode n up es x n = some (.dir up (Function.update es x (some t.next))) := by
  rw [madeNode, if_neg (lt_next_of_node h).ne, if_pos rfl]

theorem madeNode_other (hm : m ≠ t.next) (hmn : m ≠ n) : t.madeNode n up es x m = t.node m := by
  rw [madeNode, if_neg hm, if_neg hmn]

theorem madeNode_kept {nd : Node ν δ} (hm : t.node m = some nd) (hmn : m ≠ n) :
    t.madeNode n up es x m = some nd := by
  rw [madeNode_other (lt_next_of_node hm).ne hmn, hm]

/-- The one node that was not there is the new directory. -/
theorem madeNode_new {nd : Node ν δ} (h : t.node n = some (.dir up es)) (hm : t.node m = none)
    (hnd : t.madeNode n up es x m = some nd) : nd = .dir n fun _ => none := by
  by_cases hmnext : m = t.next
  · subst hmnext
    rw [madeNode_next] at hnd
    exact (Option.some.inj hnd).symm
  · have hmn : m ≠ n := by
      rintro rfl
      rw [h] at hm
      exact absurd hm (by simp)
    rw [madeNode_other hmnext hmn, hm] at hnd
    exact absurd hnd (by simp)

theorem madeNode_dir (h : t.node n = some (.dir up es)) (hm : Node.IsDir (t.node m)) :
    Node.IsDir (t.madeNode n up es x m) := by
  have hne : m ≠ t.next := by
    rintro rfl
    rw [t.fresh t.next le_rfl] at hm
    exact hm
  by_cases hmn : m = n
  · subst hmn
    rw [madeNode_self h]
    trivial
  · rwa [madeNode_other hne hmn]

theorem madeNode_isSome (hm : (t.node m).isSome) :
    (t.madeNode n up es x m).isSome := by
  rw [madeNode]
  split
  · rfl
  · split
    · rfl
    · exact hm

theorem madeNode_entries {u : ℕ} {e : ν → Option ℕ}
    (hm : t.madeNode n up es x m = some (.dir u e)) :
    m = t.next ∧ u = n ∧ e = (fun _ => none) ∨
      m = n ∧ u = up ∧ e = Function.update es x (some t.next) ∨ t.node m = some (.dir u e) := by
  rw [madeNode] at hm
  split at hm
  · cases hm
    exact .inl ⟨‹_›, rfl, rfl⟩
  · split at hm
    · cases hm
      exact .inr (.inl ⟨‹_›, rfl, rfl⟩)
    · exact .inr (.inr hm)

theorem madeNode_fresh (h : t.node n = some (.dir up es)) (hm : t.next + 1 ≤ m) :
    t.madeNode n up es x m = none := by
  have hn := lt_next_of_node h
  rw [madeNode_other (by omega) (by omega), t.fresh m (by omega)]

theorem madeNode_up {u : ℕ} {e : ν → Option ℕ} (h : t.node n = some (.dir up es))
    (hm : t.madeNode n up es x m = some (.dir u e)) : Node.IsDir (t.madeNode n up es x u) := by
  rcases madeNode_entries hm with ⟨-, rfl, -⟩ | ⟨-, rfl, -⟩ | hm
  · exact madeNode_dir h (by rw [h]; trivial)
  · exact madeNode_dir h (t.up_dir n u es h)
  · exact madeNode_dir h (t.up_dir m u e hm)

theorem madeNode_linked {u : ℕ} {e : ν → Option ℕ} {y : ν} (h : t.node n = some (.dir up es))
    (hm : t.madeNode n up es x m = some (.dir u e)) (hy : e y = some c) :
    (t.madeNode n up es x c).isSome := by
  rcases madeNode_entries hm with ⟨-, -, rfl⟩ | ⟨-, -, rfl⟩ | hm
  · exact absurd hy (by simp)
  · rw [Function.update_apply] at hy
    split at hy
    · cases hy
      rw [madeNode_next]
      rfl
    · exact madeNode_isSome (t.linked n up es y c h hy)
  · exact madeNode_isSome (t.linked m u e y c hm hy)

/-- `mkdir` of the name `x` in the directory `n`; nothing happens when `n` is no directory or the name is
    taken. -/
def make (t : Tree ν δ) (n : ℕ) (x : ν) : Tree ν δ :=
  match h : t.node n with
  | some (.dir up es) =>
    if es x = none then
      { node := t.madeNode n up es x
        root := t.root
        cwd := t.cwd
        next := t.next + 1
        fresh := fun _ hm => madeNode_fresh h hm
        root_dir := madeNode_dir h t.root_dir
        cwd_dir := madeNode_dir h t.cwd_dir
        up_dir := fun _ _ _ hm => madeNode_up h hm
        linked := fun _ _ _ _ _ hm hy => madeNode_linked h hm hy }
    else t
  | _ => t

theorem make_free (h : t.node n = some (.dir up es)) (hx : es x = none) :
    (t.make n x).node = t.madeNode n up es x ∧ (t.make n x).next = t.next + 1 ∧
      (t.make n x).root = t.root ∧ (t.make n x).cwd = t.cwd := by
  rw [make]
  split
  · rename_i up' es' h'
    rw [h] at h'
    cases h'
    rw [if_pos hx]
    exact ⟨rfl, rfl, rfl, rfl⟩
  · rename_i h'
    exact absurd h (h' up es)

/-- A name that is taken stays what it is. -/
theorem make_taken (h : t.Entry n x c) : t.make n x = t := by
  obtain ⟨up, es, hn, hx⟩ := h
  rw [make]
  split
  · rename_i up' es' h'
    rw [hn] at h'
    cases h'
    rw [if_neg (by rw [hx]; exact Option.some_ne_none c)]
  · rfl

theorem make_not_dir (h : t.isDir n = false) : t.make n x = t := by
  rw [make]
  split
  · rename_i up es hn
    rw [isDir_iff.mpr ⟨up, es, hn⟩] at h
    exact Bool.noConfusion h
  · rfl

/-- What `make` comes to: nothing, or one new directory. -/
theorem make_cases (t : Tree ν δ) (n : ℕ) (x : ν) : t.make n x = t ∨
    ∃ up es, t.node n = some (.dir up es) ∧ es x = none := by
  cases hdir : t.isDir n with
  | false => exact .inl (make_not_dir hdir)
  | true =>
    obtain ⟨up, es, hn⟩ := isDir_iff.mp hdir
    cases hx : es x with
    | none => exact .inr ⟨up, es, hn, hx⟩
    | some c => exact .inl (make_taken ⟨up, es, hn, hx⟩)

theorem grows_make (t : Tree ν δ) (n : ℕ) (x : ν) : Grows t (t.make n x) := by
  rcases make_cases t n x with heq | ⟨up, es, hn, hx⟩
  · rw [heq]
    exact .refl t
  · obtain ⟨hnode, hnext, hroot, hcwd⟩ := make_free hn hx
    have hlt := lt_next_of_node hn
    refine ⟨hroot, hcwd, by omega, ?_, ?_, ?_, ?_, ?_⟩
    · intro m data hm
      have hmn : m ≠ n := by
        rintro rfl
        rw [hn] at hm
        exact absurd hm (by simp)
      rw [hnode, madeNode_kept hm hmn]
    · intro m u e hm
      by_cases hmn : m = n
      · subst hmn
        rw [hn] at hm
        cases hm
        exact ⟨_, by rw [hnode, madeNode_self hn]⟩
      · exact ⟨e, by rw [hnode, madeNode_kept hm hmn]⟩
    · rintro m y c ⟨u, e, hm, hy⟩
      by_cases hmn : m = n
      · subst hmn
        rw [hn] at hm
        cases hm
        refine ⟨up, _, by rw [hnode, madeNode_self hn], ?_⟩
        have hyx : y ≠ x := by
          rintro rfl
          rw [hx] at hy
          exact absurd hy (by simp)
        rw [Function.update_of_ne hyx, hy]
      · exact ⟨u, e, by rw [hnode, madeNode_kept hm hmn], hy⟩
    · rintro m y c ⟨u, e, hm, hy⟩
      rw [hnode] at hm
      rcases madeNode_entries hm with ⟨-, -, rfl⟩ | ⟨rfl, -, rfl⟩ | hm
      · exact absurd hy (by simp)
      · rw [Function.update_apply] at hy
        split at hy
        · cases hy
          exact .inr ⟨le_rfl, _, by rw [hnode, madeNode_next]⟩
        · exact .inl ⟨up, es, hn, hy⟩
      · exact .inl ⟨u, e, hm, hy⟩
    · intro m nd hm hnd
      rw [hnode] at hnd
      exact ⟨n, _, madeNode_new hn hm hnd⟩

/-- Afterwards the name leads somewhere: to what it was before, or to the one new directory. -/
theorem make_entry (hdir : t.isDir n = true) : ∃ c, (t.make n x).Entry n x c ∧
    (t.make n x = t ∨ c = t.next ∧ (t.make n x).next = t.next + 1 ∧ (t.make n x).isDir c = true) := by
  obtain ⟨up, es, hn⟩ := isDir_iff.mp hdir
  cases hx : es x with
  | some c =>
    have htaken := make_taken ⟨up, es, hn, hx⟩
    exact ⟨c, by rw [htaken]; exact ⟨up, es, hn, hx⟩, .inl htaken⟩
  | none =>
    obtain ⟨hnode, hnext, -⟩ := make_free hn hx
    refine ⟨t.next, ⟨up, _, by rw [hnode, madeNode_self hn], by simp⟩, .inr ⟨rfl, hnext, ?_⟩⟩
    exact isDir_iff.mpr ⟨n, _, by rw [hnode, madeNode_next]⟩

end Make

end Tree

end DirTree
