import Cake.Lib.DirTree
import Cake.Isolation

/-! Making the directories of a path (`file::mkpath`).

    `mkpath` takes the directory part of the name and, unless that exists, calls `mkdir` for the text
    before each of its slashes, from the left. What is there already makes `mkdir` fail, which nobody
    looks at.

        obj/debug/a/b.o      path      obj/debug/a/
                             mkdir     obj    obj/debug    obj/debug/a
        /x//y/               mkdir     ""     /x    /x/    /x//y

    The branch for a last part without a slash is not taken, since the directory part ends in one. -/

namespace Cake

/-- The files and directories the process sees; what is in a file is a text. -/
abbrev Disk := DirTree.Tree Str Str

namespace Disk

/-- Where a path starts. -/
def start (t : Disk) (p : Str) : ℕ := if p.head? = some '/' then t.root else t.cwd

def follow (t : Disk) (n : ℕ) (cs : List Str) : Option ℕ := t.walk ".".toList "..".toList n cs

/-- The node `stat` finds; a slash at the end asks for a directory. -/
def stat (t : Disk) (p : Str) : Option ℕ :=
  if p.isEmpty then none
  else match t.follow (t.start p) (components p) with
    | none => none
    | some n => if p.getLast? == some '/' && !t.isDir n then none else some n

/-- `file::exists` -/
def fileExists (t : Disk) (p : Str) : Bool := (t.stat p).isSome

/-- `file::is_dir` -/
def fileIsDir (t : Disk) (p : Str) : Bool :=
  match t.stat p with
  | some n => t.isDir n
  | none => false

/-- `mkdir`: a new directory where the last component has no meaning yet and the others lead to a
    directory. -/
def mkdir (t : Disk) (p : Str) : Disk :=
  match (components p).getLast? with
  | none => t
  | some c =>
    if c = ".".toList ∨ c = "..".toList then t
    else match t.follow (t.start p) (components p).dropLast with
      | none => t
      | some n => t.make n c

end Disk

/-- The loop of `mkpath`: what it calls `makedir` with. `before` is the text before `at`, `seg` the text
    from there on, until `strchr` comes to a slash. -/
def mkpathParts (before seg : Str) : Str → List Str
  -- `*at` is 0, or this is the last part
  | [] => if seg.isEmpty then [] else [seg]
  | c :: rest =>
    if c = '/' then (before ++ seg) :: mkpathParts (before ++ seg ++ ['/']) [] rest
    else mkpathParts before (seg ++ [c]) rest

/-- What `mkpath(filename)` calls `mkdir` with, in order. -/
def mkpathCalls (t : Disk) (filename : Str) : List Str :=
  let xpath := path t.fileIsDir filename
  if t.fileExists xpath then [] else mkpathParts [] [] xpath

def mkpath (t : Disk) (filename : Str) : Disk := (mkpathCalls t filename).foldl Disk.mkdir t

/-! ### The text -/

variable {before seg rest p : Str}

/-- The text before the first slash is what the slashes are counted from. -/
theorem slash_split {a b c d : Str} (ha : '/' ∉ a) (h : a ++ '/' :: b = c ++ '/' :: d) :
    c = a ∧ d = b ∨ ∃ e, c = a ++ '/' :: e ∧ b = e ++ '/' :: d := by
  rw [List.append_eq_append_iff] at h
  rcases h with ⟨as, rfl, has⟩ | ⟨cs, rfl, hcs⟩
  · cases as with
    | nil => exact .inl ⟨by simp, by simpa using has.symm⟩
    | cons x as =>
      rw [List.cons_append, List.cons.injEq] at has
      obtain ⟨rfl, rfl⟩ := has
      exact .inr ⟨as, rfl, rfl⟩
  · cases cs with
    | nil => exact .inl ⟨by simp, by simpa using hcs⟩
    | cons x cs =>
      rw [List.cons_append, List.cons.injEq] at hcs
      obtain ⟨rfl, -⟩ := hcs
      exact absurd (by simp) ha

/-- `makedir` is called for the text before each slash. -/
theorem mem_parts (hseg : '/' ∉ seg) : p ∈ mkpathParts before seg (rest ++ ['/']) ↔
    ∃ p' post, p = before ++ p' ∧ seg ++ (rest ++ ['/']) = p' ++ '/' :: post := by
  induction rest generalizing before seg with
  | nil =>
    have hparts : mkpathParts before seg ([] ++ ['/']) = [before ++ seg] := by simp [mkpathParts]
    rw [hparts, List.mem_singleton, List.nil_append]
    constructor
    · rintro rfl
      exact ⟨seg, [], rfl, rfl⟩
    · rintro ⟨p', post, rfl, heq⟩
      rcases slash_split hseg heq with ⟨rfl, -⟩ | ⟨e, -, he⟩
      · rfl
      · exact absurd he (by simp)
  | cons c rest ih =>
    rw [List.cons_append, mkpathParts]
    split
    · rename_i hc
      subst hc
      rw [List.mem_cons, ih (by simp)]
      constructor
      · rintro (rfl | ⟨p', post, rfl, heq⟩)
        · exact ⟨seg, _, rfl, rfl⟩
        · refine ⟨seg ++ '/' :: p', post, by simp, ?_⟩
          rw [List.nil_append] at heq
          rw [heq, List.append_assoc, List.cons_append]
      · rintro ⟨p', post, rfl, heq⟩
        rcases slash_split hseg heq with ⟨rfl, -⟩ | ⟨e, rfl, he⟩
        · exact .inl rfl
        · exact .inr ⟨e, post, by simp, by rw [List.nil_append, he]⟩
    · rename_i hc
      have hseg' : '/' ∉ seg ++ [c] := by
        rw [List.mem_append, List.mem_singleton, not_or]
        exact ⟨hseg, fun heq => hc heq.symm⟩
      rw [ih hseg', List.append_assoc]
      rfl

/-- The end of the text before `at`. -/
def AtPart (before : Str) : Prop := before = [] ∨ ∃ d, before = d ++ ['/']

theorem components_slash_nil (p : Str) : components (p ++ ['/']) = components p := by
  rw [components_slash]
  exact List.append_nil _

theorem components_part (hbefore : AtPart before) (hseg : '/' ∉ seg) :
    components (before ++ seg) = components before ++ if seg.isEmpty then [] else [seg] := by
  have hword : components seg = if seg.isEmpty then [] else [seg] := by
    cases seg with
    | nil => rfl
    | cons c seg =>
      refine Tokens.tokens_word (fun x hx => ?_) (by simp)
      simp only [beq_eq_false_iff_ne, ne_eq]
      rintro rfl
      exact hseg hx
  rcases hbefore with rfl | ⟨d, rfl⟩
  · exact hword
  · rw [List.append_assoc, List.singleton_append, components_slash, hword, components_slash_nil]

/-! ### Directories on the way -/

open DirTree.Tree (Grows)

variable {t t' : Disk} {n m s : ℕ}

/-- The text leads from `s` to a directory. -/
def LeadsToDir (t : Disk) (s : ℕ) (p : Str) : Prop :=
  ∃ d, t.follow s (components p) = some d ∧ t.isDir d = true

theorem LeadsToDir.grows (h : LeadsToDir t s p) (hg : Grows t t') : LeadsToDir t' s p := by
  obtain ⟨d, hd, hdir⟩ := h
  exact ⟨d, hg.walk hd, hg.isDir hdir⟩

theorem start_isDir (t : Disk) (p : Str) : t.isDir (t.start p) = true := by
  rw [Disk.start]
  split
  · exact DirTree.Tree.isDir_of_node t.root_dir
  · exact DirTree.Tree.isDir_of_node t.cwd_dir

theorem start_grows (hg : Grows t t') (p : Str) : t'.start p = t.start p := by
  rw [Disk.start, Disk.start, hg.root, hg.cwd]

/-- A path and its longer versions start at the same node. -/
theorem start_append (t : Disk) (hp : p ≠ []) (q : Str) : t.start (p ++ q) = t.start p := by
  rw [Disk.start, Disk.start, List.head?_append_of_ne_nil p hp]

theorem stat_of_follow (hp : p ≠ []) (h : t.follow (t.start p) (components p) = some n)
    (hdir : t.isDir n = true) : t.stat p = some n := by
  rw [Disk.stat, h]
  simp [hp, hdir]

theorem follow_of_stat (h : t.stat p = some n) :
    t.follow (t.start p) (components p) = some n ∧
      (p.getLast? = some '/' → t.isDir n = true) := by
  rw [Disk.stat] at h
  split at h
  · exact absurd h (by simp)
  · split at h
    · exact absurd h (by simp)
    · rename_i k hk
      split at h
      · exact absurd h (by simp)
      · rename_i hcond
        obtain rfl := Option.some.inj h
        refine ⟨hk, fun hlast => ?_⟩
        simpa [hlast] using hcond

theorem fileIsDir_iff (hp : p ≠ []) : t.fileIsDir p = true ↔ LeadsToDir t (t.start p) p := by
  rw [Disk.fileIsDir]
  constructor
  · intro h
    split at h
    · rename_i n hn
      exact ⟨n, (follow_of_stat hn).1, h⟩
    · exact Bool.noConfusion h
  · rintro ⟨d, hd, hdir⟩
    rw [stat_of_follow hp hd hdir]
    exact hdir

/-- `mkdir` does nothing for what exists. -/
theorem mkdir_follow (h : t.follow (t.start p) (components p) = some n) : t.mkdir p = t := by
  rw [Disk.mkdir]
  split
  · rfl
  · rename_i c hc
    split
    · rfl
    · rename_i hname
      rw [not_or] at hname
      obtain ⟨cs, hcs⟩ := List.getLast?_eq_some_iff.mp hc
      rw [hcs, List.dropLast_concat]
      rw [hcs, Disk.follow, DirTree.Tree.walk_concat, Option.bind_eq_some_iff] at h
      obtain ⟨d, hd, hstep⟩ := h
      rw [Disk.follow, hd]
      obtain ⟨-, ⟨rfl, -⟩ | ⟨rfl, -⟩ | ⟨-, -, hx⟩⟩ := DirTree.Tree.step_eq_some hstep
      · exact absurd rfl hname.1
      · exact absurd rfl hname.2
      · exact DirTree.Tree.make_taken hx

theorem grows_mkdir (t : Disk) (p : Str) : Grows t (t.mkdir p) := by
  rw [Disk.mkdir]
  split
  · exact .refl t
  · split
    · exact .refl t
    · split
      · exact .refl t
      · exact DirTree.Tree.grows_make ..

theorem grows_mkdirs (t : Disk) (ps : List Str) : Grows t (ps.foldl Disk.mkdir t) := by
  induction ps generalizing t with
  | nil => exact .refl t
  | cons p ps ih => exact (grows_mkdir t p).trans (ih _)

/-- Nothing is there, or a directory. -/
def AbsentOrDir (t : Disk) (p : Str) : Prop := t.stat p = none ∨ t.fileIsDir p = true

instance (t : Disk) (p : Str) : Decidable (AbsentOrDir t p) :=
  inferInstanceAs (Decidable (_ ∨ _))

/-- Nothing was made, or the directory of this path. -/
def DirMadeAt (t t' : Disk) (s : ℕ) (p : Str) : Prop :=
  t' = t ∨ t'.next = t.next + 1 ∧ p ≠ [] ∧ t'.follow s (components p) = some t.next

theorem follow_part (hbefore : AtPart before) (hseg : '/' ∉ seg) (hne : seg ≠ [])
    (h : t.follow s (components before) = some n) :
    t.follow s (components (before ++ seg)) = t.step ".".toList "..".toList n seg := by
  rw [Disk.follow] at h
  rw [components_part hbefore hseg, if_neg (by simpa using hne), Disk.follow,
    DirTree.Tree.walk_concat, h]
  rfl

/-- What exists where a directory or nothing should be is a directory. -/
theorem AbsentOrDir.isDir (h : AbsentOrDir t p) (hp : p ≠ [])
    (hf : t.follow (t.start p) (components p) = some n)
    (hlast : p.getLast? = some '/' → t.isDir n = true) : t.isDir n = true := by
  by_cases hl : p.getLast? = some '/'
  · exact hlast hl
  · have hstat : t.stat p = some n := by
      rw [Disk.stat, hf]
      simp [hp, hl]
    rcases h with h | h
    · rw [hstat] at h
      exact absurd h (by simp)
    · rw [Disk.fileIsDir, hstat] at h
      exact h

/-- A name that leads nowhere from a directory is made there. -/
theorem mkdir_absent (hbefore : AtPart before) (hseg : '/' ∉ seg) (hne : seg ≠ [])
    (hstart : t.start (before ++ seg) = s) (hn : t.follow s (components before) = some n)
    (hdir : t.isDir n = true) (habsent : t.follow s (components (before ++ seg)) = none) :
    (t.mkdir (before ++ seg)).follow s (components (before ++ seg)) = some t.next ∧
      (t.mkdir (before ++ seg)).next = t.next + 1 ∧
      (t.mkdir (before ++ seg)).isDir t.next = true := by
  rw [follow_part hbefore hseg hne hn] at habsent
  have hhere : seg ≠ ".".toList := by
    rintro rfl
    rw [DirTree.Tree.step_here hdir] at habsent
    exact absurd habsent (by simp)
  have habove : seg ≠ "..".toList := by
    rintro rfl
    have hup : ∃ up, t.step ".".toList "..".toList n "..".toList = some up ∧ t.isDir up = true :=
      DirTree.Tree.step_above (by decide) hdir
    obtain ⟨up, hup, -⟩ := hup
    rw [hup] at habsent
    exact absurd habsent (by simp)
  have hmk : t.mkdir (before ++ seg) = t.make n seg := by
    rw [Disk.mkdir, components_part hbefore hseg, if_neg (by simpa using hne),
      List.getLast?_concat, List.dropLast_concat]
    simp only [hhere, habove, or_self, if_false, hstart, hn]
  obtain ⟨c, hentry, hcase⟩ := DirTree.Tree.make_entry (x := seg) hdir
  rw [hmk, follow_part hbefore hseg hne ((DirTree.Tree.grows_make t n seg).walk hn),
    DirTree.Tree.step_entry hhere habove hentry]
  rcases hcase with hsame | ⟨rfl, hnext, hcdir⟩
  · rw [hsame] at hentry
    rw [DirTree.Tree.step_entry hhere habove hentry] at habsent
    exact absurd habsent (by simp)
  · exact ⟨rfl, hnext, hcdir⟩

/-- One round of the loop: the part is a directory afterwards, and nothing else was made. -/
theorem mkdir_part (hbefore : AtPart before) (hseg : '/' ∉ seg) (hs : t.isDir s = true)
    (hstart : before ++ seg ≠ [] → t.start (before ++ seg) = s) (hlead : LeadsToDir t s before)
    (hclear : AbsentOrDir t (before ++ seg)) :
    LeadsToDir (t.mkdir (before ++ seg)) s (before ++ seg) ∧
      DirMadeAt t (t.mkdir (before ++ seg)) s (before ++ seg) := by
  obtain ⟨d, hd, hdir⟩ := hlead
  by_cases hp : before ++ seg = []
  · rw [hp]
    exact ⟨⟨s, rfl, hs⟩, .inl rfl⟩
  cases hf : t.follow s (components (before ++ seg)) with
  | some m =>
    rw [mkdir_follow (by rw [hstart hp]; exact hf)]
    refine ⟨⟨m, hf, hclear.isDir hp (by rw [hstart hp]; exact hf) ?_⟩, .inl rfl⟩
    intro hlast
    have hnil : seg = [] := by
      by_contra hne
      rw [List.getLast?_append_of_ne_nil _ hne] at hlast
      exact hseg (List.mem_of_getLast? hlast)
    rw [hnil, List.append_nil, hd] at hf
    exact (Option.some.inj hf) ▸ hdir
  | none =>
    have hne : seg ≠ [] := by
      rintro rfl
      rw [List.append_nil, hd] at hf
      exact absurd hf (by simp)
    obtain ⟨hnew, hnext, hnewdir⟩ := mkdir_absent hbefore hseg hne (hstart hp) hd hdir hf
    exact ⟨⟨t.next, hnew, hnewdir⟩, .inr ⟨hnext, hp, hnew⟩⟩

/-! ### The loop -/

/-- The parts lead to directories now, and what is new is one of them. -/
structure DirsMade (t t' : Disk) (s : ℕ) (ps : List Str) : Prop where
  leads : ∀ p ∈ ps, LeadsToDir t' s p
  only : ∀ n, t.next ≤ n → (t'.node n).isSome →
    ∃ p ∈ ps, p ≠ [] ∧ t'.follow s (components p) = some n

theorem DirsMade.nil (t : Disk) (s : ℕ) : DirsMade t t s [] := by
  refine ⟨by simp, fun n hn hsome => ?_⟩
  rw [t.fresh n hn] at hsome
  exact absurd hsome (by simp)

theorem DirsMade.cons {t₁ : Disk} {ps : List Str} (hlead : LeadsToDir t₁ s p) (hat : DirMadeAt t t₁ s p)
    (hg : Grows t₁ t') (h : DirsMade t₁ t' s ps) : DirsMade t t' s (p :: ps) := by
  constructor
  · intro q hq
    rcases List.mem_cons.mp hq with rfl | hq
    · exact hlead.grows hg
    · exact h.leads q hq
  · intro n hn hsome
    by_cases hnew : t₁.next ≤ n
    · obtain ⟨q, hq, hne, hf⟩ := h.only n hnew hsome
      exact ⟨q, List.mem_cons_of_mem p hq, hne, hf⟩
    · rcases hat with rfl | ⟨hnext, hne, hf⟩
      · exact absurd hn hnew
      · obtain rfl : n = t.next := by omega
        exact ⟨p, List.mem_cons_self, hne, hg.walk hf⟩

/-- `mkdir` finds nothing or a directory under each of the texts when its turn comes. -/
def Clear (t : Disk) (ps : List Str) : Prop :=
  ∀ earlier p later, ps = earlier ++ p :: later → AbsentOrDir (earlier.foldl Disk.mkdir t) p

theorem Clear.tail {ps : List Str} (h : Clear t (p :: ps)) : Clear (t.mkdir p) ps := by
  rintro earlier q later rfl
  exact h (p :: earlier) q later rfl

/-- The loop makes the directories of its parts. -/
theorem parts_made (hbefore : AtPart before) (hseg : '/' ∉ seg) (hs : t.isDir s = true)
    (hstart : ∀ q, q ≠ [] → q <+: before ++ seg ++ (rest ++ ['/']) → t.start q = s)
    (hlead : LeadsToDir t s before) (hclear : Clear t (mkpathParts before seg (rest ++ ['/']))) :
    DirsMade t ((mkpathParts before seg (rest ++ ['/'])).foldl Disk.mkdir t) s
      (mkpathParts before seg (rest ++ ['/'])) := by
  -- on the text not scanned yet; what is before the part leads to a directory in each round
  induction rest generalizing before seg t with
  | nil =>
    have hparts : mkpathParts before seg ([] ++ ['/']) = [before ++ seg] := by simp [mkpathParts]
    rw [hparts] at hclear ⊢
    have hfirst := hclear [] (before ++ seg) [] rfl
    obtain ⟨hl, hat⟩ := mkdir_part hbefore hseg hs
      (fun hne => hstart _ hne (List.prefix_append ..)) hlead hfirst
    exact DirsMade.cons hl hat (.refl _) (.nil _ s)
  | cons c rest ih =>
    rw [List.cons_append, mkpathParts] at hclear ⊢
    split at hclear
    · rename_i hc
      subst hc
      rw [if_pos rfl]
      have hfirst := hclear [] (before ++ seg) _ rfl
      obtain ⟨hl, hat⟩ := mkdir_part hbefore hseg hs
        (fun hne => hstart _ hne (List.prefix_append ..)) hlead hfirst
      have hg := grows_mkdir t (before ++ seg)
      refine DirsMade.cons hl hat (grows_mkdirs _ _) (ih (.inr ⟨_, rfl⟩) (by simp) (hg.isDir hs) ?_ ?_
        hclear.tail)
      · intro q hne hq
        rw [start_grows hg]
        refine hstart q hne ?_
        simpa using hq
      · obtain ⟨d, hd, hdir⟩ := hl
        exact ⟨d, by rwa [components_slash_nil], hdir⟩
    · rename_i hc
      rw [if_neg hc]
      have hseg' : '/' ∉ seg ++ [c] := by
        rw [List.mem_append, List.mem_singleton, not_or]
        exact ⟨hseg, fun heq => hc heq.symm⟩
      refine ih hbefore hseg' hs (fun q hne hq => hstart q hne ?_) hlead hclear
      simpa using hq

/-! ### The directory part of a name -/

variable {filename pre post : Str}

/-- `file::path` of a name with a slash: the name when it is a directory, else all up to the last
    slash. -/
theorem path_slash (isDir : Str → Bool) (h : '/' ∈ filename) :
    ∃ a b, filename = a ++ '/' :: b ∧ '/' ∉ b ∧
      path isDir filename = if isDir filename then filename else a ++ ['/'] := by
  cases hr : strrchr '/' filename with
  | none => exact absurd h (not_mem_of_strrchr hr)
  | some ab =>
    obtain ⟨a, b⟩ := ab
    obtain ⟨rfl, hb⟩ := strrchr_spec hr
    refine ⟨a, b, rfl, hb, ?_⟩
    rw [path, hr]
    split
    · rfl
    · dsimp only
      split
      · rename_i hnil
        rw [List.isEmpty_iff.mp hnil]
      · rfl

/-- The slashes of a name are those of its directory part. -/
theorem slash_before_last {a b : Str} (hb : '/' ∉ b) (h : a ++ '/' :: b = pre ++ '/' :: post) :
    ∃ post', a ++ ['/'] = pre ++ '/' :: post' ∧ post = post' ++ b := by
  have h' : (a ++ ['/']) ++ b = (pre ++ ['/']) ++ post := by simpa using h
  rw [List.append_eq_append_iff] at h'
  rcases h' with ⟨as, has, rfl⟩ | ⟨cs, hcs, rfl⟩
  · by_cases hnil : as = []
    · subst hnil
      exact ⟨[], by simpa using has.symm, rfl⟩
    · have hlast := congrArg List.getLast? has
      rw [List.getLast?_concat, List.getLast?_append_of_ne_nil _ hnil] at hlast
      exact absurd (List.mem_append_left post (List.mem_of_getLast? hlast.symm)) hb
  · exact ⟨cs, by rw [hcs]; simp, rfl⟩

theorem mem_parts_dir {a : Str} :
    p ∈ mkpathParts [] [] (a ++ ['/']) ↔ ∃ post, a ++ ['/'] = p ++ '/' :: post := by
  have hmem : p ∈ mkpathParts [] [] (a ++ ['/']) ↔
      ∃ p' post, p = [] ++ p' ∧ [] ++ (a ++ ['/']) = p' ++ '/' :: post := mem_parts (by simp)
  simpa using hmem

/-- The parts are the texts before the slashes of the name. -/
theorem mem_parts_name {a b : Str} (hb : '/' ∉ b) :
    p ∈ mkpathParts [] [] (a ++ ['/']) ↔ ∃ post, a ++ '/' :: b = p ++ '/' :: post := by
  rw [mem_parts_dir]
  constructor
  · rintro ⟨post, hp⟩
    refine ⟨post ++ b, ?_⟩
    rw [← List.cons_append, ← List.append_assoc, ← hp]
    simp
  · rintro ⟨post, hp⟩
    obtain ⟨post', hp', -⟩ := slash_before_last hb hp
    exact ⟨post', hp'⟩

theorem leadsToDir_before (h : LeadsToDir t s (pre ++ '/' :: post)) : LeadsToDir t s pre := by
  obtain ⟨d, hd, hdir⟩ := h
  rw [components_slash] at hd
  exact DirTree.Tree.walk_through hd hdir

/-! ### The whole call -/

/-- Every directory prefix of the name is there; what was there before is as it was, and what is new are
    directory prefixes of the name. -/
structure MkpathDone (t t' : Disk) (filename : Str) : Prop where
  there : ∀ pre post, filename = pre ++ '/' :: post → t'.fileIsDir (pre ++ ['/']) = true
  grows : Grows t t'
  only : ∀ n, t.next ≤ n → (t'.node n).isSome →
    ∃ pre post, filename = pre ++ '/' :: post ∧ t'.stat pre = some n

theorem fileIsDir_before (hg : Grows t t') (hname : filename = pre ++ '/' :: post)
    (h : LeadsToDir t' (t.start filename) pre) : t'.fileIsDir (pre ++ ['/']) = true := by
  have hname' : filename = (pre ++ ['/']) ++ post := by rw [hname]; simp
  rw [fileIsDir_iff (by simp), start_grows hg, LeadsToDir, components_slash_nil]
  rwa [hname', start_append t (by simp)] at h

/-- Nothing is to do when the directory part of the name is there. -/
theorem mkpathDone_same (hlead : ∀ pre post, filename = pre ++ '/' :: post →
    LeadsToDir t (t.start filename) pre) : MkpathDone t t filename := by
  refine ⟨fun pre post hname => fileIsDir_before (.refl t) hname (hlead pre post hname), .refl t, ?_⟩
  intro n hn hsome
  rw [t.fresh n hn] at hsome
  exact absurd hsome (by simp)

theorem mkpathDone_made {ps : List Str} (hg : Grows t t')
    (hps : ∀ p, p ∈ ps ↔ ∃ post, filename = p ++ '/' :: post)
    (h : DirsMade t t' (t.start filename) ps) : MkpathDone t t' filename := by
  refine ⟨fun pre post hname => ?_, hg, fun n hn hsome => ?_⟩
  · exact fileIsDir_before hg hname (h.leads pre ((hps pre).mpr ⟨post, hname⟩))
  · obtain ⟨p, hp, hne, hf⟩ := h.only n hn hsome
    obtain ⟨post, hname⟩ := (hps p).mp hp
    obtain ⟨d, hd, hdir⟩ := h.leads p hp
    rw [hd, Option.some.injEq] at hf
    subst hf
    refine ⟨p, post, hname, stat_of_follow hne ?_ hdir⟩
    rw [start_grows hg, ← start_append t hne, ← hname]
    exact hd

/-- Without `..` it is enough that nothing is in the way to begin with. -/
theorem clear_of_no_up {ps : List Str} (hup : "..".toList ∉ components filename)
    (hps : ∀ p ∈ ps, ∃ post, filename = p ++ '/' :: post) (h : ∀ p ∈ ps, AbsentOrDir t p) :
    Clear t ps := by
  rintro earlier p later rfl
  have hg := grows_mkdirs t earlier
  have hp : p ∈ earlier ++ p :: later := by simp
  obtain ⟨post, hname⟩ := hps p hp
  have hcs : "..".toList ∉ components p := by
    rw [hname, components_slash, List.mem_append, not_or] at hup
    exact hup.1
  cases hstat : (earlier.foldl Disk.mkdir t).stat p with
  | none => exact .inl hstat
  | some m =>
    obtain ⟨hf, hlast⟩ := follow_of_stat hstat
    have hne : p ≠ [] := by
      rintro rfl
      simp [Disk.stat] at hstat
    have hsome : ∀ t : Disk, (t.node (t.start p)).isSome := by
      intro t
      obtain ⟨up, es, hnode⟩ := DirTree.Tree.isDir_iff.mp (start_isDir t p)
      rw [hnode]
      rfl
    have hdir : (earlier.foldl Disk.mkdir t).isDir m = true := by
      -- found now: it was there to begin with, or one of the earlier calls has made it
      rcases hg.walk_old hcs (hsome t) (start_grows hg p ▸ hf) with hold | hnew
      · refine hg.isDir ((h p hp).isDir hne hold fun hl => ?_)
        exact hg.isDir_old (DirTree.Tree.walk_isSome (hsome t) hold) (hlast hl)
      · have hnode := DirTree.Tree.walk_isSome (hsome _) hf
        obtain ⟨nd, hnd⟩ := Option.isSome_iff_exists.mp hnode
        obtain ⟨up, es, rfl⟩ := hg.made m nd (t.fresh m hnew) hnd
        exact DirTree.Tree.isDir_iff.mpr ⟨up, es, hnd⟩
    refine .inr ?_
    rw [Disk.fileIsDir, hstat]
    exact hdir

theorem mkpathCalls_exists (h : t.fileExists (path t.fileIsDir filename) = true) :
    mkpathCalls t filename = [] := if_pos h

/-- When the directory part exists, all of it is directories. -/
theorem leads_of_exists (hslash : '/' ∈ filename)
    (h : t.fileExists (path t.fileIsDir filename) = true) (hname : filename = pre ++ '/' :: post) :
    LeadsToDir t (t.start filename) pre := by
  obtain ⟨a, b, hab, hb, hpath⟩ := path_slash t.fileIsDir hslash
  have hne : filename ≠ [] := List.ne_nil_of_mem hslash
  rw [hpath] at h
  split at h
  · rename_i hdir
    have hlead := (fileIsDir_iff hne).mp hdir
    rw [hname] at hlead ⊢
    exact leadsToDir_before hlead
  · obtain ⟨n, hn⟩ := Option.isSome_iff_exists.mp h
    obtain ⟨hf, hlast⟩ := follow_of_stat hn
    obtain ⟨post', ha, -⟩ := slash_before_last hb (hab.symm.trans hname)
    have hstart : t.start (a ++ ['/']) = t.start filename := by
      rw [hab, ← start_append t (by simp) b, List.append_assoc]
      rfl
    have hlead : LeadsToDir t (t.start filename) (pre ++ '/' :: post') := by
      rw [← ha, ← hstart]
      exact ⟨n, hf, hlast (by simp)⟩
    exact leadsToDir_before hlead

/-- Otherwise `mkdir` is called for the text before each slash. -/
theorem mkpathCalls_absent (hslash : '/' ∈ filename)
    (h : t.fileExists (path t.fileIsDir filename) = false) : ∃ a b, filename = a ++ '/' :: b ∧
      '/' ∉ b ∧ path t.fileIsDir filename = a ++ ['/'] ∧
      mkpathCalls t filename = mkpathParts [] [] (a ++ ['/']) := by
  obtain ⟨a, b, hab, hb, hpath⟩ := path_slash t.fileIsDir hslash
  cases hdir : t.fileIsDir filename with
  | true =>
    rw [hpath, hdir, if_pos rfl, Disk.fileExists] at h
    rw [Disk.fileIsDir] at hdir
    split at hdir
    · rename_i n hn
      rw [hn] at h
      exact Bool.noConfusion h
    · exact Bool.noConfusion hdir
  | false =>
    rw [hdir, if_neg (by decide)] at hpath
    refine ⟨a, b, hab, hb, hpath, ?_⟩
    rw [hpath] at h
    rw [mkpathCalls, hpath, h]
    rfl

/-- `mkpath` makes the missing directories of the name and nothing else, and calls `mkdir` for what stands
    before a slash of the directory part only, as long as it finds nothing but directories on its way. -/
theorem mkpath_done (t : Disk) (hslash : '/' ∈ filename)
    (h : Clear t (mkpathCalls t filename) ∨ "..".toList ∉ components filename ∧
      ∀ pre post, filename = pre ++ '/' :: post → AbsentOrDir t pre) :
    MkpathDone t (mkpath t filename) filename ∧
      ∀ p ∈ mkpathCalls t filename, ∃ rest, path t.fileIsDir filename = p ++ '/' :: rest := by
  cases hex : t.fileExists (path t.fileIsDir filename) with
  | true =>
    rw [mkpath, mkpathCalls_exists hex]
    exact ⟨mkpathDone_same fun pre post hname => leads_of_exists hslash hex hname, by simp⟩
  | false =>
    obtain ⟨a, b, hab, hb, hpath, hcalls⟩ := mkpathCalls_absent hslash hex
    have hps : ∀ p, p ∈ mkpathParts [] [] (a ++ ['/']) ↔ ∃ post, filename = p ++ '/' :: post := by
      intro p
      rw [hab]
      exact mem_parts_name hb
    have hclear : Clear t (mkpathParts [] [] (a ++ ['/'])) := by
      rcases h with h | ⟨hup, h⟩
      · rwa [hcalls] at h
      · refine clear_of_no_up hup (fun p hp => (hps p).mp hp) fun p hp => ?_
        obtain ⟨post, hp⟩ := (hps p).mp hp
        exact h p post hp
    have hstart : ∀ q, q ≠ [] → q <+: [] ++ [] ++ (a ++ ['/']) → t.start q = t.start filename := by
      rintro q hne ⟨r, hr⟩
      rw [hab, show a ++ '/' :: b = q ++ (r ++ b) by rw [← List.append_assoc, hr]; simp,
        start_append t hne]
    have hmade := parts_made (t := t) (s := t.start filename) (.inl rfl) (by simp)
      (start_isDir t filename) hstart ⟨_, rfl, start_isDir t filename⟩ hclear
    rw [mkpath, hcalls]
    refine ⟨mkpathDone_made (grows_mkdirs _ _) hps hmade, fun p hp => ?_⟩
    rw [hpath]
    exact mem_parts_dir.mp hp

/-- Whatever happens, the regular files are the same as before: a build can be followed without
    `mkpath`. -/
theorem mkpath_files (t : Disk) (filename : Str) (n : ℕ) (data : Str) :
    (mkpath t filename).node n = some (.file data) ↔ t.node n = some (.file data) := by
  have hg : Grows t (mkpath t filename) := grows_mkdirs t _
  constructor
  · intro h
    cases hn : t.node n with
    | none =>
      obtain ⟨up, es, hdir⟩ := hg.made n _ hn h
      exact absurd hdir (by simp)
    | some nd =>
      cases nd with
      | file data' =>
        rw [hg.file n data' hn] at h
        exact h
      | dir up es =>
        obtain ⟨es', hdir⟩ := hg.dir n up es hn
        rw [h] at hdir
        exact absurd hdir (by simp)
  · exact hg.file n data

/-! ### Names and disks -/

/-- All names `mkpath` is called with have a slash. -/
theorem slash_mem_names (target fname : Str) :
    '/' ∈ objdir target ∧ '/' ∈ mkobjname (objdir target) fname ∧
      '/' ∈ mkpchname (objdir target) fname ∧ '/' ∈ outName target ∧ '/' ∈ libName target := by
  have hobj : '/' ∈ baseobjdir := by decide
  refine ⟨by simp [objdir], (mkobjname_under target fname).subset hobj,
    (mkpchname_under target fname).subset hobj, (outName_under target).subset (by decide),
    (libName_under target).subset (by decide)⟩

/-- A root directory, which is the current one, with one file in it. -/
def Disk.oneFile (name : Str) : Disk where
  node n := match n with
    | 0 => some (.dir 0 fun x => if x = name then some 1 else none)
    | 1 => some (.file [])
    | _ => none
  root := 0
  cwd := 0
  next := 2
  fresh n hn := by
    match n, hn with
    | n + 2, _ => rfl
  root_dir := trivial
  cwd_dir := trivial
  up_dir n up es h := by
    rcases n with _ | _ | n
    · cases h
      trivial
    · exact absurd h (by simp)
    · exact absurd h (by simp)
  linked n up es x c h hx := by
    rcases n with _ | _ | n
    · cases h
      obtain ⟨-, hc⟩ := Option.ite_none_right_eq_some.mp hx
      cases hc
      rfl
    · exact absurd h (by simp)
    · exact absurd h (by simp)

/-- What can be said of all parts can be said of all prefixes. -/
theorem absentOrDir_prefixes {a b : Str} (hb : '/' ∉ b)
    (h : ∀ p ∈ mkpathParts [] [] (a ++ ['/']), AbsentOrDir t p) (pre post : Str)
    (hname : a ++ '/' :: b = pre ++ '/' :: post) : AbsentOrDir t pre :=
  h pre ((mem_parts_name hb).mpr ⟨post, hname⟩)

/-- The object of a source, on a disk where `obj` is still free. -/
theorem mkpath_done_object :
    (mkpath (Disk.oneFile "Cake".toList) "obj/debug/a.o".toList).fileIsDir "obj/debug/".toList = true :=
  (mkpath_done (Disk.oneFile "Cake".toList) (by decide) (.inr ⟨by decide,
    absentOrDir_prefixes (a := "obj/debug".toList) (b := "a.o".toList) (by decide) (by decide)⟩)).1.there
      "obj/debug".toList "a.o".toList rfl

/-- `..` out of a directory that is only being made: nothing is under `a/../b` before, but then `a` is
    there and a file turns up. -/
theorem mkpath_up_to_file :
    (∀ pre post, "a/../b/c".toList = pre ++ '/' :: post →
      AbsentOrDir (Disk.oneFile "b".toList) pre) ∧
    (mkpath (Disk.oneFile "b".toList) "a/../b/c".toList).fileIsDir "a/../b/".toList = false :=
  ⟨absentOrDir_prefixes (a := "a/../b".toList) (b := "c".toList) (by decide) (by decide), by decide⟩

end Cake
