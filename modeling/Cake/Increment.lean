import Cake.Parallel

/-! What an edit costs.

    Take a tree in which a run has nothing to do, and let a user write some files later than everything
    that was made. The next run makes the parts whose dependency files list one of them. The first part
    that does raises `newest_time` above every output, and `newest_time` is not reset between projects:
    the outputs of its own project and of all later ones are made too, whatever they are made of.

        g_projects   p₀      p₁ lists the edited file      p₂      p₃
        parts        –       those that list it            –       –
        output       kept    made                          made    made -/

namespace Cake

variable {env : Env} {gs : List Project} {p : Project} {v v₀ w w' : World} {x : Part} {E : List Str}
  {now n : ℕ} {good : Str → Bool} {fs : FS} {mk : ℕ}

/-! ### A look at a part that lists an edited file -/

/-- The scan that stops has met a file that does not pass, and has seen it when it is there and the object
    is not older than the makefile. -/
theorem scanDeps_true {o : Str} (ho : Dated fs mk o) : ∀ {ts : List Str} {n : ℕ},
    (∀ t ∈ ts, (fs t).isSome = true) → (scanDeps fs mk o n ts).1 = true →
    ∃ t ∈ ts, mtimeOf fs o < mtimeOf fs t ∧ mtimeOf fs t ≤ (scanDeps fs mk o n ts).2
  | [], _, _, h => by simp [scanDeps] at h
  | t :: ts, n, hex, h => by
    obtain ⟨ht, hts⟩ := List.forall_mem_cons.mp hex
    rw [scanDeps] at h ⊢
    rcases hf : fileIsNewer fs mk n t o with ⟨_ | _, m⟩
    · rw [hf] at h
      obtain ⟨u, hu, hlt, hle⟩ := scanDeps_true ho hts h
      exact ⟨u, List.mem_cons_of_mem _ hu, hlt, hle⟩
    · refine ⟨t, List.mem_cons_self, ?_⟩
      obtain ⟨f, hfo, hmk⟩ := ho
      obtain ⟨g, hg⟩ := Option.isSome_iff_exists.mp ht
      rw [mtimeOf_some hfo, mtimeOf_some hg]
      rw [fileIsNewer, existsFile, hfo, isChanged, hg, hfo] at hf
      simp only [Option.isSome_some, if_true, if_neg (Nat.not_lt.mpr hmk), Prod.mk.injEq,
        decide_eq_true_eq] at hf
      obtain ⟨hlt, rfl⟩ := hf
      refine ⟨hlt, ?_⟩
      dsimp only
      split <;> omega

/-- The dependency file of the part lists one of the files. -/
def Part.lists (fs : FS) (E : List Str) (x : Part) : Bool := (x.prerequisites fs).any (E.contains ·)

/-- From `v₀` on the files of `E` have been written, not before `now`. -/
structure Edited (E : List Str) (now : ℕ) (v₀ v : World) : Prop where
  others : ∀ t ∉ E, v.fs t = v₀.fs t
  files : ∀ t ∈ E, ∃ f, v.fs t = some f ∧ now ≤ f.mtime
  glob : v.glob = v₀.glob
  target : v.target = v₀.target
  makefileTime : v.makefileTime = v₀.makefileTime
  rebuild : v.rebuild = v₀.rebuild

theorem Part.lists_iff : x.lists fs E = true ↔ ∃ t ∈ x.prerequisites fs, t ∈ E := by
  simp [Part.lists]

/-- A part that lists no edited file is as it was. -/
theorem Edited.look_other (h : Edited E now v₀ v) (hproduct : x.product ∉ E) (hdep : x.dep ∉ E)
    (hx : x.lists v₀.fs E = false) (n : ℕ) : x.look v n = x.look v₀ n := by
  refine look_congr h.rebuild h.makefileTime (fun o ho => h.others o fun hE => ?_) n
  rw [Part.reads] at ho
  split at ho
  · exact absurd ho List.not_mem_nil
  · rcases List.mem_cons.mp ho with rfl | ho
    · exact hproduct hE
    · rcases List.mem_cons.mp ho with rfl | ho
      · exact hdep hE
      · have hlists : x.lists v₀.fs E = true := Part.lists_iff.mpr ⟨o, ho, hE⟩
        rw [hx] at hlists
        cases hlists

/-- A part that was current and lists an edited file has to be made, and the edit has been seen. -/
theorem Edited.look_listing (h : Edited E now v₀ v) (hr : v₀.rebuild = false)
    (hcurrent : x.Current v₀.fs v₀.makefileTime) (hproduct : x.product ∉ E) (hdep : x.dep ∉ E)
    (hold : mtimeOf v₀.fs x.product < now) (hx : x.lists v₀.fs E = true) (n : ℕ) :
    (x.look v n).1 = true ∧ now ≤ (x.look v n).2 := by
  obtain ⟨⟨hpres, tokens, hl, hex, hdated⟩, hnewer⟩ := hcurrent
  have hprereqs : x.prerequisites v₀.fs = tokens := by rw [Part.prerequisites, hl]; rfl
  rw [hprereqs] at hnewer
  obtain ⟨t, ht, hE⟩ := Part.lists_iff.mp hx
  rw [hprereqs] at ht
  have hobj : v.fs x.product = v₀.fs x.product := h.others _ hproduct
  have hl' : listed v.fs x.dep = some tokens := by
    rw [listed, readFile, h.others _ hdep]
    exact hl
  have hdated' : Dated v.fs v.makefileTime x.product := by
    rw [Dated, hobj, h.makefileTime]
    exact hdated (List.ne_nil_of_mem ht)
  have hex' : ∀ t ∈ tokens, (v.fs t).isSome = true := fun t ht => by
    by_cases hE : t ∈ E
    · obtain ⟨f, hf, -⟩ := h.files t hE
      rw [hf]
      rfl
    · rw [h.others t hE]
      exact hex t ht
  have hlate : ∀ t ∈ E, now ≤ mtimeOf v.fs t := fun t hE => by
    obtain ⟨f, hf, hnow⟩ := h.files t hE
    rw [mtimeOf_some hf]
    exact hnow
  have hlook : x.look v n = scanDeps v.fs v.makefileTime x.product n tokens := by
    rw [Part.look, if_neg, needsRebuild, h.rebuild, hr, hl']
    · rfl
    · intro hmissing
      rw [Bool.and_eq_true, existsFile, hobj] at hmissing
      rw [hpres hmissing.1] at hmissing
      exact absurd hmissing.2 (by decide)
  rw [hlook]
  have hstops : (scanDeps v.fs v.makefileTime x.product n tokens).1 = true := by
    rw [← Bool.not_eq_false]
    intro hno
    have hpass := (scanDeps_false.mp (Prod.ext hno rfl)).1 t ht
    have hle := (passes_iff.mp hpass).2.2
    rw [mtimeOf_congr hobj] at hle
    have := hlate t hE
    omega
  refine ⟨hstops, ?_⟩
  obtain ⟨u, hu, hlt, hle⟩ := scanDeps_true hdated' hex' hstops
  -- only an edited file can be newer than the part
  have huE : u ∈ E := by
    by_contra hno
    rw [mtimeOf_congr hobj, mtimeOf_congr (h.others u hno)] at hlt
    have := hnewer u hu
    omega
  exact (hlate u huE).trans hle

/-! ### The looks of a run -/

/-- After `xs` have been looked at: an edited file has been seen, or none of them lists one and
    `newest_time` is what it would have been without the edit. -/
structure Shows (E : List Str) (now : ℕ) (v₀ : World) (xs : List Part) (n : ℕ) : Prop where
  none : xs.any (Part.lists v₀.fs E) = false → n = newestAfter v₀.fs 0 xs
  some : xs.any (Part.lists v₀.fs E) = true → now ≤ n

/-- A part in a tree at rest that the edits leave alone. -/
structure Part.Rests (E : List Str) (now : ℕ) (v₀ : World) (x : Part) : Prop where
  current : x.Current v₀.fs v₀.makefileTime
  old : mtimeOf v₀.fs x.product < now
  product : x.product ∉ E
  dep : x.dep ∉ E

variable {xs ys : List Part}

/-- A part has to be made exactly when it lists an edited file. -/
theorem Edited.stale_iff (h : Edited E now v₀ v) (hr : v₀.rebuild = false) (hx : x.Rests E now v₀) :
    x.stale v = x.lists v₀.fs E := by
  rw [Part.stale]
  cases hlists : x.lists v₀.fs E with
  | false => rw [h.look_other hx.product hx.dep hlists, look_current hr hx.current]
  | true => exact (h.look_listing hr hx.current hx.product hx.dep hx.old hlists 0).1

theorem Shows.look (h : Edited E now v₀ v) (hr : v₀.rebuild = false) (hx : x.Rests E now v₀)
    (hn : Shows E now v₀ xs n) : Shows E now v₀ (xs ++ [x]) (x.look v n).2 := by
  have hany : (xs ++ [x]).any (Part.lists v₀.fs E) = (xs.any (Part.lists v₀.fs E) || x.lists v₀.fs E) := by
    simp
  constructor
  · intro hno
    obtain ⟨hxs, hxno⟩ := Bool.or_eq_false_iff.mp (hany.symm.trans hno)
    rw [h.look_other hx.product hx.dep hxno, look_current hr hx.current, hn.none hxs, newestAfter_append]
  · intro hyes
    rcases Bool.or_eq_true_iff.mp (hany.symm.trans hyes) with hxs | hxyes
    · exact (hn.some hxs).trans (look_newest v n x)
    · exact (h.look_listing hr hx.current hx.product hx.dep hx.old hxyes n).2

theorem Shows.looks (h : Edited E now v₀ v) (hr : v₀.rebuild = false) : ∀ (ys : List Part) {xs : List Part}
    {n : ℕ}, (∀ y ∈ ys, y.Rests E now v₀) → Shows E now v₀ xs n →
    Shows E now v₀ (xs ++ ys) (seenAfter v n ys)
  | [], xs, n, _, hn => by rwa [List.append_nil]
  | y :: ys, xs, n, hys, hn => by
    obtain ⟨hy, hys⟩ := List.forall_mem_cons.mp hys
    have hrest := Shows.looks h hr ys hys (hn.look h hr hy)
    rw [List.append_assoc] at hrest
    exact hrest

/-! ### A project -/

/-- The commands of the parts of the project that list an edited file. -/
def Project.remade (env : Env) (v : World) (E : List Str) (p : Project) : List Cmd :=
  ((p.plan v v.target (p.cflags env)).filter fun t => t.1.lists v.fs E).map Prod.snd

/-- A part of one of the projects lists an edited file. -/
def touched (v : World) (E : List Str) (ps : List Project) : Bool :=
  ps.any fun p => (p.parts v v.target).any (Part.lists v.fs E)

/-- What a run starts after the edits: for each project the parts that list an edited file, and the output
    when a part of this or an earlier project does. -/
def editCost (env : Env) (good : Str → Bool) (v : World) (E : List Str) (gs : List Project) : List Cmd :=
  gs.zipIdx.flatMap fun pi => pi.1.remade env v E ++
    if touched v E (gs.take (pi.2 + 1)) && (pi.1.remade env v E).all (fun cmd => good cmd.out) then
      [pi.1.outputCmd env gs v]
    else []

/-- A tree in which a run has nothing to do, all of it made before `now`, the edits being elsewhere. -/
structure AtRest (env : Env) (E : List Str) (now : ℕ) (gs : List Project) (v₀ : World) : Prop where
  rebuild : v₀.rebuild = false
  builds : ∀ p ∈ gs, p.Builds env
  whole : Whole gs v₀.target v₀.makefileTime v₀
  covered : Covered gs v₀.target v₀
  parts : ∀ p ∈ gs, ∀ x ∈ p.parts v₀ v₀.target, mtimeOf v₀.fs x.product < now ∧ x.product ∉ E ∧ x.dep ∉ E
  outputs : ∀ p ∈ gs, mtimeOf v₀.fs p.outPath < now ∧ p.outPath ∉ E

theorem AtRest.part (h : AtRest env E now gs v₀) (hp : p ∈ gs) (hx : x ∈ p.parts v₀ v₀.target) :
    x.Rests E now v₀ := by
  obtain ⟨hold, hproduct, hdep⟩ := h.parts p hp x hx
  exact ⟨⟨h.whole.parts p hp x hx, h.covered.parts p hp x hx⟩, hold, hproduct, hdep⟩

theorem Edited.parts (h : Edited E now v₀ v) (p : Project) : p.parts v v.target = p.parts v₀ v₀.target := by
  rw [h.target, Project.parts_glob h.glob]

theorem Edited.plan (h : Edited E now v₀ v) (cflags : Str) (p : Project) :
    p.plan v v.target cflags = p.plan v₀ v₀.target cflags := by
  rw [Project.plan, Project.plan, h.target, Project.fnames_glob h.glob]

theorem Edited.remade (h : Edited E now v₀ v) (hrest : AtRest env E now gs v₀) (hp : p ∈ gs) :
    staleCmds v (p.plan v v.target (p.cflags env)) = p.remade env v₀ E := by
  rw [staleCmds, Project.remade, h.plan, List.filter_congr]
  intro t ht
  have hx : t.1 ∈ p.parts v₀ v₀.target := by
    rw [← plan_parts v₀ v₀.target (p.cflags env) p]
    exact List.mem_map_of_mem ht
  exact h.stale_iff hrest.rebuild (hrest.part hp hx)

theorem remade_any (v : World) (p : Project) : (p.remade env v E ≠ []) ↔
    (p.parts v v.target).any (Part.lists v.fs E) = true := by
  rw [Project.remade, ← plan_parts v v.target (p.cflags env) p, Ne, List.map_eq_nil_iff,
    List.filter_eq_nil_iff, List.any_map, List.any_eq_true]
  simp

theorem touched_take (v : World) (E : List Str) (k : ℕ) :
    touched v E (gs.take k) = (partsBefore gs v k).any (Part.lists v.fs E) := by
  rw [partsBefore, List.any_flatMap, touched]

/-- Once an edit has been seen every output is old, and before that none is. -/
theorem Edited.output_older (h : Edited E now v₀ v) (hrest : AtRest env E now gs v₀) {i : ℕ}
    (hp : gs[i]? = some p) (hn : Shows E now v₀ (partsBefore gs v₀ (i + 1)) n) :
    isOlder v.fs v.makefileTime n p.outPath = touched v₀ E (gs.take (i + 1)) := by
  have hmem := List.mem_of_getElem? hp
  obtain ⟨hold, hout⟩ := hrest.outputs p hmem
  have hfile : v.fs p.outPath = v₀.fs p.outPath := h.others _ hout
  rw [touched_take]
  cases hany : (partsBefore gs v₀ (i + 1)).any (Part.lists v₀.fs E) with
  | false =>
    rw [isOlder_dated, h.makefileTime, Dated, hfile, mtimeOf_congr hfile, hn.none hany, newestAfter_le]
    refine ⟨hrest.whole.outputs p hmem, Nat.zero_le _, fun x hx => ?_⟩
    obtain ⟨j, hj, q, hq, hx⟩ := mem_partsBefore.mp hx
    exact hrest.covered.outputs j i q p (Nat.le_of_lt_succ hj) hq hp x hx
  | true =>
    have hlate := hn.some hany
    rw [← Bool.not_eq_false]
    intro hno
    have hle := (isOlder_dated.mp hno).2
    rw [mtimeOf_congr hfile] at hle
    omega

/-- What the build of a project starts. -/
theorem Edited.foreseen (good : Str → Bool) (h : Edited E now v₀ v) (hrest : AtRest env E now gs v₀) {i : ℕ}
    (hp : gs[i]? = some p) (hn : Shows E now v₀ (partsBefore gs v₀ i) n) :
    (p.foreseen env good v gs n).1 = p.remade env v₀ E ++
        (if touched v₀ E (gs.take (i + 1)) && (p.remade env v₀ E).all (fun cmd => good cmd.out) then
          [p.outputCmd env gs v₀] else []) ∧
      Shows E now v₀ (partsBefore gs v₀ (i + 1)) (p.foreseen env good v gs n).2.2 := by
  have hmem := List.mem_of_getElem? hp
  obtain ⟨⟨c, l, hpkg⟩, -⟩ := hrest.builds p hmem
  have hseen : Shows E now v₀ (partsBefore gs v₀ (i + 1)) (seenAfter v n (p.parts v v.target)) := by
    rw [partsBefore_succ hp, h.parts]
    exact hn.looks h hrest.rebuild _ fun x hx => hrest.part hmem hx
  have hmake : ((p.remade env v₀ E).any (fun cmd => cmd.kind = .compile) ||
      isOlder v.fs v.makefileTime (seenAfter v n (p.parts v v.target)) p.outPath) =
      touched v₀ E (gs.take (i + 1)) := by
    rw [h.output_older hrest hp hseen]
    cases htouched : touched v₀ E (gs.take (i + 1)) with
    | true => exact Bool.or_true _
    | false =>
      rw [touched_take, partsBefore_succ hp, List.any_append, Bool.or_eq_false_iff] at htouched
      have hnone : p.remade env v₀ E = [] := by
        by_contra hne
        rw [(remade_any v₀ p).mp hne] at htouched
        exact absurd htouched.2 (by decide)
      rw [hnone]
      rfl
  rw [Project.foreseen, if_neg (by rw [hpkg]; exact Option.some_ne_none _), h.remade hrest hmem,
    outputCmd_congr rfl h.glob h.target]
  dsimp only
  rw [hmake]
  cases (p.remade env v₀ E).all fun cmd => good cmd.out with
  | false => exact ⟨by simp, hseen⟩
  | true =>
    cases touched v₀ E (gs.take (i + 1)) with
    | false => exact ⟨by simp, hseen⟩
    | true => exact ⟨by simp, hseen⟩

/-! ### A run -/

/-- The commands of the course are those that list an edited file, and the outputs from the first of them
    on. -/
theorem course_after_edits (h : Edited E now v₀ v) (hrest : AtRest env E now gs v₀) :
    (Course.ofRun env good v (fun _ => true) gs).cmds = editCost env good v₀ E gs := by
  have key : ∀ (l done : List Project) (k : Course), gs = done ++ l →
      Shows E now v₀ (partsBefore gs v₀ done.length) k.newest →
      ((l.zipIdx done.length).foldl (Course.round env good v (fun _ => true) gs) k).cmds = k.cmds ++
        (l.zipIdx done.length).flatMap fun pi => pi.1.remade env v₀ E ++
          if touched v₀ E (gs.take (pi.2 + 1)) && (pi.1.remade env v₀ E).all (fun cmd => good cmd.out) then
            [pi.1.outputCmd env gs v₀]
          else [] := by
    intro l
    induction l with
    | nil => exact fun _ k _ _ => (List.append_nil k.cmds).symm
    | cons p l ih =>
      intro done k hgs hk
      have hp : gs[done.length]? = some p := by rw [hgs]; simp
      obtain ⟨hcmds, hseen⟩ := h.foreseen good hrest hp hk
      have hrec := ih (done ++ [p]) (k.round env good v (fun _ => true) gs (p, done.length))
        (by rw [hgs]; simp) (by rw [List.length_append]; exact hseen)
      rw [List.length_append] at hrec
      rw [List.zipIdx_cons, List.foldl_cons, List.flatMap_cons, ← List.append_assoc, ← hcmds]
      exact hrec
  exact key gs [] ⟨[], [], 0⟩ rfl ⟨fun _ => rfl, fun hany => absurd hany (by simp [partsBefore])⟩

/-- Files that an act writes anew. -/
def Act.edited : Act → List Str
  | .edit p _ => [p]
  | _ => []

/-- Time passes, or a user writes a file that is no product and not the makefile. -/
def Act.EditsBeside (mk : Str) : Act → Prop
  | .tick _ => True
  | .edit p _ => isProduct p = false ∧ p ≠ mk
  | _ => False

/-- What the acts leave behind. -/
theorem acts_edited {mk : Str} : ∀ (as : List Act) {w : World}, (∀ a ∈ as, a.EditsBeside mk) →
    now ≤ sec w.clock → (as.foldl World.act w).glob = w.glob ∧
      (∀ t ∉ as.flatMap Act.edited, (as.foldl World.act w).fs t = w.fs t) ∧
      ∀ t ∈ as.flatMap Act.edited, ∃ f, (as.foldl World.act w).fs t = some f ∧ now ≤ f.mtime
  | [], w, _, _ => ⟨rfl, fun _ _ => rfl, fun t ht => absurd ht List.not_mem_nil⟩
  | a :: as, w, has, hnow => by
    obtain ⟨ha, has⟩ := List.forall_mem_cons.mp has
    have hclock : now ≤ sec (w.act a).clock := hnow.trans (sec_mono (World.later_act w a).clock)
    have hglob : (w.act a).glob = w.glob := by
      cases a with
      | tick d => rfl
      | edit p data => rfl
      | exit pid => exact ha.elim
      | restore p f => exact ha.elim
      | relist g => exact ha.elim
    obtain ⟨hrest, hothers, hfiles⟩ := acts_edited as has hclock
    refine ⟨hrest.trans hglob, fun t ht => ?_, fun t ht => ?_⟩
    · rw [List.flatMap_cons, List.mem_append, not_or] at ht
      refine (hothers t ht.2).trans ?_
      cases a with
      | tick d => rfl
      | edit p data => exact if_neg (List.ne_of_not_mem_cons ht.1)
      | exit pid => exact ha.elim
      | restore p f => exact ha.elim
      | relist g => exact ha.elim
    · by_cases hlast : t ∈ as.flatMap Act.edited
      · exact hfiles t hlast
      · rw [List.foldl_cons, hothers t hlast]
        rw [List.flatMap_cons, List.mem_append] at ht
        cases a with
        | edit p data =>
          obtain rfl : t = p := List.mem_singleton.mp (ht.resolve_right hlast)
          exact ⟨_, if_pos rfl, hnow⟩
        | tick d => exact absurd (ht.resolve_right hlast) List.not_mem_nil
        | exit pid => exact ha.elim
        | restore p f => exact ha.elim
        | relist g => exact ha.elim

theorem edited_other {mk : Str} {as : List Act} (has : ∀ a ∈ as, a.EditsBeside mk) {t : Str}
    (ht : t ∈ as.flatMap Act.edited) : isProduct t = false ∧ t ≠ mk := by
  obtain ⟨a, ha, ht⟩ := List.mem_flatMap.mp ht
  cases a with
  | edit p data =>
    obtain rfl : t = p := List.mem_singleton.mp ht
    exact has _ ha
  | tick d => exact absurd ht List.not_mem_nil
  | exit pid => exact absurd ht List.not_mem_nil
  | restore p f => exact absurd ht List.not_mem_nil
  | relist g => exact absurd ht List.not_mem_nil

/-- A tree in which a run would start nothing. Let users write some files, none of them a product or the
    makefile, later than everything the run would look after. Then a run makes the parts that list one of
    these files, and from the first project with such a part on every output whose own parts were made
    without a failure. -/
theorem run_after_edits (hcalm : env.Calm) (hgood : env.Grades good) (r : Run) (hrebuild : r.rebuild = false)
    (hpre : ∀ i, r.pre i = true) (hbuilds : ∀ p ∈ r.projects, p.Builds env) (hprocs : w.procs = [])
    (hidle : launched (({ r with before := [] } : Run).exec env w).log = [])
    (hbefore : ∀ a ∈ r.before, a.EditsBeside r.makefile)
    (hparts : ∀ p ∈ r.projects, ∀ x ∈ p.parts w r.target, mtimeOf w.fs x.product < sec w.clock)
    (houtputs : ∀ p ∈ r.projects, mtimeOf w.fs p.outPath < sec w.clock)
    (htangle : Untangled (startRun r.target r.rebuild r.makefile (r.before.foldl World.act w)) r.projects) :
    (launched (r.exec env w).log).map (fun e => e.1.shape) =
      ((editCost env good (startRun r.target r.rebuild r.makefile w) (r.before.flatMap Act.edited)
        r.projects).map Cmd.shape).reverse := by
  have hpre' : r.pre = fun _ => true := funext hpre
  set v₀ := startRun r.target r.rebuild r.makefile w with hv₀
  set v := startRun r.target r.rebuild r.makefile (r.before.foldl World.act w) with hv
  have hpassed : passed r.pre r.projects.zipIdx = r.projects := by
    rw [passed, List.filter_eq_self.mpr fun ip _ => hpre ip.2, List.zipIdx_map_fst]
  -- the run without the edits
  have hrests : Whole r.projects v₀.target v₀.makefileTime v₀ ∧ Covered r.projects v₀.target v₀ := by
    rw [Run.exec, hpre'] at hidle
    exact restBefore_iff.mp
      ((rests_mainLoop (v := v₀) hcalm hrebuild hbuilds (Still.refl hprocs) rfl).mp hidle)
  have hnot : ∀ o, isProduct o = true → o ∉ r.before.flatMap Act.edited := fun o ho hE => by
    rw [(edited_other hbefore hE).1] at ho
    cases ho
  obtain ⟨hglob, hothers, hfiles⟩ := acts_edited r.before hbefore (le_refl (sec w.clock))
  have hmk : v.makefileTime = v₀.makefileTime :=
    mtimeOf_congr (hothers _ fun hE => (edited_other hbefore hE).2 rfl)
  have hrest : AtRest env (r.before.flatMap Act.edited) (sec w.clock) r.projects v₀ := by
    refine ⟨hrebuild, hbuilds, hrests.1, hrests.2, fun p hp x hx => ?_, fun p hp => ?_⟩
    · refine ⟨hparts p hp x hx, hnot _ (product_obj (part_under hx)), hnot _ (product_obj ?_)⟩
      rcases part_cases hx with ⟨hd, -, rfl⟩ | ⟨f, -, rfl⟩
      · exact mkdepname_under _ hd
      · exact mkdepname_under _ f
    · exact ⟨houtputs p hp, hnot _ (product_outPath p)⟩
  have hedited : Edited (r.before.flatMap Act.edited) (sec w.clock) v₀ v :=
    ⟨hothers, hfiles, hglob, rfl, hmk, rfl⟩
  rw [← hpassed] at htangle
  obtain ⟨Z, hrun⟩ := htangle.follows hcalm hgood (begun_alone r hprocs) rfl ⟨rfl, rfl⟩
  rw [Run.exec, hrun.launched, hpre', course_after_edits hedited hrest]

theorem reading_grades : Env.reading.Grades fun _ => true := by
  intro k cmd fs
  rw [Env.reading]
  dsimp only
  split <;> exact ⟨_, rfl, by decide +kernel⟩

/-- The library and the program are built, and a second has passed. -/
def builtLongAgo : World := [.tick 1000000000].foldl World.act (utilThenProg.exec Env.reading sourcesOnly)

/-- The source of the library is edited: the program is linked anew, though it has nothing to do with it. -/
theorem run_after_edits_util :
    (launched (({ utilThenProg with before := [.edit "u.c".toList []] } : Run).exec Env.reading
      builtLongAgo).log).map (fun e => e.1.out) =
      ["bin/prog".toList, "lib/libutil.a".toList, "obj//u.o".toList] := by
  have hcost := run_after_edits (w := builtLongAgo) reading_calm reading_grades
    { utilThenProg with before := [.edit "u.c".toList []] } rfl (fun _ => rfl) ?_ (by decide +kernel)
    (by decide +kernel) ?_ (by decide +kernel) (by decide +kernel)
    ⟨by decide +kernel, by decide +kernel, by decide +kernel, by decide +kernel⟩
  · have houts := congrArg (List.map CmdShape.out) hcost
    rw [List.map_map, List.map_reverse, List.map_map] at houts
    exact houts.trans (by decide +kernel)
  · intro p hp
    have hflags : pkgConfig Env.reading p.pkgdepends = some ([], []) ∧ p.HasOutput := by
      revert p hp
      decide +kernel
    exact ⟨⟨_, _, hflags.1⟩, hflags.2⟩
  · intro a ha
    obtain rfl : a = .edit "u.c".toList [] := List.mem_singleton.mp ha
    exact ⟨by decide, by decide⟩

end Cake
