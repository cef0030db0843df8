import Cake.Plan

/-! What a run will find, told from the tree it begins with.

    A run writes the files of the parts and outputs it makes, and no others. As long as none of the files
    that `needs_rebuild` reads for a part may have been written by then, its answer and the dates it reads
    are those of the tree the run has begun with. So some of the dates that `newest_time` will cover, and
    some of the sources that will be compiled, are known in advance, and when every look is clear all of
    them are.

        part ── clear ──▶ its dates are read, its command is started or not
             └─ else ───▶ its files may be written, its dates may be read or not -/

namespace Cake

variable {env : Env} {R : Rules} {v w w' : World} {s : St} {gs : List Project} {p : Project} {x : Part}
  {Z Z' : Str → Prop} {fs : FS} {mk : ℕ}

/-! ### The dates a look reads -/

/-- The tokens whose dates the token loop reads when the part is of `made`: up to the first that is newer,
    and none from a missing one on. -/
def readTokens (fs : FS) (made : ℕ) : List Str → List Str
  | [] => []
  | t :: ts =>
    match fs t with
    | none => []
    | some f => if made < f.mtime then [t] else t :: readTokens fs made ts

/-- The files whose dates are read when the part is looked at. -/
def Part.shown (w : World) (x : Part) : List Str :=
  if w.rebuild then [] else
    match w.fs x.product with
    | none => []
    | some f => if f.mtime < w.makefileTime then [] else readTokens w.fs f.mtime (x.prerequisites w.fs)

/-- `n`, or the date of the newest of the files. -/
def newestOf (fs : FS) (n : ℕ) (ts : List Str) : ℕ := ts.foldl (fun n t => max n (mtimeOf fs t)) n

theorem newestOf_append (fs : FS) (n : ℕ) (ts us : List Str) :
    newestOf fs n (ts ++ us) = newestOf fs (newestOf fs n ts) us := List.foldl_append ..

theorem newestOf_le {n m : ℕ} {ts : List Str} :
    newestOf fs n ts ≤ m ↔ n ≤ m ∧ ∀ t ∈ ts, mtimeOf fs t ≤ m := foldl_max_le ..

theorem le_newestOf (fs : FS) (n : ℕ) (ts : List Str) : n ≤ newestOf fs n ts := (le_foldl_max _ ts n).1

theorem newestOf_mono {n m : ℕ} (h : n ≤ m) (ts : List Str) : newestOf fs n ts ≤ newestOf fs m ts :=
  newestOf_le.mpr ⟨h.trans (le_newestOf ..), (le_foldl_max _ ts m).2⟩

/-- A part that is missing or older than the makefile: no date is read. -/
theorem scanDeps_blind {o : Str} (h : ∀ f, fs o = some f → f.mtime < mk) (n : ℕ) :
    ∀ ts, (scanDeps fs mk o n ts).2 = n
  | [] => rfl
  | t :: ts => by
    have hfirst : fileIsNewer fs mk n t o = (true, n) := by
      rw [fileIsNewer, existsFile, isChanged]
      cases hf : fs o with
      | none => rfl
      | some f =>
        rw [Option.isSome_some, if_pos rfl]
        cases fs t with
        | none => rfl
        | some g => exact if_pos (h f hf)
    rw [scanDeps, hfirst]

theorem scanDeps_reads {o : Str} {f : File} (hf : fs o = some f) (hmk : mk ≤ f.mtime) :
    ∀ (ts : List Str) (n : ℕ), (scanDeps fs mk o n ts).2 = newestOf fs n (readTokens fs f.mtime ts)
  | [], _ => rfl
  | t :: ts, n => by
    rw [scanDeps, fileIsNewer, existsFile, isChanged, readTokens, hf, Option.isSome_some, if_pos rfl]
    cases ht : fs t with
    | none => rfl
    | some g =>
      have hmax : (if g.mtime > n then g.mtime else n) = max n (mtimeOf fs t) := by
        rw [mtimeOf_some ht]
        split <;> omega
      dsimp only
      rw [if_neg (not_lt.mpr hmk), hmax]
      by_cases hnew : f.mtime < g.mtime
      · rw [decide_eq_true hnew, if_pos hnew]
        rfl
      · rw [decide_eq_false hnew, if_neg hnew]
        exact scanDeps_reads hf hmk ts _

/-- A look raises `newest_time` to the newest of the dates it reads. -/
theorem look_shown (w : World) (n : ℕ) (x : Part) : (x.look w n).2 = newestOf w.fs n (x.shown w) := by
  by_cases hforced : w.rebuild = true
  · rw [look_rebuild hforced, Part.shown, if_pos hforced]
    rfl
  rw [Part.shown, if_neg hforced, Part.look, needsRebuild, if_neg hforced, Part.prerequisites]
  cases hf : w.fs x.product with
  | none =>
    split
    · rfl
    · cases listed w.fs x.dep with
      | none => rfl
      | some ts => exact scanDeps_blind (fun f h => by rw [hf] at h; cases h) n ts
  | some f =>
    rw [if_neg (by rw [existsFile, hf]; simp)]
    dsimp only
    cases listed w.fs x.dep with
    | none =>
      rw [Option.getD_none, readTokens, ite_self]
      rfl
    | some ts =>
      dsimp only [Option.getD_some]
      by_cases hold : f.mtime < w.makefileTime
      · rw [if_pos hold, scanDeps_blind fun g h => by rw [hf] at h; exact Option.some.inj h ▸ hold]
        rfl
      · rw [if_neg hold]
        exact scanDeps_reads hf (not_lt.mp hold) ts n

/-! ### The outlook -/

/-- What is known of a run from the tree it has begun with: the files its commands may have written by
    then, files whose dates it has surely read, whether these are all, and whether the project at hand
    surely has a source compiled. -/
structure Outlook where
  touched : List Str
  shown : List Str
  sure : Bool
  compiled : Bool

/-- The file may have been written. -/
def Outlook.touches (o : Outlook) (t : Str) : Bool := o.touched.contains t

theorem touches_iff {o : Outlook} {t : Str} : o.touches t = false ↔ t ∉ o.touched := by
  rw [Outlook.touches, List.contains_eq_mem, decide_eq_false_iff_not]

/-- None of the files that are read for the part may have been written. -/
def Part.Clear (v : World) (o : Outlook) (x : Part) : Prop := ∀ t ∈ x.reads v, o.touches t = false

instance (v : World) (o : Outlook) (x : Part) : Decidable (x.Clear v o) := by
  unfold Part.Clear
  infer_instance

/-- After the part has been looked at. -/
def Outlook.look (v : World) (o : Outlook) (x : Part) : Outlook :=
  if x.Clear v o then
    { o with
      touched := if x.stale v then x.writes ++ o.touched else o.touched
      shown := o.shown ++ x.shown v
      compiled := o.compiled || (x.stale v && !x.header) }
  else { o with touched := x.writes ++ o.touched, sure := false }

/-- The newest of the dates. -/
def Outlook.newest (v : World) (o : Outlook) : ℕ := newestOf v.fs 0 o.shown

/-- When the header of the project has been looked at. -/
def Project.headed (v : World) (o : Outlook) (p : Project) : Outlook :=
  (p.headerParts v.target).foldl (Outlook.look v) { o with compiled := false }

/-- When the output of the project is decided upon. -/
def Project.outlook (v : World) (o : Outlook) (p : Project) : Outlook :=
  (p.parts v v.target).foldl (Outlook.look v) { o with compiled := false }

/-- Nothing of the project is compiled and its output is not older than any date that is read: it will be
    kept. -/
def Project.Stays (v : World) (o : Outlook) (p : Project) : Prop :=
  (p.outlook v o).sure = true ∧ (p.outlook v o).compiled = false ∧ o.touches p.outPath = false ∧
    isOlder v.fs v.makefileTime ((p.outlook v o).newest v) p.outPath = false

instance (v : World) (o : Outlook) (p : Project) : Decidable (p.Stays v o) := by
  unfold Project.Stays
  infer_instance

/-- After the project has been compiled. -/
def Outlook.build (env : Env) (v : World) (o : Outlook) (p : Project) : Outlook :=
  match pkgConfig env p.pkgdepends with
  | none => o
  | some _ =>
    if p.Stays v o then p.outlook v o
    else { p.outlook v o with touched := p.outPath :: (p.outlook v o).touched }

/-- When the run begins; children that an earlier one has left behind may still write. -/
def Outlook.begin (v : World) : Outlook :=
  ⟨v.procs.flatMap fun pr => [pr.cmd.out, gccDepName pr.cmd.out], [], true, false⟩

/-- One round of the loop in `main`. -/
def Outlook.step (env : Env) (pre : ℕ → Bool) (v : World) (o : Outlook) (ip : Project × ℕ) : Outlook :=
  if pre ip.2 then o.build env v ip.1 else o

/-- Before project `k` of a run that has begun in `v`. -/
def outlookAt (env : Env) (pre : ℕ → Bool) (gs : List Project) (v : World) (k : ℕ) : Outlook :=
  (gs.zipIdx.take k).foldl (Outlook.step env pre v) (.begin v)

theorem outlookAt_succ {pre : ℕ → Bool} {k : ℕ} (hp : gs[k]? = some p) :
    outlookAt env pre gs v (k + 1) = (outlookAt env pre gs v k).step env pre v (p, k) := by
  have hget : gs.zipIdx[k]? = some (p, k) := by
    rw [List.getElem?_zipIdx, hp, Option.map_some, Nat.zero_add]
  rw [outlookAt, List.take_add_one, hget, List.foldl_append]
  rfl

/-! ### Commands that keep to some files -/

/-- The children whose files have landed in this run. -/
def landed : List Ev → List Proc
  | [] => []
  | .run _ :: _ => []
  | .wrote pr _ :: log => pr :: landed log
  | _ :: log => landed log

/-- A world that came from `v` by the work of commands that write files of `Z` alone, in this run. -/
structure Confined (v : World) (Z : Str → Prop) (w : World) : Prop where
  near : Near v Z w
  launched : ∀ e ∈ launched w.log, ∀ t, e.1.writes t = true → Z t
  landed : ∀ pr ∈ landed w.log, ∀ t, pr.writes t = true → Z t

theorem Confined.mono (h : Confined v Z w) (hZ : ∀ t, Z t → Z' t) : Confined v Z' w :=
  ⟨h.near.mono hZ, fun e he t ht => hZ t (h.launched e he t ht), fun pr hpr t ht => hZ t (h.landed pr hpr t ht)⟩

theorem Confined.say (h : Confined v Z w) {e : Ev} (hl : Cake.launched (e :: w.log) = Cake.launched w.log)
    (he : Cake.landed (e :: w.log) = Cake.landed w.log) : Confined v Z (w.say e) :=
  ⟨h.near.say e, fun c hc => h.launched c (hl ▸ hc), fun pr hpr => h.landed pr (he ▸ hpr)⟩

theorem Confined.move (hcalm : env.Calm) (hm : Move env (writing Z) w w') (h : Confined v Z w) :
    Confined v Z w' := by
  refine ⟨h.near.move hcalm hm, fun e he => ?_, fun pr hpr => ?_⟩
  · rcases hm.launches with heq | ⟨cmd, hcmd, heq⟩
    · exact h.launched e (heq ▸ he)
    · rcases List.mem_cons.mp (heq ▸ he) with rfl | he
      · exact hcmd
      · exact h.launched e he
  rcases hm.log_cases with heq | ⟨e, heq, he⟩
  · rw [heq] at hpr
    exact h.landed pr hpr
  · rw [heq] at hpr
    cases e with
    | wrote q u =>
      rcases List.mem_cons.mp hpr with rfl | hpr
      · exact h.near.procs pr he.1
      · exact h.landed pr hpr
    | run u => exact he.elim
    | _ => exact h.landed pr hpr

theorem Confined.path (hcalm : env.Calm) (hp : Path env (writing Z) w w') (h : Confined v Z w) :
    Confined v Z w' :=
  Moves.keeps (I := Confined v Z) (fun _ _ hm => Confined.move hcalm hm) hp h

/-! ### The run keeps to its outlook -/

/-- The run that has begun in `v` has come to `w`, where `o` is its outlook. -/
structure Foreseen (v : World) (o : Outlook) (w : World) : Prop where
  confined : Confined v (· ∈ o.touched) w
  seen : o.newest v ≤ w.newestTime
  exact : o.sure = true → w.newestTime = o.newest v

/-- The same within a build: the outlook says whether it has started a compile. -/
structure Forecast (v : World) (o : Outlook) (w : World) : Prop extends Foreseen v o w where
  compiles : o.compiled = true → started w.log ≠ []
  rests : o.sure = true → o.compiled = false → started w.log = []

theorem forkLog_started {cmd : Cmd} (h : ForkLog env cmd w w') : ∃ ts, started w'.log = ts ++ started w.log ∧
    (cmd.kind = .compile ↔ ts ≠ []) := by
  obtain ⟨fs, he⟩ := h.execs
  by_cases hk : cmd.kind = .compile
  · exact ⟨[(cmd.out, env.fork w.nfork cmd fs)], by simp [started, he, hk], by simp [hk]⟩
  · exact ⟨[], by simp [started, he, hk], by simp [hk]⟩

variable {o : Outlook}

/-- On the way from `w` to `w'` the part is looked at in `u`, and its command is started when it has to be
    made. -/
structure LookedAt (env : Env) (x : Part) (cmd : Cmd) (u w w' : World) : Prop where
  out : cmd.out = x.product
  kind : cmd.kind = .compile ↔ x.header = false
  newest : w'.newestTime = (x.look u w.newestTime).2
  path : ∀ Z, ((x.look u w.newestTime).1 = true → (writing Z).exec cmd) → Path env (writing Z) w w'
  log : (x.look u w.newestTime).1 = true ∧ ForkLog env cmd w w' ∨
    (x.look u w.newestTime).1 = false ∧ execs w'.log = execs w.log

namespace LookedAt

variable {cmd : Cmd} {u : World}

theorem exec (h : LookedAt env x cmd u w w') (hZ : ∀ t ∈ x.writes, Z t) : (writing Z).exec cmd :=
  fun t ht => hZ t (writes_part h.out ht)

theorem grows (h : LookedAt env x cmd u w w') (hnone : Cake.started w'.log = []) : Cake.started w.log = [] := by
  rcases h.log with ⟨-, hlog⟩ | ⟨-, he⟩
  · obtain ⟨ts, heq, -⟩ := forkLog_started hlog
    exact (List.append_eq_nil_iff.mp (heq ▸ hnone)).2
  · rwa [Cake.started, he] at hnone

/-- A compile is started exactly when a source has to be made. -/
theorem started (h : LookedAt env x cmd u w w') :
    ((x.look u w.newestTime).1 && !x.header) = true ∧ Cake.started w'.log ≠ [] ∨
      ((x.look u w.newestTime).1 && !x.header) = false ∧ Cake.started w'.log = Cake.started w.log := by
  rcases h.log with ⟨hlook, hlog⟩ | ⟨hlook, he⟩
  · obtain ⟨ts, heq, hts⟩ := forkLog_started hlog
    rw [hlook, Bool.true_and, heq]
    cases hheader : x.header with
    | false => exact Or.inl ⟨rfl, fun hnone => hts.mp (h.kind.mpr hheader) (List.append_eq_nil_iff.mp hnone).1⟩
    | true =>
      refine Or.inr ⟨rfl, ?_⟩
      have hnil : ts = [] := by
        by_contra hne
        rw [h.kind.mp (hts.mpr hne)] at hheader
        cases hheader
      rw [hnil, List.nil_append]
  · exact Or.inr ⟨by rw [hlook]; rfl, by rw [Cake.started, he]; rfl⟩

end LookedAt

/-- A clear look finds what it finds in `v`. -/
theorem Forecast.look_clear {cmd : Cmd} {u : World} (hcalm : env.Calm) (h : Forecast v o w)
    (hu : Near v (· ∈ o.touched) u) (ha : LookedAt env x cmd u w w') (hclear : x.Clear v o) :
    Forecast v (o.look v x) w' := by
  obtain ⟨⟨hconfined, hseen, hexact⟩, hcompiles, hrests⟩ := h
  have hlook : x.look u w.newestTime = x.look v w.newestTime :=
    hu.look (fun t ht => touches_iff.mp (hclear t ht)) _
  have hnewest := ha.newest
  rw [hlook, look_shown] at hnewest
  have hpath := ha.path
  have hstarted := ha.started
  rw [hlook, look_stale] at hpath hstarted
  rw [Outlook.look, if_pos hclear]
  refine ⟨⟨(hconfined.mono fun t ht => ?_).path hcalm (hpath _ fun hstale => ha.exec fun t ht => ?_), ?_,
    fun hsure => ?_⟩, fun hc hnone => ?_, fun hsure hc => ?_⟩
  · dsimp only
    split
    · exact List.mem_append_right _ ht
    · exact ht
  · rw [if_pos hstale]
    exact List.mem_append_left _ ht
  · rw [hnewest, Outlook.newest, newestOf_append]
    exact newestOf_mono hseen _
  · rw [hnewest, hexact hsure, Outlook.newest, Outlook.newest, newestOf_append]
  · rcases Bool.or_eq_true_iff.mp hc with hc | hc
    · exact hcompiles hc (ha.grows hnone)
    · rcases hstarted with ⟨-, hne⟩ | ⟨hno, -⟩
      · exact hne hnone
      · rw [hc] at hno
        cases hno
  · obtain ⟨hc, hnot⟩ := Bool.or_eq_false_iff.mp hc
    rcases hstarted with ⟨hyes, -⟩ | ⟨-, heq⟩
    · rw [hnot] at hyes
      cases hyes
    · rw [heq]
      exact hrests hsure hc

theorem Forecast.look {cmd : Cmd} {u : World} (hcalm : env.Calm) (h : Forecast v o w)
    (hu : Near v (· ∈ o.touched) u) (ha : LookedAt env x cmd u w w') : Forecast v (o.look v x) w' := by
  by_cases hclear : x.Clear v o
  · exact h.look_clear hcalm hu ha hclear
  obtain ⟨⟨hconfined, hseen, -⟩, hcompiles, -⟩ := h
  rw [Outlook.look, if_neg hclear]
  refine ⟨⟨(hconfined.mono fun t ht => List.mem_append_right _ ht).path hcalm
    (ha.path _ fun _ => ha.exec fun t ht => List.mem_append_left _ ht), ?_, fun hsure => ?_⟩,
    fun hc hnone => hcompiles hc (ha.grows hnone), fun hsure => ?_⟩
  · rw [ha.newest]
    exact hseen.trans (look_newest ..)
  · cases hsure
  · cases hsure

theorem Forecast.doCompile (hcalm : env.Calm) (cflags fname : Str) (hne : s.b.jobs ≠ [])
    (h : Forecast v o s.w) :
    Forecast v (o.look v (sourcePart v.target fname)) (doCompile env cflags fname s).w := by
  have htarget := h.confined.near.target
  have hlook := asksRebuild_look env fname s
  have hnewest := doCompile_newest env cflags fname s
  rw [htarget] at hlook hnewest
  have hkind : (compileCmd s.b.pchname v.target cflags fname).kind = .compile ↔
      (sourcePart v.target fname).header = false := by simp [compileCmd, sourcePart]
  refine h.look hcalm (h.confined.near.path hcalm (path_yield env _ s.w)) ⟨rfl, hkind, hnewest,
    fun Z hexec => path_asked (fun hasks => ?_) fun _ _ => trivial, ?_⟩
  · rw [htarget]
    exact hexec (hlook ▸ hasks)
  · rw [← hlook, ← htarget]
    rcases doCompile_log env cflags fname s hne with ⟨hasks, hlog⟩ | ⟨hasks, he, -⟩
    · exact Or.inl ⟨hasks, hlog⟩
    · exact Or.inr ⟨hasks, he⟩

theorem Forecast.makePch (hcalm : env.Calm) (hd cflags : Str) (cpp : Bool) (h : Forecast v o s.w) :
    Forecast v (o.look v (headerPart v.target hd)) (makePch env hd cflags cpp s).w := by
  have htarget := h.confined.near.target
  obtain ⟨hnewest, hlog⟩ := makePch_look env hd cflags cpp s
  rw [htarget] at hnewest hlog
  refine h.look hcalm (h.confined.near.path hcalm (path_yield env _ s.w))
    ⟨rfl, by simp [pchCmd, headerPart], hnewest, fun Z hexec => path_headerAsked fun hfound => ?_, hlog⟩
  rw [htarget] at hfound ⊢
  exact hexec hfound

theorem Forecast.compileAll (hcalm : env.Calm) (cflags : Str) : ∀ (fs : List Str) {o : Outlook} (s : St),
    s.b.jobs ≠ [] → Forecast v o s.w →
    Forecast v ((fs.map (sourcePart v.target)).foldl (Outlook.look v) o) (compileAll env cflags fs s).w
  | [], _, _, _, h => h
  | f :: fs, _, s, hne, h => Forecast.compileAll hcalm cflags fs (Cake.doCompile env cflags f s)
      (doCompile_ne_nil env cflags f hne) (h.doCompile hcalm cflags f hne)

/-- A new build has compiled nothing. -/
theorem Foreseen.newBuild (h : Foreseen v o w) : Forecast v { o with compiled := false } (newBuild env w).w :=
  ⟨⟨h.confined.say rfl rfl, h.seen, h.exact⟩, fun hc => absurd hc Bool.false_ne_true, fun _ _ => rfl⟩

theorem Foreseen.header (hcalm : env.Calm) (cflags : Str) (h : Foreseen v o w) :
    Forecast v (p.headed v o) (p.header env cflags w).w := by
  rw [Project.header, Project.pchStep, Project.headed, Project.headerParts]
  cases p.files.find? isHeader with
  | none => exact h.newBuild
  | some hd => exact h.newBuild.makePch hcalm hd cflags p.makingCpp

/-- When all the parts have been looked at. -/
theorem Foreseen.after (hcalm : env.Calm) (cflags : Str) (h : Foreseen v o w) :
    Forecast v (p.outlook v o) (p.after env cflags (p.sources env cflags w).length w).w := by
  have hnames : p.sources env cflags w = p.fnames v := by
    rw [p.sources_calm hcalm, Project.fnames_glob h.confined.near.glob]
  rw [Project.after, List.take_length, hnames, Project.outlook, Project.parts, List.foldl_append]
  exact (h.header hcalm cflags).compileAll hcalm cflags _ _ (header_busy env p cflags w)

theorem Foreseen.ready (hcalm : env.Calm) (cflags : Str) (h : Foreseen v o w) :
    Forecast v (p.outlook v o) (p.ready env cflags w).w := by
  obtain ⟨⟨hconfined, hseen, hexact⟩, hcompiles, hrests⟩ := h.after (p := p) hcalm cflags
  have hlog := ready_log env p cflags w
  rw [Project.ready]
  refine ⟨⟨hconfined.path hcalm (path_decision _), ?_, fun hsure => ?_⟩, ?_, ?_⟩
  · rw [newest_decision]
    exact hseen
  · rw [newest_decision]
    exact hexact hsure
  all_goals
    rw [Project.after, List.take_length] at hcompiles hrests
    rw [← Project.ready, started, hlog.execs]
  · exact hcompiles
  · exact hrests

/-! ### A build that has started no compile -/

/-- Where no compile has been started in the end, none was on the way. -/
theorem path_uncompiled {R : Rules} (hb : ¬ R.build) (hp : Path env R w w') (hst : started w'.log = []) :
    Path env { R with exec := fun cmd => R.exec cmd ∧ cmd.kind ≠ .compile } w w' := by
  induction hp with
  | refl => exact .refl
  | @tail u u' hp hm ih =>
    have hbefore : started u.log = [] := by
      rcases hm.log_cases with heq | ⟨e, heq, he⟩
      · rwa [heq] at hst
      · rw [heq] at hst
        cases e with
        | run v => exact he.elim
        | build v => exact absurd he.2 hb
        | exec cmd fate =>
          rw [started, execs, List.filter_cons] at hst
          split at hst
          · cases hst
          · exact hst
        | _ => exact hst
    refine (ih hbefore).tail ?_
    cases hm with
    | act ha => exact .act ha
    | finish pid => exact .finish pid
    | reap hpr hz he => exact .reap hpr hz he
    | @start cmd hc =>
      refine .start ⟨hc, fun hk => ?_⟩
      rw [World.fork] at hst
      cases hf : env.fork u.nfork cmd u.fs <;> rw [hf] at hst <;> simp [started, execs, hk] at hst
    | aside k r hn => exact .aside k r hn
    | say h => exact .say h

/-- Such a build has written for its header alone. -/
theorem Foreseen.unstarted (hcalm : env.Calm) (cflags : Str) (h : Foreseen v o w)
    (hst : started (p.ready env cflags w).w.log = []) :
    Confined v (· ∈ (p.headed v o).touched) (p.ready env cflags w).w := by
  let R : Rules := ⟨fun cmd => cmd.kind = .compile, fun _ _ => True, fun _ _ => True, False⟩
  have hpath : Path env R (p.header env cflags w).w (p.ready env cflags w).w := by
    rw [Project.ready, Project.after, List.take_length]
    exact (path_compileAll (R := R) (fun _ => True) (fun _ _ => rfl) (fun _ _ _ _ _ => trivial) _ _
      (fun _ _ => trivial) rfl rfl).trans (path_decision _)
  have hidle := path_uncompiled (fun hb => hb) hpath hst
  refine (h.header hcalm cflags).confined.path hcalm
    (hidle.widen (fun cmd (hcmd : cmd.kind = .compile ∧ cmd.kind ≠ .compile) => absurd hcmd.1 hcmd.2)
      fun u e he => ?_)
  cases e with
  | build v => exact he.2.elim
  | _ => exact he

/-! ### The output -/

/-- As the tree stands when the run begins, the output will not be kept: it is missing or older than the
    makefile, a file whose date is read by then is newer, or a source of the project has to be compiled. -/
def Project.Relinked (v : World) (o : Outlook) (p : Project) : Prop :=
  isOlder v.fs v.makefileTime 0 p.outPath = true ∨
    (∃ t ∈ (p.outlook v o).shown, mtimeOf v.fs p.outPath < mtimeOf v.fs t) ∨ (p.outlook v o).compiled = true

instance (v : World) (o : Outlook) (p : Project) : Decidable (p.Relinked v o) := by
  unfold Project.Relinked
  infer_instance

theorem looks_touched {t : Str} : ∀ {xs : List Part} {o : Outlook}, t ∈ (xs.foldl (Outlook.look v) o).touched →
    t ∈ o.touched ∨ ∃ x ∈ xs, t ∈ x.writes
  | [], _, h => Or.inl h
  | x :: xs, o, h => by
    rw [List.exists_mem_cons_iff]
    have hrest : t ∈ (o.look v x).touched ∨ ∃ y ∈ xs, t ∈ y.writes := looks_touched h
    rcases hrest with h | h
    · rw [Outlook.look] at h
      split at h
      · dsimp only at h
        split at h
        · exact (List.mem_append.mp h).elim (fun hx => Or.inr (Or.inl hx)) Or.inl
        · exact Or.inl h
      · exact (List.mem_append.mp h).elim (fun hx => Or.inr (Or.inl hx)) Or.inl
    · exact Or.inr (Or.inr h)

/-- The parts of a project touch what they touch under `obj/`. -/
theorem outlook_touched {t : Str} (h : t ∈ (p.outlook v o).touched) : t ∈ o.touched ∨ baseobjdir <+: t := by
  refine (looks_touched h).imp_right ?_
  rintro ⟨x, hx, ht⟩
  have hunder := part_under hx
  rw [Part.writes, List.mem_cons, List.mem_singleton] at ht
  rcases ht with rfl | rfl
  · exact hunder
  · exact gccDepName_under hunder

theorem outPath_touched (q : Project) (h : q.outPath ∉ o.touched) : q.outPath ∉ (p.outlook v o).touched :=
  fun ht => (outlook_touched ht).elim h fun hunder => obj_ne_outPath hunder q rfl

/-- An output that stays is up to date when it is decided upon. -/
theorem Foreseen.stays (hforks : env.Forks) (hcalm : env.Calm) (cflags : Str) (h : Foreseen v o w)
    (hstays : p.Stays v o) (hn : (p.ready env cflags w).b.nfailed = 0) :
    upToDate (p.ready env cflags w) p.outPath = true := by
  obtain ⟨hsure, hcompiled, hout, hkept⟩ := hstays
  obtain ⟨⟨hconfined, -, hexact⟩, -, hrests⟩ := h.ready (p := p) hcalm cflags
  have hpids := h.confined.near.pids
  have hcount := (p.reckoned hpids cflags (Or.inr (p.ready_forked hforks cflags w))).no_recompiles hn
  have hfile := hconfined.near.fs _ (outPath_touched (p := p) p (touches_iff.mp hout))
  have hold : isOlder (p.ready env cflags w).w.fs (p.ready env cflags w).w.makefileTime
      (p.ready env cflags w).w.newestTime p.outPath = false := by
    rw [hexact hsure, hconfined.near.makefileTime, isOlder, hfile]
    exact hkept
  obtain ⟨f, hf, -⟩ := isOlder_false.mp hold
  simp only [upToDate, hcount.mpr (hrests hsure hcompiled), beq_self_eq_true, existsFile, hf,
    Option.isSome_some, hold, Bool.not_false, Bool.and_self]

/-- It is not kept, unless it is written before. -/
theorem Foreseen.relinked (hforks : env.Forks) (hcalm : env.Calm) (cflags : Str) (h : Foreseen v o w)
    (hout : o.touches p.outPath = false) (hn : (p.ready env cflags w).b.nfailed = 0)
    (hup : upToDate (p.ready env cflags w) p.outPath = true) : ¬ p.Relinked v o := by
  obtain ⟨hcount, f, hf, hmk, hnewest⟩ := upToDate_fresh hup
  obtain ⟨hst, -⟩ := nothing_compiled hforks h.confined.near.pids p cflags hn hcount
  obtain ⟨⟨hconfined, hseen, -⟩, hcompiles, -⟩ := h.ready (p := p) hcalm cflags
  have hfile : v.fs p.outPath = some f := by
    rw [← hconfined.near.fs _ (outPath_touched (p := p) p (touches_iff.mp hout))]
    exact hf
  rintro (hold | ⟨t, ht, hlt⟩ | hc)
  · have hdated := isOlder_false.mpr ⟨f, hfile, hconfined.near.makefileTime ▸ hmk, Nat.zero_le _⟩
    rw [hdated] at hold
    cases hold
  · have hle := (newestOf_le.mp hseen).2 t ht
    rw [mtimeOf_some hfile] at hlt
    omega
  · exact hcompiles hc hst

theorem Confined.produce (hcalm : env.Calm) {mkCmd : St → Cmd} (hmk : p.MakesOutput mkCmd)
    (h : Confined v Z s.w) (hout : ¬ ((decision env s).b.nfailed = 0 →
      upToDate (decision env s) p.outPath = true) → Z p.outPath) :
    Confined v Z (produce env mkCmd s).2.w := by
  have hdec : Confined v Z (decision env s).w := h.path hcalm (path_decision _)
  rw [Cake.produce]
  rw [← decision]
  split
  · exact hdec
  · rename_i hn
    rw [hmk.out]
    split
    · exact hdec.say rfl rfl
    · rename_i hup
      rw [buildOutput_world]
      have hexec : (writing Z).exec (mkCmd (decision env s)) := fun t ht => by
        rw [output_writes (hmk.kind _) ht, hmk.out]
        exact hout fun h => hup (h (not_not.mp hn))
      exact hdec.path hcalm (path_execute hexec rfl)

/-- The build of a project keeps to the outlook. -/
theorem Foreseen.compile (hforks : env.Forks) (hcalm : env.Calm) (gs : List Project) (h : Foreseen v o w) :
    Foreseen v (o.build env v p) (p.compile env gs w).2.w := by
  rw [Outlook.build]
  cases hpkg : pkgConfig env p.pkgdepends with
  | none =>
    rw [Project.compile]
    simp only [hpkg]
    exact ⟨h.confined.say rfl rfl, h.seen, h.exact⟩
  | some cl =>
    obtain ⟨c, l⟩ := cl
    dsimp only
    have hafter := h.after (p := p) hcalm (p.flagText c)
    by_cases hnamed : p.outTarget ≠ [] ∧ p.type ≠ .sharedLibrary
    · obtain ⟨mkCmd, hmk, heq⟩ := p.compile_produce hpkg hnamed.1 hnamed.2 gs w
      rw [heq]
      have hnewest := (produce_newest env mkCmd _).trans (newest_decision env
        (p.after env (p.flagText c) (p.sources env (p.flagText c) w).length w))
      split
      · rename_i hstays
        refine ⟨hafter.confined.produce hcalm hmk fun hno => ?_, hnewest ▸ hafter.seen, hnewest ▸ hafter.exact⟩
        exact absurd (h.stays hforks hcalm (p.flagText c) hstays) hno
      · refine ⟨(hafter.confined.mono fun t ht => List.mem_cons_of_mem _ ht).produce hcalm hmk fun _ => ?_,
          hnewest ▸ hafter.seen, hnewest ▸ hafter.exact⟩
        exact List.mem_cons_self
    · rw [p.compile_unnamed hpkg hnamed]
      split
      · exact hafter.toForeseen
      · exact ⟨hafter.confined.mono fun t ht => List.mem_cons_of_mem _ ht, hafter.seen, hafter.exact⟩

/-- A run begins. -/
theorem Foreseen.begin (hpids : v.PidsOk) (hlaunched : Cake.launched v.log = [])
    (hlanded : Cake.landed v.log = []) (hnewest : v.newestTime = 0) : Foreseen v (.begin v) v := by
  refine ⟨⟨⟨hpids, fun pr hpr t ht => ?_, fun _ _ => rfl, rfl, rfl, rfl, rfl⟩, fun e he => ?_,
    fun pr hpr => ?_⟩, Nat.zero_le _, fun _ => hnewest⟩
  · refine List.mem_flatMap.mpr ⟨pr, hpr, ?_⟩
    rw [Proc.writes, Bool.or_eq_true, Bool.and_eq_true, decide_eq_true_eq, decide_eq_true_eq] at ht
    rw [List.mem_cons, List.mem_singleton]
    exact ht.imp Eq.symm fun h => h.2.symm
  · rw [hlaunched] at he
    exact absurd he List.not_mem_nil
  · rw [hlanded] at hpr
    exact absurd hpr List.not_mem_nil

/-- One round of the loop in `main`. -/
theorem Foreseen.step (hforks : env.Forks) (hcalm : env.Calm) {pre : ℕ → Bool} {k : ℕ}
    (h : Foreseen v o w) : Foreseen v (o.step env pre v (p, k)) (mainStep env pre gs w (p, k)) := by
  rw [Outlook.step, mainStep]
  split
  · obtain ⟨hconfined, hseen, hexact⟩ := h.compile (p := p) hforks hcalm gs
    exact ⟨hconfined.say rfl rfl, hseen, hexact⟩
  · exact h

/-- The state the run begins in. -/
def Run.start (r : Run) (w : World) : World :=
  startRun r.target r.rebuild r.makefile (r.before.foldl World.act w)

end Cake
