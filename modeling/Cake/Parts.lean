import Cake.Alone

/-! What a build is made of.

    Before the output, `compile()` makes one precompiled header and the objects of the sources. Each of
    these parts goes by a dependency file. When nobody but cake touches the tree while it runs, the parts
    of a project are known before it starts, and the commands of a run make nothing but the parts and
    the outputs of its projects.

        files ── first header ──▶ .gch          dependency file
              └─ other patterns ──▶ objects     dependency files -/

namespace Cake

variable {env : Env} {R : Rules} {w w' : World} {p : Project} {s : St}

/-- Time passes or a child exits. -/
def Act.Calm : Act → Prop
  | .tick _ | .exit _ => True
  | _ => False

/-- While cake runs, nobody else touches the tree. -/
def Env.Calm (env : Env) : Prop := ∀ k, ∀ a ∈ env.sched k, a.Calm

/-- The commands this run has started, newest first. -/
def launched : List Ev → List (Cmd × Option Fate)
  | [] => []
  | .run _ :: _ => []
  | .exec cmd fate :: log => (cmd, fate) :: launched log
  | _ :: log => launched log

/-- Every command this run has started ends as a success for cake. -/
def AllOk (log : List Ev) : Prop := ∀ e ∈ launched log, okFate e.2 = true

/-- A file that is made before the output, and its dependency file. A header is looked for even when
    its dependency file lists nothing. -/
structure Part where
  product : Str
  dep : Str
  header : Bool
  deriving DecidableEq

def sourcePart (target fname : Str) : Part :=
  ⟨mkobjname (objdir target) fname, mkdepname (objdir target) fname, false⟩

def headerPart (target h : Str) : Part :=
  ⟨mkpchname (objdir target) h, mkdepname (objdir target) h, true⟩

namespace Project

/-- The sources of the project, as the directories are listed in `w`. -/
def fnames (w : World) (p : Project) : List Str := p.patterns.flatMap (expand w)

/-- The precompiled header, if there is one. -/
def headerParts (target : Str) (p : Project) : List Part :=
  (p.files.find? isHeader).toList.map (headerPart target)

def parts (w : World) (target : Str) (p : Project) : List Part :=
  (p.files.find? isHeader).toList.map (headerPart target) ++ (p.fnames w).map (sourcePart target)

end Project

theorem part_cases {target : Str} {x : Part} (h : x ∈ p.parts w target) :
    (∃ hd, p.files.find? isHeader = some hd ∧ x = headerPart target hd) ∨
      ∃ f ∈ p.fnames w, x = sourcePart target f := by
  rcases List.mem_append.mp h with h | h
  · obtain ⟨hd, hhd, rfl⟩ := List.mem_map.mp h
    exact Or.inl ⟨hd, Option.mem_toList.mp hhd, rfl⟩
  · obtain ⟨f, hf, rfl⟩ := List.mem_map.mp h
    exact Or.inr ⟨f, hf, rfl⟩

theorem part_under {target : Str} {x : Part} (h : x ∈ p.parts w target) : baseobjdir <+: x.product := by
  rcases part_cases h with ⟨hd, -, rfl⟩ | ⟨f, -, rfl⟩
  · exact mkpchname_under target hd
  · exact mkobjname_under target f

theorem part_ne_dep {target : Str} {x : Part} (h : x ∈ p.parts w target) (out : Str) :
    x.product ≠ gccDepName out := by
  rcases part_cases h with ⟨hd, -, rfl⟩ | ⟨f, -, rfl⟩
  · exact mkpchname_ne_gccDepName _ _ _
  · exact mkobjname_ne_gccDepName _ _ _

/-! ### The listings stay -/

theorem Move.glob (hcalm : env.Calm) (hm : Move env R w w') : w'.glob = w.glob := by
  cases hm with
  | @act k a ha =>
    cases a with
    | exit pid => exact World.glob_finish pid w
    | tick d => rfl
    | edit p data => exact (hcalm k _ ha).elim
    | restore p f => exact (hcalm k _ ha).elim
    | relist g => exact (hcalm k _ ha).elim
  | finish pid => exact World.glob_finish pid w
  | reap _ _ _ => rfl
  | @start cmd _ =>
    rw [World.fork]
    cases env.fork w.nfork cmd w.fs <;> rfl
  | aside _ _ _ => rfl
  | say _ => rfl

theorem Path.glob (hcalm : env.Calm) (hp : Path env R w w') : w'.glob = w.glob :=
  Moves.keeps (I := fun v => v.glob = w.glob) (fun _ _ hm h => (hm.glob hcalm).trans h) hp rfl

theorem expand_glob (h : w'.glob = w.glob) (pat : Str) : expand w' pat = expand w pat := by
  rw [expand, expand, h]

theorem Project.fnames_glob (h : w'.glob = w.glob) (p : Project) : p.fnames w' = p.fnames w :=
  congrArg (fun g => p.patterns.flatMap g) (funext fun pat => expand_glob h pat)

theorem Project.parts_glob (h : w'.glob = w.glob) (target : Str) (p : Project) :
    p.parts w' target = p.parts w target := by
  rw [Project.parts, Project.parts, Project.fnames_glob h]

theorem path_pattern (env : Env) (cflags : Str) (s : St) (pat : Str) :
    Path env .all s.w (compilePattern env cflags s pat).w := by
  rw [compilePattern_eq]
  exact path_compileAll (fun _ => True) (fun _ _ => trivial) (fun _ _ _ _ _ => trivial) _ s
    (fun _ _ => trivial) rfl rfl

theorem visited_calm (hcalm : env.Calm) (cflags : Str) : ∀ (ps : List Str) (s : St),
    visited env cflags ps s = ps.flatMap (expand s.w)
  | [], _ => rfl
  | pat :: ps, s => by
    have hg := (path_pattern env cflags s pat).glob hcalm
    rw [visited, visited_calm hcalm cflags ps, List.flatMap_cons]
    exact congrArg (expand s.w pat ++ ps.flatMap ·) (funext fun q => expand_glob hg q)

theorem path_header_all (env : Env) (p : Project) (cflags : Str) (w : World) :
    Path env .all w (p.header env cflags w).w :=
  (path_header fun _ _ => trivial).build trivial

/-- The names `do_compile` is called with are those listed before the build. -/
theorem Project.sources_calm (hcalm : env.Calm) (p : Project) (cflags : Str) (w : World) :
    p.sources env cflags w = p.fnames w := by
  rw [Project.sources, visited_calm hcalm]
  exact Project.fnames_glob ((path_header_all env p cflags w).glob hcalm) p

/-! ### What this run has started -/

/-- A build makes parts of `X` and outputs of projects. -/
def making (X : Part → Prop) : Rules :=
  { exec := fun cmd => if World.hasDep cmd.kind then ∃ x, X x ∧ cmd.out = x.product
      else ∃ q : Project, cmd.out = q.outPath
    skip := fun _ _ => True
    kept := fun _ _ => True
    build := False }

/-- A build of which nothing is asked. -/
def building : Rules := ⟨fun _ => True, fun _ _ => True, fun _ _ => True, False⟩

/-- What a move starts. -/
theorem Move.launches (hm : Move env R w w') : Cake.launched w'.log = Cake.launched w.log ∨
    ∃ cmd, R.exec cmd ∧ Cake.launched w'.log = (cmd, env.fork w.nfork cmd w.fs) :: Cake.launched w.log := by
  rcases hm.log_cases with heq | ⟨e, heq, he⟩
  · exact Or.inl (by rw [heq])
  · rw [heq]
    cases e with
    | run v => exact he.elim
    | exec cmd fate => exact Or.inr ⟨cmd, he.1, by rw [← he.2]; rfl⟩
    | _ => exact Or.inl rfl

theorem Move.launched (hm : Move env R w w') :
    ∃ new, Cake.launched w'.log = new ++ Cake.launched w.log := by
  rcases hm.launches with heq | ⟨cmd, -, heq⟩
  · exact ⟨[], heq⟩
  · exact ⟨[_], heq⟩

theorem Path.launched (hp : Path env R w w') :
    ∃ new, Cake.launched w'.log = new ++ Cake.launched w.log :=
  Moves.compares (S := fun w w' => ∃ new, Cake.launched w'.log = new ++ Cake.launched w.log)
    (fun _ => ⟨[], rfl⟩)
    (fun _ _ _ ⟨a, ha⟩ ⟨b, hb⟩ => ⟨b ++ a, by rw [hb, ha, List.append_assoc]⟩)
    (fun _ _ hm => hm.launched) hp

theorem AllOk.before (hp : Path env R w w') (h : AllOk w'.log) : AllOk w.log := by
  obtain ⟨new, hnew⟩ := hp.launched
  exact fun e he => h e (by rw [hnew]; exact List.mem_append_right _ he)

/-- What is started during a build is started by the run and by the build. -/
theorem Path.started (hb : ¬ R.build) (hp : Path env R w w') : ∃ new,
    Cake.launched w'.log = new ++ Cake.launched w.log ∧ Cake.execs w'.log = new ++ Cake.execs w.log := by
  refine Moves.keeps (I := fun u => ∃ new, Cake.launched u.log = new ++ Cake.launched w.log ∧
    Cake.execs u.log = new ++ Cake.execs w.log) (fun u u' hm ⟨new, hlaunched, hexecs⟩ => ?_) hp ⟨[], rfl, rfl⟩
  rcases hm.log_cases with heq | ⟨e, heq, he⟩
  · rw [heq]
    exact ⟨new, hlaunched, hexecs⟩
  · rw [heq]
    cases e with
    | run v => exact he.elim
    | build v => exact absurd he.2 hb
    | exec cmd fate =>
      exact ⟨(cmd, fate) :: new, congrArg ((cmd, fate) :: ·) hlaunched, congrArg ((cmd, fate) :: ·) hexecs⟩
    | _ => exact ⟨new, hlaunched, hexecs⟩

/-- During a build the run has started what the build has started, and what was started before. -/
theorem launched_build {w₀ : World} (hb : ¬ R.build)
    (hp : Path env R (newBuild env w₀).w w) : launched w.log = execs w.log ++ launched w₀.log := by
  obtain ⟨new, hlaunched, hexecs⟩ := hp.started hb
  rw [hlaunched, hexecs]
  show new ++ Cake.launched w₀.log = (new ++ []) ++ Cake.launched w₀.log
  rw [List.append_nil]

end Cake
