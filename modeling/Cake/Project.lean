import Cake.Build

/-! Projects, the makefile's calls that make them, `Project::compile` and the loop of `main`.

    A makefile leaves a list of projects, in the order of their creation. `main` walks that list:
    pre step, `compile()`, post step; nothing looks at what an earlier project's `compile()`
    returned. The global `newest_time` is carried from project to project. -/

namespace Cake

inductive ProjectType where | program | staticLibrary | sharedLibrary
  deriving DecidableEq

/-- `depends` holds positions in `g_projects`. -/
structure Project where
  type : ProjectType
  files : List Str
  libs : List Str
  flags : List Str
  pkgdepends : List Str
  depends : List ℕ
  name : Str
  outputSuffix : Str
  deriving DecidableEq

/-- A project as `program` or `library` creates it. -/
def Project.fresh (type : ProjectType) (name : Str) : Project :=
  { type := type, files := [], libs := [], flags := [], pkgdepends := [], depends := [],
    name := name, outputSuffix := [] }

/-- What a makefile calls. Projects are named by their position in `g_projects`. -/
inductive Call where
  | program (name : Str)
  | library (name : Str)
  | depend (p d : ℕ)
  | addFiles (p : ℕ) (files : List Str)
  | addFlags (p : ℕ) (flags : List Str)
  | addLibs (p : ℕ) (libs : List Str)
  | addPkgdepend (p : ℕ) (pkgs : List Str)
  | setOutputSuffix (p : ℕ) (suffix : Str)

/-- `s_create_program` and `s_create_library`; a name that is taken is a Lua error. -/
def createProject (type : ProjectType) (name : Str) (gs : List Project) : List Project :=
  if gs.any (fun p => p.name == name) then gs
  else gs ++ [.fresh type name]

/-- One call of a makefile; a call that raises an error changes nothing. Only programs have
    `depend` and `add_libs`. -/
def call (gs : List Project) : Call → List Project
  | .program name => createProject .program name gs
  | .library name => createProject .staticLibrary name gs
  | .depend p d =>
    if d < gs.length then
      gs.modify p (fun q => if q.type = .program then { q with depends := q.depends ++ [d] } else q)
    else gs
  | .addFiles p files => gs.modify p (fun q => { q with files := q.files ++ files })
  | .addFlags p flags => gs.modify p (fun q => { q with flags := q.flags ++ flags })
  | .addLibs p libs =>
    gs.modify p (fun q => if q.type = .program then { q with libs := q.libs ++ libs } else q)
  | .addPkgdepend p pkgs => gs.modify p (fun q => { q with pkgdepends := q.pkgdepends ++ pkgs })
  | .setOutputSuffix p suffix => gs.modify p (fun q => { q with outputSuffix := suffix })

/-- `g_projects` after the makefile. -/
def makefile (calls : List Call) : List Project := calls.foldl call []

/-- The concatenated `--cflags` and `--libs` of the packages; none when pkg-config cannot be run. -/
def pkgConfig (env : Env) : List Str → Option (Str × List Str)
  | [] => some ([], [])
  | pkg :: rest =>
    match env.pkg pkg with
    | none => none
    | some (cflags, libs) => (pkgConfig env rest).map (fun (c, l) => (cflags ++ c, insertSpacedelim [] libs ++ l))

namespace Project

def outTarget (p : Project) : Str := p.name ++ p.outputSuffix

/-- The path of the project's output. -/
def outPath (p : Project) : Str :=
  match p.type with
  | .staticLibrary => libName p.outTarget
  | _ => outName p.outTarget

/-- The flag text of `compile()`, `cflags` being what pkg-config printed. -/
def flagText (p : Project) (cflags : Str) : Str :=
  cflags ++ (p.flags.map (fun f => ' ' :: f)).flatten

def makingCpp (p : Project) : Bool := p.files.any isCppfile

/-- The libraries among `m_depends`, by name with suffix; none when `m_depends` is empty. -/
def libDepends (gs : List Project) (p : Project) : Option (List Str) :=
  if p.depends.isEmpty then none
  else some (((p.depends.filterMap (fun i => gs[i]?)).filter (fun d => d.type ≠ .program)).map outTarget)

/-- The precompiled header step of `compile()`: the first header among the files. -/
def pchStep (env : Env) (p : Project) (cflags : Str) (s : St) : St :=
  match p.files.find? isHeader with
  | none => s
  | some h => makePch env h cflags p.makingCpp s

/-- The names of `m_files` that are compiled as sources. -/
def patterns (p : Project) : List Str := p.files.filter (fun f => !isHeader f)

/-- The last step of `compile()`. -/
def outputStep (env : Env) (gs : List Project) (p : Project) (cflags : Str) (pkgLibs : List Str)
    (s : St) : Bool × St :=
  if p.outTarget.isEmpty then (false, s)
  else match p.type with
    | .program =>
      let libs := p.libs ++ pkgLibs ++ (if p.makingCpp then ["-lstdc++".toList] else [])
      link env p.outTarget cflags libs (p.libDepends gs) s
    | .staticLibrary => staticlib env p.outTarget s
    | .sharedLibrary => (false, s)

/-- `Project::compile`. -/
def compile (env : Env) (gs : List Project) (p : Project) (w : World) : Bool × St :=
  let s := newBuild env w
  match pkgConfig env p.pkgdepends with
  | none => (false, s)
  | some (cflags, pkgLibs) =>
    let cflags := p.flagText cflags
    let s := p.pchStep env cflags s
    let s := p.patterns.foldl (compilePattern env cflags) s
    p.outputStep env gs cflags pkgLibs s

end Project

/-- One round of the loop in `main`; `pre` is the answer of the pre step. -/
def mainStep (env : Env) (pre : ℕ → Bool) (gs : List Project) (w : World) (ip : Project × ℕ) :
    World :=
  if pre ip.2 then
    match ip.1.compile env gs w with
    | (ret, s) => s.w.say (.leave ip.2 ret)
  else w

/-- The loop in `main`. -/
def mainLoop (env : Env) (pre : ℕ → Bool) (gs : List Project) (w : World) : World :=
  gs.zipIdx.foldl (mainStep env pre gs) w

/-- A new cake process: `parse_options` and `set_makefile_time`. A child that an earlier process left
    behind stays in the table. -/
def startRun (target : Str) (rebuild : Bool) (makefile : Str) (w : World) : World :=
  let w := { w with target := target, rebuild := rebuild, newestTime := 0
                    makefileTime := mtimeOf w.fs makefile }
  w.say (.run w.snap)

/-- One run of cake. `before` is what happens before it starts, `pre` the answers of the pre steps. -/
structure Run where
  before : List Act
  target : Str
  rebuild : Bool
  makefile : Str
  projects : List Project
  pre : ℕ → Bool

def Run.exec (env : Env) (r : Run) (w : World) : World :=
  mainLoop env r.pre r.projects (startRun r.target r.rebuild r.makefile (r.before.foldl World.act w))

/-- A history of runs. -/
def history (env : Env) (rs : List Run) (w : World) : World := rs.foldl (fun w r => r.exec env w) w

end Cake
