import Cake.ArgList
import Cake.Stamps
import Cake.Pool

/-! The build object: compiling a source, the precompiled header, and the final link or archive
    (`build::do_compile`, `make_pch`, `link`, `staticlib`).

    `mkpath` only makes directories, which `World.fs` does not hold, so it does not appear here. -/

namespace Cake

/-- `find_num_processors` and the constructor. -/
def newBuild (env : Env) (w : World) : St :=
  { b := { jobs := List.replicate (max env.cpus 1) ⟨.idle, []⟩, nprocessed := 0, nskipped := 0,
           ncompiled := 0, nfailed := 0, nlinked := 0, linklist := [], pchname := [] }
    w := w.say (.build w.snap) }

/-- The command `do_compile` issues. -/
def compileCmd (pchname target cflags fname : Str) : Cmd :=
  let objname := mkobjname (objdir target) fname
  { kind := .compile, argv := compileArgs pchname target cflags fname objname, ins := [fname],
    out := objname, libs := [] }

/-- What `do_compile` does once `needs_rebuild` has answered. -/
def settle (env : Env) (rebuild : Bool) (cmd : Cmd) (s : St) : St :=
  if !rebuild then
    { b := { s.b with nskipped := s.b.nskipped + 1, linklist := s.b.linklist ++ [cmd.out] }
      w := s.w.say (.skip cmd s.w.snap) }
  else addCompileJob env cmd s

/-- `nprocessed++`. -/
def countSource (s : St) : St := { s with b := { s.b with nprocessed := s.b.nprocessed + 1 } }

def doCompile (env : Env) (cflags fname : Str) (s : St) : St :=
  let s := countSource { s with w := s.w.yield env }
  let cmd := compileCmd s.b.pchname s.w.target cflags fname
  match needsRebuild s.w.rebuild s.w.fs s.w.makefileTime s.w.newestTime
      (mkdepname (objdir s.w.target) fname) cmd.out with
  | (rebuild, newest) => settle env rebuild cmd { s with w := { s.w with newestTime := newest } }

/-- `build::compile`: one pattern or name of `m_files`. -/
def compilePattern (env : Env) (cflags : Str) (s : St) (fname : Str) : St :=
  let g := s.w.glob fname
  if g.isEmpty then doCompile env cflags fname s
  else g.foldl (fun s f => doCompile env cflags f s) s

/-- The command `make_pch` issues. -/
def pchCmd (target cflags : Str) (cplusplus : Bool) (pch : Str) : Cmd :=
  let outputname := mkpchname (objdir target) pch
  { kind := .pch, argv := pchArgs target cflags cplusplus pch outputname, ins := [pch],
    out := outputname, libs := [] }

/-- Runs the command of `make_pch` and counts it. -/
def buildPch (env : Env) (cmd : Cmd) (s : St) : St :=
  match executeCommand env cmd s.w with
  | (ok, code, w) =>
    if !ok then { b := { s.b with nfailed := s.b.nfailed + 1 }, w := w }
    else if code ≠ 0 then { b := { s.b with nfailed := s.b.nfailed + 1 }, w := w }
    else { b := { s.b with ncompiled := s.b.ncompiled + 1 }, w := w }

def makePch (env : Env) (pch cflags : Str) (cplusplus : Bool) (s : St) : St :=
  let cmd := pchCmd s.w.target cflags cplusplus pch
  let s : St := { b := { s.b with pchname := cmd.out }, w := s.w.yield env }
  if existsFile s.w.fs cmd.out then
    match needsRebuild s.w.rebuild s.w.fs s.w.makefileTime s.w.newestTime
        (mkdepname (objdir s.w.target) pch) cmd.out with
    | (rebuild, newest) =>
      let s : St := { s with w := { s.w with newestTime := newest } }
      if rebuild then buildPch env cmd s else s
  else buildPch env cmd s

/-- No recompiles, and the output is there and new: nothing to do. -/
def upToDate (s : St) (outname : Str) : Bool :=
  s.b.linklist.length == s.b.nskipped && existsFile s.w.fs outname
    && !isOlder s.w.fs s.w.makefileTime s.w.newestTime outname

/-- Runs the command of `link` or `staticlib` and counts it. -/
def buildOutput (env : Env) (cmd : Cmd) (s : St) : Bool × St :=
  match executeCommand env cmd s.w with
  | (ok, code, w) =>
    if !ok then (false, { b := { s.b with nfailed := s.b.nfailed + 1 }, w := w })
    else if code ≠ 0 then (false, { b := { s.b with nfailed := s.b.nfailed + 1 }, w := w })
    else (true, { b := { s.b with nlinked := s.b.nlinked + 1 }, w := w })

/-- What `link` and `staticlib` share: finish the compiles, give up after a failure, keep an output
    that is up to date, else run the command (built from the state at that moment). -/
def produce (env : Env) (mkCmd : St → Cmd) (s : St) : Bool × St :=
  let s := completeJobs env { s with w := s.w.yield env }
  let cmd := mkCmd s
  if s.b.nfailed ≠ 0 then (false, s)
  else if upToDate s cmd.out then (true, { s with w := s.w.say (.kept cmd s.w.snap) })
  else buildOutput env cmd s

/-- The command `link` issues; `depends` are the names of the libraries among `m_depends`, none when
    `m_depends` is empty. -/
def linkCmd (target ldflags : Str) (libs : List Str) (depends : Option (List Str)) (s : St) : Cmd :=
  { kind := .link,
    argv := linkArgs s.b.pchname ldflags (outName target) s.b.linklist libs depends,
    ins := s.b.linklist, out := outName target, libs := (depends.getD []).map libName }

def link (env : Env) (target ldflags : Str) (libs : List Str) (depends : Option (List Str)) :
    St → Bool × St :=
  produce env (linkCmd target ldflags libs depends)

/-- The command `staticlib` issues. -/
def arCmd (target : Str) (s : St) : Cmd :=
  { kind := .ar, argv := arArgs (libName target) s.b.linklist, ins := s.b.linklist,
    out := libName target, libs := [] }

def staticlib (env : Env) (target : Str) : St → Bool × St :=
  produce env (arCmd target)

/-! ### One command at a time -/

variable {env : Env} {s : St}

theorem buildPch_world (env : Env) (cmd : Cmd) (s : St) :
    (buildPch env cmd s).w = (executeCommand env cmd s.w).2.2 := by
  rw [buildPch]
  dsimp only
  split
  · rfl
  · split <;> rfl

theorem buildOutput_world (env : Env) (cmd : Cmd) (s : St) :
    (buildOutput env cmd s).2.w = (executeCommand env cmd s.w).2.2 := by
  rw [buildOutput]
  dsimp only
  split
  · rfl
  · split <;> rfl

/-- The answer is true only for exit code 0. -/
theorem buildOutput_answer {cmd : Cmd} {ok ret : Bool} {code : ℕ} {w : World} {t : St}
    (hq : executeCommand env cmd s.w = (ok, code, w)) (h : buildOutput env cmd s = (ret, t)) :
    t.w = w ∧ (ret = true → code = 0) := by
  have hworld := buildOutput_world env cmd s
  rw [h, hq] at hworld
  refine ⟨hworld, ?_⟩
  rintro rfl
  rw [buildOutput, hq] at h
  dsimp only at h
  split at h
  · simp at h
  · split at h
    · simp at h
    · rename_i hcode
      exact not_not.mp hcode

/-- `make_pch` looks at the files and perhaps runs its command: what holds after the look, which
    raises `newest_time` at most, and what the command keeps, holds in the end. -/
theorem makePch_keeps {P : St → Prop} {pch cflags : Str} {cpp : Bool}
    (hlook : ∀ n, (s.w.yield env).newestTime ≤ n → P
      ⟨{ s.b with pchname := (pchCmd s.w.target cflags cpp pch).out }, { s.w.yield env with newestTime := n }⟩)
    (hbuild : ∀ t, P t → P (buildPch env (pchCmd s.w.target cflags cpp pch) t)) :
    P (makePch env pch cflags cpp s) := by
  rw [makePch]
  dsimp only
  split
  · have hseen := hlook _ (needsRebuild_newest (s.w.yield env).rebuild (s.w.yield env).fs
      (s.w.yield env).makefileTime (s.w.yield env).newestTime (mkdepname (objdir (s.w.yield env).target) pch)
      (pchCmd s.w.target cflags cpp pch).out)
    split
    · exact hbuild _ hseen
    · exact hseen
  · exact hbuild _ (hlook (s.w.yield env).newestTime le_rfl)

end Cake
