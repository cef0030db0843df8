import Mathlib.Data.Nat.Notation
import Mathlib.Data.Int.Notation
import Cake.Names

/-! The world a cake process runs in: regular files with whole-second mtimes, a clock, and the
    children it has forked.

    Everything the process does not decide is an answer of `Env`, a strategy of the outside: what a
    forked command will do (`fork`), what happens while the process is between system calls
    (`sched`), which child `waitpid(-1)` picks (`pick`), the numbers `frand` returns. What
    holds of every schedule holds of every `Env`.

        fork ──▶ running ──exit──▶ zombie ──waitpid──▶ gone
                    │
                    └ on exit the command's files land, stamped with the time of the exit

    `log` records what happened, newest first; the code never reads it. -/

namespace Cake

/-- A regular file; `mtime` is the whole-second `st_mtime`. -/
structure File where
  mtime : ℕ
  data : Str
  deriving DecidableEq

/-- The regular files, by the spelling of their path. Directories are not files here. -/
abbrev FS := Str → Option File

def FS.set (fs : FS) (p : Str) (f : Option File) : FS := fun q => if q = p then f else fs q

/-- How a child ended: a normal exit, or signal `sig + 1`. -/
inductive WaitStatus where
  | exited (code : Fin 256)
  | signaled (sig : Fin 64) (core : Bool)
  deriving DecidableEq

/-- The exit code of success. -/
abbrev exitZero : Fin 256 := 0

/-- The status word `waitpid` stores: the exit code in bits 8 to 15, or the signal number with the
    core flag in bit 7. -/
def WaitStatus.word : WaitStatus → ℕ
  | .exited code => code.val <<< 8
  | .signaled sig core => (sig.val + 1) ||| (if core then 0x80 else 0)

/-- The macro `WEXITSTATUS`. -/
def wexitstatus (status : ℕ) : ℕ := (status >>> 8) &&& 0xff

theorem wexitstatus_exited : ∀ code : Fin 256, wexitstatus (WaitStatus.exited code).word = code := by
  decide +kernel

theorem wexitstatus_signaled : ∀ (sig : Fin 64) (core : Bool),
    wexitstatus (WaitStatus.signaled sig core).word = 0 := by
  decide +kernel

inductive Kind where | compile | pch | link | ar
  deriving DecidableEq

/-- A command cake runs. `ins` are the files it is pointed at (the source, the header, the objects),
    `out` the file it is told to write, `libs` the archives its `-l` options name. -/
structure Cmd where
  kind : Kind
  argv : List Str
  ins : List Str
  out : Str
  libs : List Str
  deriving DecidableEq

/-- What a child does to its output: nothing, deletes it (a failing gcc), or writes it. -/
inductive Outcome where | left | removed | written
  deriving DecidableEq

/-- What will become of a child: its wait status, what it does to its output, the files it reads and
    the text of the dependency file it writes. -/
structure Fate where
  status : WaitStatus
  outcome : Outcome
  reads : List Str
  depText : Str
  deriving DecidableEq

/-- A child that has not been waited for. `seen` holds the files it reads, as they were at the
    start; `zombie` marks one that has exited. -/
structure Proc where
  pid : ℕ
  cmd : Cmd
  fate : Fate
  start : ℕ
  seen : List (Str × File)
  zombie : Bool

/-- What a decision looks at: the files, the time, and the globals of cake. -/
structure Snap where
  fs : FS
  clock : ℕ
  makefileTime : ℕ
  newestTime : ℕ
  target : Str

inductive Ev where
  /-- a new cake process -/
  | run (v : Snap)
  /-- a new build object -/
  | build (v : Snap)
  /-- a command was started; no fate when the fork failed -/
  | exec (cmd : Cmd) (fate : Option Fate)
  /-- a child has written its files -/
  | wrote (pr : Proc) (v : Snap)
  /-- `waitpid` with the child's own pid delivered its status -/
  | reaped (pr : Proc)
  /-- `waitpid(-1)` delivered the status of this child -/
  | stolen (pr : Proc)
  /-- `waitpid(-1)` found no child -/
  | echild
  /-- a user wrote the file -/
  | edit (p : Str) (now : ℕ)
  /-- `do_compile` skipped this compile -/
  | skip (cmd : Cmd) (v : Snap)
  /-- `link` or `staticlib` kept its output instead of running this command -/
  | kept (cmd : Cmd) (v : Snap)
  /-- `compile()` of a project returned -/
  | leave (i : ℕ) (ret : Bool)

structure World where
  fs : FS
  /-- what `glob` matches -/
  glob : Str → List Str
  clock : ℕ
  procs : List Proc
  nfork : ℕ
  nyield : ℕ
  nrand : ℕ
  makefileTime : ℕ
  newestTime : ℕ
  target : Str
  rebuild : Bool
  log : List Ev

/-- What may happen while the process is not looking. -/
inductive Act where
  /-- time passes -/
  | tick (d : ℕ)
  /-- a child exits -/
  | exit (pid : ℕ)
  /-- a user writes a file -/
  | edit (p data : Str)
  /-- any other change of a file: deleted, copied with its old mtime, touched -/
  | restore (p : Str) (f : Option File)
  /-- source files come and go -/
  | relist (glob : Str → List Str)

structure Env where
  fork : ℕ → Cmd → FS → Option Fate
  sched : ℕ → List Act
  pick : ℕ → ℕ
  frand : ℕ → ℕ
  /-- output of pkg-config `--cflags` and `--libs`; none when it cannot be run -/
  pkg : Str → Option (Str × Str)
  /-- occurrences of "processor" in /proc/cpuinfo -/
  cpus : ℕ

/-- An outside in which nothing happens, on a machine with `n` processors: every command exits with
    0 and writes an output whose dependency file is empty. -/
def Env.quiet (n : ℕ) : Env :=
  { fork := fun _ _ _ => some ⟨.exited exitZero, .written, [], []⟩
    sched := fun _ => []
    pick := fun _ => 0
    frand := fun _ => 0
    pkg := fun _ => none
    cpus := n }

/-- No files, no children. -/
def World.empty : World :=
  { fs := fun _ => none, glob := fun _ => [], clock := 0, procs := [], nfork := 0, nyield := 0,
    nrand := 0, makefileTime := 0, newestTime := 0, target := [], rebuild := false, log := [] }

/-- The outside of `Env.quiet n`, with the fork number `k` failing or exiting as `codes` says. -/
def Env.exits (n : ℕ) (codes : ℕ → Option WaitStatus) : Env :=
  { Env.quiet n with fork := fun k _ _ => (codes k).map (fun st => ⟨st, .written, [], []⟩) }

/-- Clock ticks are nanoseconds; `st_mtime` holds whole seconds. -/
def sec (t : ℕ) : ℕ := t / 1000000000

theorem sec_mono {s t : ℕ} (h : s ≤ t) : sec s ≤ sec t := Nat.div_le_div_right h

namespace World

def snap (w : World) : Snap := ⟨w.fs, w.clock, w.makefileTime, w.newestTime, w.target⟩

def say (e : Ev) (w : World) : World := { w with log := e :: w.log }

/-- `-MMD` makes these commands write a dependency file too. -/
def hasDep : Kind → Bool
  | .compile | .pch => true
  | .link | .ar => false

/-- The files of an exiting child land. -/
def land (pr : Proc) (w : World) : World :=
  match pr.fate.outcome with
  | .left => w
  | .removed => { w with fs := w.fs.set pr.cmd.out none }
  | .written =>
    let fs := if hasDep pr.cmd.kind then
        w.fs.set (gccDepName pr.cmd.out) (some ⟨sec w.clock, pr.fate.depText⟩)
      else w.fs
    let w := { w with fs := fs.set pr.cmd.out (some ⟨sec w.clock, []⟩) }
    w.say (.wrote pr w.snap)

/-- The child exits, if it is still running. -/
def finish (pid : ℕ) (w : World) : World :=
  match w.procs.find? (fun pr => pr.pid == pid && !pr.zombie) with
  | none => w
  | some pr =>
    land pr { w with
      procs := w.procs.map (fun q => if q.pid = pid then { q with zombie := true } else q) }

def act (w : World) : Act → World
  | .tick d => { w with clock := w.clock + d }
  | .exit pid => w.finish pid
  | .edit p data =>
    { w with fs := w.fs.set p (some ⟨sec w.clock, data⟩), log := .edit p w.clock :: w.log }
  | .restore p f => { w with fs := w.fs.set p f }
  | .relist g => { w with glob := g }

/-- The schedule's next slice of outside activity. -/
def yield (env : Env) (w : World) : World :=
  (env.sched w.nyield).foldl act { w with nyield := w.nyield + 1 }

/-- `fork` and `execvp`: the pid (`-1` when the fork fails) and, for the record, the fate. -/
def fork (env : Env) (cmd : Cmd) (w : World) : (ℤ × Option Fate) × World :=
  let fate := env.fork w.nfork cmd w.fs
  let w' := { w with nfork := w.nfork + 1, log := .exec cmd fate :: w.log }
  match fate with
  | none => ((-1, none), w')
  | some f =>
    let seen := f.reads.filterMap (fun p => (w.fs p).map (fun d => (p, d)))
    let pr : Proc := ⟨w.nfork + 1, cmd, f, w.clock, seen, false⟩
    ((w.nfork + 1, some f), { w' with procs := w.procs ++ [pr] })

/-- Removes a zombie from the process table. -/
def reap (pr : Proc) (e : Ev) (w : World) : World :=
  { w with procs := w.procs.filter (fun q => q.pid ≠ pr.pid), log := e :: w.log }

/-- `waitpid(pid, &status, …)` for a pid of one's own: the pid and the status word, `-1` when there
    is no such child, `0` when it is still running and the call does not block. -/
def waitOne (block : Bool) (pid : ℕ) (w : World) : (ℤ × ℕ) × World :=
  let w := if block then w.finish pid else w
  match w.procs.find? (fun pr => pr.pid == pid) with
  | none => ((-1, 0), w)
  | some pr =>
    if pr.zombie then ((pr.pid, pr.fate.status.word), w.reap pr (.reaped pr)) else ((0, 0), w)

/-- `waitpid(-1, &status, …)`: any child; `n` picks among those that can be delivered. -/
def waitAny (block : Bool) (n : ℕ) (w : World) : (ℤ × ℕ) × World :=
  match w.procs with
  | [] => ((-1, 0), w.say .echild)
  | p :: ps =>
    let zombies := (p :: ps).filter (·.zombie)
    let w := if block && zombies.isEmpty then
        w.finish ((p :: ps).getD (n % (ps.length + 1)) p).pid
      else w
    let zombies := w.procs.filter (·.zombie)
    match zombies[n % zombies.length]? with
    | none => ((0, 0), w)
    | some pr => ((pr.pid, pr.fate.status.word), w.reap pr (.stolen pr))

/-- `waitpid`; the outside moves first. -/
def waitpid (env : Env) (block : Bool) (pid : ℤ) (w : World) : (ℤ × ℕ) × World :=
  let w := w.yield env
  if pid = -1 then w.waitAny block (env.pick w.nyield) else w.waitOne block pid.toNat

end World

end Cake
