import Cake.Lib.Buffer
import Cake.Paths
import Cake.Issued

/-! The 260-byte buffers that names are put together in.

    `mkobjname`, `mkdepname`, `mkpchname`, `Project::compile`, `link`, `staticlib` and `do_compile` copy
    the target, the path of the source, the name of the project and what they add to these into buffers
    of 260 characters, and none asks for a length. Each call has its own slack:

        g_objdir     obj/ target /                  target          ≤ 254
        objname      obj/ target / source           target + source ≤ 254
        depname      the same, 2 more for headers   target + source ≤ 252
        outputname   the same and .gch              target + source ≤ 250
        outname      bin/ name                      name            ≤ 255
        outname      lib/lib name .a                name            ≤ 250
        ipch         -I directory                   directory       ≤ 257
        tmp          -l name                        name            ≤ 257 -/

namespace Cake

open Buffer (strcpy initialized Buf)

/-- A call that puts a text together in a buffer, with what it is called with. -/
inductive BufCall where
  /-- `strcpy(g_objdir, ..)` in `Project::compile` -/
  | objdir (target : Str)
  | mkobjname (target fname : Str)
  | mkdepname (target fname : Str)
  | mkpchname (target fname : Str)
  /-- `outname` of `link` -/
  | outname (name : Str)
  /-- `outname` of `staticlib` -/
  | libname (name : Str)
  /-- `ipch` of `do_compile` and `link`; `isDir` is the answer of `file::is_dir` -/
  | ipch (pchname : Str) (isDir : Bool)
  /-- `tmp` of `link`: the option of a library, by name with suffix -/
  | option (name : Str)
  deriving DecidableEq

/-- `dot[1] = ext; dot[2] = 0` when something follows the last dot. -/
def retail (ext : Char) (tmp : Buf Char) : Buf Char :=
  match strrchr '.' tmp.text with
  | some (before, _) =>
    if before.length < tmp.text.length - 1 then
      (tmp.poke (before.length + 1) ext).terminate (before.length + 2)
    else tmp
  | none => tmp

/-- The buffer after the call. The three stores of `mkdepname` behind the text of a header are those
    of a `strcat`; `char ipch[260] = "-I"` fills the whole array. -/
def BufCall.buffer : BufCall → Buf Char
  | .objdir target => strcpy (Cake.objdir target)
  | .mkobjname target fname => retail 'o' ((strcpy (Cake.objdir target)).strcat fname)
  | .mkdepname target fname =>
    let tmp := (strcpy (Cake.objdir target)).strcat fname
    if endswith1of tmp.text ["h".toList, "hpp".toList, "hh".toList, "hxx".toList, "inc".toList] then
      tmp.strcat ".d".toList
    else retail 'd' tmp
  | .mkpchname target fname =>
    ((strcpy (Cake.objdir target)).strcat fname).strcat ".gch".toList
  | .outname name => strcpy (bindir ++ name)
  | .libname name => strcpy (libdir ++ "lib".toList ++ name ++ ".a".toList)
  | .ipch pchname isDir => (initialized 260 "-I".toList).strcat (path (fun _ => isDir) pchname)
  | .option name => strcpy ("-l".toList ++ name)

/-- The text the rest of the model has for the call. -/
def BufCall.name : BufCall → Str
  | .objdir target => Cake.objdir target
  | .mkobjname target fname => Cake.mkobjname (Cake.objdir target) fname
  | .mkdepname target fname => Cake.mkdepname (Cake.objdir target) fname
  | .mkpchname target fname => Cake.mkpchname (Cake.objdir target) fname
  | .outname name => outName name
  | .libname name => libName name
  | .ipch pchname isDir => "-I".toList ++ path (fun _ => isDir) pchname
  | .option name => "-l".toList ++ name

/-- The lengths for which 260 characters are enough. -/
def BufCall.Fits : BufCall → Prop
  | .objdir target => target.length ≤ 254
  | .mkobjname target fname => target.length + fname.length ≤ 254
  | .mkdepname target fname =>
    if endswith1of (Cake.objdir target ++ fname)
      ["h".toList, "hpp".toList, "hh".toList, "hxx".toList, "inc".toList] then
      target.length + fname.length ≤ 252
    else target.length + fname.length ≤ 254
  | .mkpchname target fname => target.length + fname.length ≤ 250
  | .outname name => name.length ≤ 255
  | .libname name => name.length ≤ 250
  | .ipch pchname isDir => (path (fun _ => isDir) pchname).length ≤ 257
  | .option name => name.length ≤ 257

/-! ### One call -/

theorem retail_text (ext : Char) (tmp : Buf Char) :
    (retail ext tmp).text = rewriteTail ext tmp.text := by
  rw [retail, rewriteTail]
  cases h : strrchr '.' tmp.text with
  | none => rfl
  | some ab =>
    obtain ⟨a, b⟩ := ab
    obtain ⟨htext, -⟩ := strrchr_spec h
    cases b with
    | nil => simp [htext]
    | cons c b =>
      have hset : (a ++ '.' :: c :: b).set (a.length + 1) ext = (a ++ ['.', ext]) ++ b := by
        rw [List.set_append_right _ _ (by omega), Nat.add_sub_cancel_left]
        simp
      have htake : ((a ++ ['.', ext]) ++ b).take (a.length + 2) = a ++ ['.', ext] :=
        List.take_left' (by simp)
      simp only [htext, List.isEmpty_cons, Bool.false_eq_true, if_false]
      rw [if_pos (by simp), Buf.terminate, Buf.poke, htext, hset, htake]

/-- Exchanging the tail writes nothing behind the terminator. -/
theorem within_retail {ext : Char} {tmp : Buf Char} {n : ℕ}
    (hlen : tmp.Within n → tmp.text.length < n) : (retail ext tmp).Within n ↔ tmp.Within n := by
  rw [retail]
  split
  · rename_i a b h
    split
    · rename_i hlt
      rw [Buf.within_terminate, Buf.within_poke]
      constructor
      · exact fun h => h.1.1
      · intro h
        have := hlen h
        exact ⟨⟨h, by omega⟩, by omega⟩
    · rfl
  · rfl

theorem objdir_length (target : Str) : (objdir target).length = target.length + 5 := by
  simp [objdir, baseobjdir]

theorem copy_text (target fname : Str) :
    ((strcpy (objdir target)).strcat fname).text = objdir target ++ fname := rfl

/-- The copies are those of the names the rest of the model works with. -/
theorem BufCall.buffer_text (c : BufCall) : c.buffer.text = c.name := by
  cases c with
  | objdir target => rfl
  | mkobjname target fname => exact retail_text 'o' _
  | mkdepname target fname =>
    rw [buffer, name, Cake.mkdepname, copy_text]
    split
    · rfl
    · exact retail_text 'd' _
  | mkpchname target fname => rfl
  | outname name => rfl
  | libname name => rfl
  | ipch pchname isDir => rfl
  | option name => rfl

theorem copy_within (target fname : Str) :
    ((strcpy (objdir target)).strcat fname).Within 260 ↔ target.length + fname.length ≤ 254 := by
  rw [Buf.within_copy_append, objdir_length]
  omega

/-- What `mkobjname` and `mkdepname` do to the tail needs no room of its own. -/
theorem retail_within (ext : Char) (target fname : Str) :
    (retail ext ((strcpy (objdir target)).strcat fname)).Within 260 ↔
      target.length + fname.length ≤ 254 := by
  rw [within_retail, copy_within]
  intro h
  rw [copy_within] at h
  rw [copy_text, List.length_append, objdir_length]
  omega

/-- A call stays in its buffer exactly when the lengths allow it. -/
theorem BufCall.within_iff (c : BufCall) : c.buffer.Within 260 ↔ c.Fits := by
  cases c with
  | objdir target =>
    rw [buffer, Buf.within_strcpy, objdir_length, Fits]
    omega
  | mkobjname target fname => exact retail_within 'o' target fname
  | mkdepname target fname =>
    rw [buffer, Fits, copy_text]
    split
    · rw [Buf.within_strcat, copy_within, copy_text, List.length_append, objdir_length]
      have hd : ".d".toList.length = 2 := rfl
      omega
    · exact retail_within 'd' target fname
  | mkpchname target fname =>
    rw [buffer, Fits, Buf.within_strcat, copy_within, copy_text, List.length_append, objdir_length]
    have hgch : ".gch".toList.length = 4 := rfl
    omega
  | outname name =>
    rw [buffer, Fits, Buf.within_strcpy, List.length_append]
    have hbin : bindir.length = 4 := rfl
    omega
  | libname name =>
    rw [buffer, Fits, Buf.within_strcpy, List.length_append, List.length_append, List.length_append]
    have hlib : libdir.length = 4 := rfl
    have hpre : "lib".toList.length = 3 := rfl
    have hsuf : ".a".toList.length = 2 := rfl
    omega
  | ipch pchname isDir =>
    have hinit := Buf.within_initialized 260 "-I".toList
    have htwo : (initialized 260 "-I".toList).text.length = 2 := rfl
    rw [buffer, Fits, Buf.within_strcat, htwo, and_iff_right hinit]
    omega
  | option name =>
    rw [buffer, Fits, Buf.within_strcpy, List.length_append]
    have htwo : "-l".toList.length = 2 := rfl
    omega

/-! ### The calls of `compile()` -/

section Calls

variable (isDir : World → Str → Bool) (env : Env)

/-- The `-I` option for a precompiled header; `isDir` answers for `file::is_dir`. -/
def pchOption (s : St) : List BufCall :=
  if s.b.pchname.isEmpty then [] else [.ipch s.b.pchname (isDir s.w s.b.pchname)]

/-- `needs_rebuild`: under `-r` no dependency file is looked for. -/
def needsRebuildCalls (s : St) (fname : Str) : List BufCall :=
  if s.w.rebuild then [] else [.mkdepname s.w.target fname]

def doCompileCalls (fname : Str) (s : St) : List BufCall :=
  let s : St := { s with w := s.w.yield env }
  .mkobjname s.w.target fname :: (needsRebuildCalls s fname ++
    match needsRebuild s.w.rebuild s.w.fs s.w.makefileTime s.w.newestTime
        (mkdepname (objdir s.w.target) fname) (mkobjname (objdir s.w.target) fname) with
    | (true, _) => pchOption isDir s
    | (false, _) => [])

def makePchCalls (pch : Str) (s : St) : List BufCall :=
  let s : St := { s with w := s.w.yield env }
  [.mkpchname s.w.target pch, .mkdepname s.w.target pch] ++
    if existsFile s.w.fs (mkpchname (objdir s.w.target) pch) then needsRebuildCalls s pch else []

/-- The calls of `do_compile` for each name in turn. -/
def compileAllCalls (cflags : Str) : List Str → St → List BufCall
  | [], _ => []
  | f :: fs, s => doCompileCalls isDir env f s ++ compileAllCalls cflags fs (doCompile env cflags f s)

/-- `link` and `staticlib`, from the state in which they decide. -/
def outputCalls (gs : List Project) (p : Project) (s : St) : List BufCall :=
  if p.outTarget.isEmpty || s.b.nfailed != 0 then []
  else match p.type with
    | .program => .outname p.outTarget ::
      if upToDate s (outName p.outTarget) then []
      else pchOption isDir s ++ ((p.libDepends gs).getD []).map .option
    | .staticLibrary => [.libname p.outTarget]
    | .sharedLibrary => []

/-- The calls of `Project::compile`. -/
def Project.bufCalls (gs : List Project) (p : Project) (w : World) : List BufCall :=
  match pkgConfig env p.pkgdepends with
  | none => []
  | some (cflags, _) =>
    let cflags := p.flagText cflags
    .objdir w.target :: (((p.files.find? isHeader).elim [] fun h => makePchCalls env h (newBuild env w)) ++
      compileAllCalls isDir env cflags (p.sources env cflags w) (p.header env cflags w) ++
      outputCalls isDir gs p (p.ready env cflags w))

end Calls

variable {isDir : World → Str → Bool} {env : Env} {gs : List Project} {p : Project} {w : World} {s : St}

/-- No buffer is overrun in a `compile()` exactly when the names fit in every call it makes. -/
theorem Project.bufCalls_within_iff (isDir : World → Str → Bool) (env : Env) (gs : List Project)
    (p : Project) (w : World) :
    (∀ c ∈ p.bufCalls isDir env gs w, ∀ i ∈ c.buffer.written, i < 260) ↔
      ∀ c ∈ p.bufCalls isDir env gs w, c.Fits :=
  forall₂_congr fun c _ => c.within_iff

/-- A target of 255 characters: the terminator of `g_objdir` is written at index 260. -/
theorem bufCalls_long_target :
    ∃ c ∈ (Project.fresh .program ['p']).bufCalls (fun _ _ => false) (Env.quiet 1) []
        { World.empty with target := List.replicate 255 'a' }, 260 ∈ c.buffer.written := by
  refine ⟨.objdir (List.replicate 255 'a'), List.mem_cons_self, ?_⟩
  rw [BufCall.buffer, strcpy, List.mem_range, objdir_length, List.length_replicate]
  omega

/-! ### Where the texts come from -/

/-- The calls there can be for a project: the target, its header, its sources, its name and the libraries
    it depends on. -/
inductive Project.Puts (gs : List Project) (p : Project) (target : Str) (sources : List Str) :
    BufCall → Prop
  | objdir : Puts gs p target sources (.objdir target)
  | object {f : Str} (hf : f ∈ sources) : Puts gs p target sources (.mkobjname target f)
  | depname {f : Str} (hf : f ∈ sources ∨ p.files.find? isHeader = some f) :
      Puts gs p target sources (.mkdepname target f)
  | pch {h : Str} (hh : p.files.find? isHeader = some h) : Puts gs p target sources (.mkpchname target h)
  | ipch {h : Str} (hh : p.files.find? isHeader = some h) (isDir : Bool) :
      Puts gs p target sources (.ipch (mkpchname (Cake.objdir target) h) isDir)
  | outname : Puts gs p target sources (.outname p.outTarget)
  | libname : Puts gs p target sources (.libname p.outTarget)
  | option {n : Str} (hn : n ∈ (p.libDepends gs).getD []) : Puts gs p target sources (.option n)

variable {target : Str} {sources : List Str}

theorem pchOption_puts (hp : s.b.pchname = p.pchName target) :
    ∀ c ∈ pchOption isDir s, p.Puts gs target sources c := by
  intro c hc
  rw [pchOption, hp, Project.pchName] at hc
  cases hh : p.files.find? isHeader with
  | none =>
    rw [hh] at hc
    exact absurd hc (by simp)
  | some h =>
    rw [hh] at hc
    dsimp only at hc
    split at hc
    · exact absurd hc (by simp)
    · rw [List.mem_singleton.mp hc]
      exact .ipch hh _

theorem needsRebuildCalls_puts {f : Str} (ht : s.w.target = target)
    (hf : f ∈ sources ∨ p.files.find? isHeader = some f) :
    ∀ c ∈ needsRebuildCalls s f, p.Puts gs target sources c := by
  intro c hc
  rw [needsRebuildCalls] at hc
  split at hc
  · exact absurd hc (by simp)
  · rw [List.mem_singleton.mp hc, ht]
    exact .depname hf

theorem doCompileCalls_puts {f : Str} (hp : s.b.pchname = p.pchName target) (ht : s.w.target = target)
    (hf : f ∈ sources) : ∀ c ∈ doCompileCalls isDir env f s, p.Puts gs target sources c := by
  have ht' : (s.w.yield env).target = target :=
    ((path_yield env .all s.w).later.target).trans ht
  intro c hc
  rw [doCompileCalls] at hc
  dsimp only at hc
  rcases List.mem_cons.mp hc with rfl | hc
  · rw [ht']
    exact .object hf
  · rcases List.mem_append.mp hc with hc | hc
    · exact needsRebuildCalls_puts (s := { s with w := s.w.yield env }) ht' (.inl hf) c hc
    · split at hc
      · exact pchOption_puts (s := { s with w := s.w.yield env }) hp c hc
      · exact absurd hc (by simp)

theorem makePchCalls_puts {h : Str} (ht : s.w.target = target) (hh : p.files.find? isHeader = some h) :
    ∀ c ∈ makePchCalls env h s, p.Puts gs target sources c := by
  have ht' : (s.w.yield env).target = target :=
    ((path_yield env .all s.w).later.target).trans ht
  intro c hc
  rw [makePchCalls] at hc
  dsimp only at hc
  rw [ht'] at hc
  rcases List.mem_append.mp hc with hc | hc
  · rcases List.mem_pair.mp hc with rfl | rfl
    · exact .pch hh
    · exact .depname (.inr hh)
  · split at hc
    · exact needsRebuildCalls_puts (s := { s with w := s.w.yield env }) ht' (.inr hh) c hc
    · exact absurd hc (by simp)

theorem compileAllCalls_puts {cflags : Str} {fs : List Str} (hfs : ∀ f ∈ fs, f ∈ sources)
    (hp : s.b.pchname = p.pchName target) (ht : s.w.target = target) :
    ∀ c ∈ compileAllCalls isDir env cflags fs s, p.Puts gs target sources c := by
  induction fs generalizing s with
  | nil =>
    intro c hc
    exact absurd hc (by simp [compileAllCalls])
  | cons f fs ih =>
    intro c hc
    obtain ⟨hf, hfs⟩ := List.forall_mem_cons.mp hfs
    rcases List.mem_append.mp hc with hc | hc
    · exact doCompileCalls_puts hp ht hf c hc
    · exact ih hfs ((doCompile_pchname ..).trans hp) ((doCompile_target ..).trans ht) c hc

theorem outputCalls_puts (hp : s.b.pchname = p.pchName target) :
    ∀ c ∈ outputCalls isDir gs p s, p.Puts gs target sources c := by
  intro c hc
  rw [outputCalls] at hc
  split at hc
  · exact absurd hc (by simp)
  · split at hc
    · rcases List.mem_cons.mp hc with rfl | hc
      · exact .outname
      · split at hc
        · exact absurd hc (by simp)
        · rcases List.mem_append.mp hc with hc | hc
          · exact pchOption_puts hp c hc
          · obtain ⟨n, hn, rfl⟩ := List.mem_map.mp hc
            exact .option hn
    · rw [List.mem_singleton.mp hc]
      exact .libname
    · exact absurd hc (by simp)

/-- Every call of a `compile()` is one of these. -/
theorem Project.bufCalls_puts {c l : _} (hpkg : pkgConfig env p.pkgdepends = some (c, l)) :
    ∀ b ∈ p.bufCalls isDir env gs w,
      p.Puts gs w.target (p.sources env (p.flagText c) w) b := by
  intro b hb
  rw [Project.bufCalls, hpkg] at hb
  dsimp only at hb
  rcases List.mem_cons.mp hb with rfl | hb
  · exact .objdir
  rcases List.mem_append.mp hb with hb | hb
  · rcases List.mem_append.mp hb with hb | hb
    · cases hh : p.files.find? isHeader with
      | none =>
        rw [hh] at hb
        exact absurd hb (by simp)
      | some h =>
        rw [hh] at hb
        exact makePchCalls_puts (s := newBuild env w) rfl hh b hb
    · exact compileAllCalls_puts (fun f hf => hf) (p.header_pchname ..) (p.header_held env _ w).2 b hb
  · exact outputCalls_puts (p.ready_pchname ..) b hb

theorem path_length_le (isDir : Str → Bool) (full : Str) : (path isDir full).length ≤ full.length := by
  rw [path]
  split
  · exact le_rfl
  · split
    · rename_i a b h
      obtain ⟨rfl, -⟩ := strrchr_spec h
      split
      · exact le_rfl
      · simp
    · exact le_rfl

/-- Names that are short enough for every call there can be, whatever is reached and whatever is a
    directory. -/
theorem Project.bufCalls_within_of_short {c l : _} (hpkg : pkgConfig env p.pkgdepends = some (c, l))
    (htarget : w.target.length ≤ 254)
    (hsources : ∀ f ∈ p.sources env (p.flagText c) w, w.target.length + f.length ≤ 252)
    (hheader : ∀ h, p.files.find? isHeader = some h → w.target.length + h.length ≤ 248)
    (hname : p.outTarget.length ≤ 250) (hlibs : ∀ n ∈ (p.libDepends gs).getD [], n.length ≤ 257) :
    ∀ b ∈ p.bufCalls isDir env gs w, ∀ i ∈ b.buffer.written, i < 260 := by
  rw [Project.bufCalls_within_iff]
  intro b hb
  cases Project.bufCalls_puts hpkg b hb with
  | objdir => exact htarget
  | object hf =>
    have := hsources _ hf
    rw [BufCall.Fits]
    omega
  | @depname f hf =>
    have hlen : w.target.length + f.length ≤ 252 := by
      rcases hf with hf | hf
      · exact hsources _ hf
      · have := hheader _ hf
        omega
    rw [BufCall.Fits]
    split <;> omega
  | pch hh =>
    have := hheader _ hh
    rw [BufCall.Fits]
    omega
  | @ipch h hh isDir =>
    have hlen := hheader _ hh
    have hpath := path_length_le (fun _ => isDir) (mkpchname (Cake.objdir w.target) h)
    have hpch : (mkpchname (Cake.objdir w.target) h).length = w.target.length + h.length + 9 := by
      rw [mkpchname, List.length_append, List.length_append, objdir_length]
      have hgch : ".gch".toList.length = 4 := rfl
      omega
    rw [BufCall.Fits]
    omega
  | outname =>
    rw [BufCall.Fits]
    omega
  | libname => exact hname
  | option hn => exact hlibs _ hn

end Cake
