import Cake.Lib.Lua
import Cake.Calls

/-! The methods of a project table: `add_libs`, `add_pkgdepend`, `add_flags`, `add_files` and
    `set_output_suffix`.

    A method finds its project under the key `__project` of its first argument and looks at nothing it
    gets. The other arguments are converted and stored one at a time.

        no indexing this value          ──▶ error, nothing changed
        nothing under the key           ──▶ null Project*
        neither a string nor a number   ──▶ null char*, the arguments before it are stored

    A lookup that runs Lua code is over before the method changes anything, and what it calls comes
    before the method. -/

namespace Cake

open Lua (Val)

/-- What a pointer out of a Lua value points at: nothing, a project by its position in `g_projects`, or
    something else. -/
inductive Ptr where
  | null
  | project (i : ℕ)
  | foreign (k : ℕ)
  deriving DecidableEq

/-- A project while the makefile runs. -/
structure Declared where
  type : ProjectType
  files : List Str
  libs : List Str
  flags : List Str
  pkgdepends : List Str
  depends : List Ptr
  name : Str
  outputSuffix : Str
  deriving DecidableEq

/-- What `program` and `library` make. -/
def Declared.fresh (type : ProjectType) (name : Str) : Declared :=
  { type := type, files := [], libs := [], flags := [], pkgdepends := [], depends := [],
    name := name, outputSuffix := [] }

/-- The position of the project pointed at; none when there is none. -/
def Ptr.position (gs : List Declared) : Ptr → Option ℕ
  | .project i => if i < gs.length then some i else none
  | _ => none

/-- How a call ends. It is undefined what happens once a null or foreign pointer is used as a project,
    or a null pointer as a text. -/
inductive CallResult where
  | returned (gs : List Declared)
  | raised (gs : List Declared)
  | undefined
  deriving DecidableEq

/-- The lists of strings that `add_*` write to. -/
inductive ListField where
  | libs
  | pkgdepends
  | flags
  | files
  deriving DecidableEq

def Declared.append (d : Declared) (ss : List Str) : ListField → Declared
  | .libs => { d with libs := d.libs ++ ss }
  | .pkgdepends => { d with pkgdepends := d.pkgdepends ++ ss }
  | .flags => { d with flags := d.flags ++ ss }
  | .files => { d with files := d.files ++ ss }

/-- What a std::string takes of a text: what is before the first NUL. -/
def cut (s : Str) : Str := s.takeWhile (· != '\x00')

section Code

variable {ν : Type} (form : ν → Str) (index : Val ν Ptr → Option (Val ν Ptr))

/-- The value at a position of the stack, from 1, with the key `__project` on top. -/
def slot (args : List (Val ν Ptr)) (tableindex : ℕ) : Val ν Ptr :=
  (args ++ [Val.string "__project".toList]).getD (tableindex - 1) .nil

/-- `s_getproject`; none for a Lua error. `index` is what a value gives for the key `__project`. -/
def getProject (tableindex : ℕ) (args : List (Val ν Ptr)) : Option Ptr :=
  (index (slot args tableindex)).map fun v => (Lua.touserdata v).getD .null

/-- The std::string made of what `lua_tostring` returns; none for a null pointer. -/
def stdString (v : Val ν Ptr) : Option Str :=
  match Lua.tostring form v with
  | .string s => some (cut s)
  | _ => none

/-- The loop over the arguments of `add_*`. -/
def pushArgs (field : ListField) (p : Ptr) : List (Val ν Ptr) → List Declared → CallResult
  | [], gs => .returned gs
  | v :: vs, gs =>
    match stdString form v, p.position gs with
    | some curr, some i => pushArgs field p vs (gs.modify i fun d => d.append [curr] field)
    | _, _ => .undefined

/-- `s_add_libs` and its three copies. -/
def addMethod (field : ListField) (args : List (Val ν Ptr)) (gs : List Declared) : CallResult :=
  match getProject index 1 args with
  | none => .raised gs
  | some p => pushArgs form field p args.tail gs

def addLibs (args : List (Val ν Ptr)) (gs : List Declared) : CallResult :=
  addMethod form index .libs args gs

def addPkgdepend (args : List (Val ν Ptr)) (gs : List Declared) : CallResult :=
  addMethod form index .pkgdepends args gs

def addFlags (args : List (Val ν Ptr)) (gs : List Declared) : CallResult :=
  addMethod form index .flags args gs

def addFiles (args : List (Val ν Ptr)) (gs : List Declared) : CallResult :=
  addMethod form index .files args gs

/-- `s_set_output_suffix`; of the arguments after the first only one is looked at. -/
def setOutputSuffix (args : List (Val ν Ptr)) (gs : List Declared) : CallResult :=
  match getProject index 1 args with
  | none => .raised gs
  | some p =>
    match p.position gs, args[1]?.bind (stdString form) with
    | some i, some suffix => .returned (gs.modify i fun d => { d with outputSuffix := suffix })
    | _, _ => .undefined

inductive Method where
  | add (field : ListField)
  | setOutputSuffix
  deriving DecidableEq

def Method.run (m : Method) (args : List (Val ν Ptr)) (gs : List Declared) : CallResult :=
  match m with
  | .add .libs => addLibs form index args gs
  | .add .pkgdepends => addPkgdepend form index args gs
  | .add .flags => addFlags form index args gs
  | .add .files => addFiles form index args gs
  | .setOutputSuffix => Cake.setOutputSuffix form index args gs

end Code

/-! ### What a method is for -/

section Purpose

variable {ν : Type} (form : ν → Str) (index : Val ν Ptr → Option (Val ν Ptr))

/-- The string form of a string or a number. -/
def strForm : Val ν Ptr → Option Str
  | .string s => some s
  | .number n => some (form n)
  | _ => none

/-- What the method does to its project with these strings. -/
def Method.change (ss : List Str) (d : Declared) : Method → Declared
  | .add field => d.append ss field
  | .setOutputSuffix => { d with outputSuffix := ss.headD d.outputSuffix }

/-- The strings the method looks at. -/
def Method.used (ss : List Str) : Method → List Str
  | .add _ => ss
  | .setOutputSuffix => ss.take 1

/-- The first argument is the table of project `i`; the others are strings or numbers, with the string
    forms `ss`, and there are as many as the method needs. -/
structure Asks (m : Method) (args : List (Val ν Ptr)) (gs : List Declared) (i : ℕ) (ss : List Str) :
    Prop where
  self : ∃ id, args.head? = some (.table id) ∧
    index (.table id) = some (.lightuserdata (.project i))
  lt : i < gs.length
  forms : args.tail.map (strForm form) = ss.map some
  enough : m = .setOutputSuffix → ss ≠ []

/-- Either the arguments are good and the project gets exactly their string forms, or the call raises an
    error and leaves every project as it was. -/
def AllOrNothing (m : Method) (args : List (Val ν Ptr)) (gs : List Declared) : Prop :=
  (∃ i ss, Asks form index m args gs i ss ∧
    m.run form index args gs = .returned (gs.modify i fun d => m.change ss d)) ∨
  m.run form index args gs = .raised gs

variable {form index}

/-! ### The conversions -/

theorem stdString_form (v : Val ν Ptr) : stdString form v = (strForm form v).map cut := by
  cases v <;> rfl

theorem map_cut {ss : List Str} : ss.map cut = ss ↔ ∀ s ∈ ss, '\x00' ∉ s := by
  calc ss.map cut = ss ↔ ss.map cut = ss.map id := by rw [List.map_id]
    _ ↔ ∀ s ∈ ss, cut s = s := List.map_inj_left
    _ ↔ ∀ s ∈ ss, '\x00' ∉ s := forall₂_congr fun _ _ => takeWhile_nul

theorem append_nil (d : Declared) (field : ListField) : d.append [] field = d := by
  cases field <;> simp [Declared.append]

theorem append_append (d : Declared) (field : ListField) (ss ss' : List Str) :
    (d.append ss field).append ss' field = d.append (ss ++ ss') field := by
  cases field <;> simp [Declared.append]

/-- On strings and numbers the loop stores all of them, in order. -/
theorem pushArgs_forms (field : ListField) {i : ℕ} : ∀ {vs : List (Val ν Ptr)} {ss : List Str}
    {gs : List Declared}, vs.map (strForm form) = ss.map some → i < gs.length →
      pushArgs form field (.project i) vs gs =
        .returned (gs.modify i fun d => d.append (ss.map cut) field)
  | [], [], gs, _, _ => by
    have hid : (fun d : Declared => d.append [] field) = id := funext fun d => append_nil d field
    rw [pushArgs, List.map_nil, hid, List.modify_id]
  | v :: vs, s :: ss, gs, h, hi => by
    rw [List.map_cons, List.map_cons, List.cons.injEq] at h
    have hv : stdString form v = some (cut s) := by rw [stdString_form, h.1, Option.map_some]
    have hp : Ptr.position gs (.project i) = some i := if_pos hi
    rw [pushArgs, hv, hp]
    dsimp only
    rw [pushArgs_forms field h.2 (by rwa [List.length_modify]), List.modify_modify_eq]
    congr 2
    funext d
    exact append_append d field [cut s] (ss.map cut)

theorem pushArgs_ne_raised (field : ListField) (p : Ptr) (vs : List (Val ν Ptr))
    (gs gs' : List Declared) : pushArgs form field p vs gs ≠ .raised gs' := by
  induction vs generalizing gs with
  | nil => simp [pushArgs]
  | cons v vs ih =>
    rw [pushArgs]
    split
    · exact ih _
    · simp

/-! ### The calls -/

theorem run_add (field : ListField) (args : List (Val ν Ptr)) (gs : List Declared) :
    Method.run form index (.add field) args gs = addMethod form index field args gs := by
  cases field <;> rfl

/-- A method raises an error when its first argument cannot be indexed, and never else. -/
theorem run_raised {m : Method} {args : List (Val ν Ptr)} {gs : List Declared} :
    m.run form index args gs = .raised gs ↔ index (slot args 1) = none := by
  have hproject : getProject index 1 args = none ↔ index (slot args 1) = none :=
    Option.map_eq_none_iff
  rw [← hproject]
  cases m with
  | add field =>
    rw [run_add, addMethod]
    cases getProject index 1 args with
    | none => simp
    | some p => simp [pushArgs_ne_raised]
  | setOutputSuffix =>
    rw [Method.run, Cake.setOutputSuffix]
    cases getProject index 1 args with
    | none => simp
    | some p =>
      simp only [reduceCtorEq, iff_false]
      split <;> simp

theorem Asks.getProject {m : Method} {args : List (Val ν Ptr)} {gs : List Declared} {i : ℕ}
    {ss : List Str} (h : Asks form index m args gs i ss) :
    Cake.getProject index 1 args = some (.project i) := by
  obtain ⟨id, hhead, hindex⟩ := h.self
  obtain ⟨vs, rfl⟩ := List.head?_eq_some_iff.mp hhead
  rw [Cake.getProject, slot, List.cons_append]
  change Option.map _ (index (.table id)) = _
  rw [hindex]
  rfl

/-- Good arguments end well, with the strings cut at the first NUL. -/
theorem Asks.run {m : Method} {args : List (Val ν Ptr)} {gs : List Declared} {i : ℕ} {ss : List Str}
    (h : Asks form index m args gs i ss) :
    m.run form index args gs = .returned (gs.modify i fun d => m.change (ss.map cut) d) := by
  cases m with
  | add field =>
    rw [run_add, addMethod, h.getProject]
    exact pushArgs_forms field h.forms h.lt
  | setOutputSuffix =>
    obtain ⟨s, ss, rfl⟩ := List.exists_cons_of_ne_nil (h.enough rfl)
    have hforms := h.forms
    have hp : Ptr.position gs (.project i) = some i := if_pos h.lt
    match args, hforms with
    | a :: v :: vs, hforms =>
      rw [List.tail_cons, List.map_cons, List.map_cons, List.cons.injEq] at hforms
      have hv : stdString form v = some (cut s) := by rw [stdString_form, hforms.1, Option.map_some]
      rw [Method.run, Cake.setOutputSuffix, h.getProject]
      dsimp only
      rw [hp, List.getElem?_cons_succ, List.getElem?_cons_zero, Option.bind_some, hv]
      rfl

theorem modify_inj {f g : Declared → Declared} {gs : List Declared} {i : ℕ} (hi : i < gs.length) :
    gs.modify i f = gs.modify i g ↔ f gs[i] = g gs[i] := by
  constructor
  · intro h
    have hget := congrArg (fun l => l[i]?) h
    simpa [hi] using hget
  · intro h
    refine List.ext_getElem? fun j => ?_
    by_cases hij : i = j
    · subst hij
      simp [hi, h]
    · rw [List.getElem?_modify_ne _ _ hij, List.getElem?_modify_ne _ _ hij]

/-- What the strings of a call do to a project tells the strings that are looked at. -/
theorem change_inj {m : Method} {d : Declared} {ss ss' : List Str} (h : ss.length = ss'.length) :
    m.change ss d = m.change ss' d ↔ m.used ss = m.used ss' := by
  cases m with
  | add field => cases field <;> simp [Method.change, Declared.append, Method.used]
  | setOutputSuffix =>
    match ss, ss', h with
    | [], [], _ => simp
    | s :: ss, s' :: ss', _ => simp [Method.change, Method.used]

/-- Cutting makes no difference exactly when the strings that are looked at have no NUL. -/
theorem change_cut (m : Method) (d : Declared) (ss : List Str) :
    m.change (ss.map cut) d = m.change ss d ↔ ∀ s ∈ m.used ss, '\x00' ∉ s := by
  have hused : m.used (ss.map cut) = (m.used ss).map cut := by
    cases m with
    | add field => rfl
    | setOutputSuffix => exact List.map_take.symm
  rw [change_inj (List.length_map _), hused]
  exact map_cut

/-- A call is all or nothing exactly when its first argument cannot be indexed at all, or the arguments
    are good and no string that is looked at has a NUL. -/
theorem methods_atomic (form : ν → Str) (index : Val ν Ptr → Option (Val ν Ptr)) (m : Method)
    (args : List (Val ν Ptr)) (gs : List Declared) :
    AllOrNothing form index m args gs ↔ index (slot args 1) = none ∨
      ∃ i ss, Asks form index m args gs i ss ∧ ∀ s ∈ m.used ss, '\x00' ∉ s := by
  rw [AllOrNothing, or_comm, run_raised]
  refine or_congr_right (exists₂_congr fun i ss => and_congr_right fun h => ?_)
  have hi := h.lt
  rw [h.run, CallResult.returned.injEq, modify_inj hi]
  exact change_cut m gs[i] ss

end Purpose

/-- Three project tables by their number; a table without the key, and one with something else there. -/
def tables : Val ℕ Ptr → Option (Val ℕ Ptr)
  | .table 3 => some .nil
  | .table 4 => some (.lightuserdata (.foreign 0))
  | .table i => some (.lightuserdata (.project i))
  | .string _ => some .nil
  | _ => none

/-- A misspelt variable among the files, an empty table for the project, a dot for a colon. -/
theorem nil_among_files :
    addFiles (Nat.toDigits 10) tables [.table 0, .string "a.c".toList, .nil]
        [.fresh .program "p".toList] = .undefined ∧
      addFiles (Nat.toDigits 10) tables [.table 3, .string "a.c".toList]
        [.fresh .program "p".toList] = .undefined ∧
      addFiles (Nat.toDigits 10) tables [.string "a.c".toList] [.fresh .program "p".toList] =
        .returned [.fresh .program "p".toList] ∧
      ¬ AllOrNothing (Nat.toDigits 10) tables (.add .files) [.table 0, .string "a.c".toList, .nil]
        [.fresh .program "p".toList] := by
  refine ⟨rfl, rfl, rfl, ?_⟩
  rw [AllOrNothing]
  rintro (⟨i, ss, -, h⟩ | h) <;> cases h

/-! ### The calls of a makefile -/

def Ptr.target : Ptr → Option ℕ
  | .project i => some i
  | _ => none

/-- The project as the loop of `main` sees it. -/
def Declared.toProject (d : Declared) : Project :=
  { type := d.type, files := d.files, libs := d.libs, flags := d.flags, pkgdepends := d.pkgdepends
    depends := d.depends.filterMap Ptr.target, name := d.name, outputSuffix := d.outputSuffix }

/-- The method as a call on project `i`. -/
def Method.asCall (i : ℕ) (ss : List Str) : Method → Call
  | .add .libs => .addLibs i ss
  | .add .pkgdepends => .addPkgdepend i ss
  | .add .flags => .addFlags i ss
  | .add .files => .addFiles i ss
  | .setOutputSuffix => .setOutputSuffix i (ss.headD [])

/-- With good arguments a method is the call that the makefile makes. -/
theorem Asks.call {ν : Type} {form : ν → Str} {index : Val ν Ptr → Option (Val ν Ptr)} {m : Method}
    {args : List (Val ν Ptr)} {gs : List Declared} {i : ℕ} {ss : List Str}
    (h : Asks form index m args gs i ss) (hnul : ∀ s ∈ m.used ss, '\x00' ∉ s)
    (hlibs : m = .add .libs → ∀ d, gs[i]? = some d → d.type = .program) :
    ∃ gs', m.run form index args gs = .returned gs' ∧
      gs'.map Declared.toProject = Cake.call (gs.map Declared.toProject) (m.asCall i ss) := by
  have hi := h.lt
  refine ⟨gs.modify i fun d => m.change ss d, ?_, ?_⟩
  · rw [h.run, CallResult.returned.injEq, modify_inj hi]
    exact (change_cut m gs[i] ss).mpr hnul
  · cases m with
    | add field =>
      cases field with
      | libs =>
        refine map_modify_comm fun d hd => ?_
        have htype : d.toProject.type = .program := hlibs rfl d hd
        rw [if_pos htype]
        rfl
      | pkgdepends => exact map_modify_comm fun d _ => rfl
      | flags => exact map_modify_comm fun d _ => rfl
      | files => exact map_modify_comm fun d _ => rfl
    | setOutputSuffix =>
      refine map_modify_comm fun d _ => ?_
      obtain ⟨s, ss, rfl⟩ := List.exists_cons_of_ne_nil (h.enough rfl)
      rfl

end Cake
