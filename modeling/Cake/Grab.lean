import Cake.Lib.Pipe
import Cake.Processors

/-! `ExecuteCommand` with output, and the command it runs.

    The command writes what it has to write when it likes and in as many parts as it likes, as far as
    there is room in the pipe. Cake reads up to 512 bytes at a time until nothing more can come, and
    waits only then: it does not keep the command waiting while it waits for the command.

        command   write … write ──▶ end
                     ▼ pipe ▼        │
        cake      read  …  read ──▶ 0 ──▶ wait ──▶ output, exit code -/

namespace Cake

open Occurrences
open Pipe (Flow Piece)

/-- The command runs, has ended, or is not there. -/
inductive Grabbed where | running | zombie | gone
  deriving DecidableEq

/-- Where `ExecuteCommand` is: in its loop, in `wait`, or at its end. -/
inductive Grabber where
  | reading
  | waiting
  | returned (ok : Bool) (exitcode : ℕ) (output : Str)
  deriving DecidableEq

/-- The pipe and both sides; `held` is whether cake still has the write end of the pipe too. -/
structure Grabbing where
  flow : Flow Char 512
  child : Grabbed
  held : Bool
  parent : Grabber

/-- After `begin_grab_stdout` of a command that is going to write `text`. When the fork fails the parent
    closes nothing. -/
def Grabbing.begun (forked : Bool) (text : Str) : Grabbing :=
  if forked then ⟨⟨text, [], []⟩, .running, false, .reading⟩
  else ⟨⟨[], [], []⟩, .gone, true, .reading⟩

/-- What a read leaves in `tmp`. -/
def Chunk.ofPiece (r : Piece Char 512) : Chunk := ⟨r.1, r.2.1, r.2.2⟩

/-- A pipe has room for `cap` bytes, and the command ends with `status`. -/
inductive Grabbing.Step (cap : ℕ) (status : WaitStatus) : Grabbing → Grabbing → Prop where
  | write {f f' : Flow Char 512} {held : Bool} {p : Grabber} (h : Pipe.Write cap f f') :
      Step cap status ⟨f, .running, held, p⟩ ⟨f', .running, held, p⟩
  | exit {f : Flow Char 512} {held : Bool} {p : Grabber} (h : f.rest = []) :
      Step cap status ⟨f, .running, held, p⟩ ⟨f, .zombie, held, p⟩
  | read {f f' : Flow Char 512} {child : Grabbed} {held : Bool} (h : Pipe.Read f f') :
      Step cap status ⟨f, child, held, .reading⟩ ⟨f', child, held, .reading⟩
  -- `read` gives 0 when nobody has the write end any more
  | eof {f : Flow Char 512} {child : Grabbed} (h : f.inside = []) (hchild : child ≠ .running) :
      Step cap status ⟨f, child, false, .reading⟩ ⟨f, child, false, .waiting⟩
  | wait {f : Flow Char 512} {held : Bool} :
      Step cap status ⟨f, .zombie, held, .waiting⟩
        ⟨f, .gone, held, .returned true (wexitstatus status.word)
          (readOutput [] (f.pieces.map Chunk.ofPiece))⟩

/-- So many steps. -/
inductive Grabbing.Runs (cap : ℕ) (status : WaitStatus) : ℕ → Grabbing → Grabbing → Prop where
  | refl (s : Grabbing) : Runs cap status 0 s s
  | step {n : ℕ} {s t u : Grabbing} (h : Runs cap status n s t) (ht : t.Step cap status u) :
      Runs cap status (n + 1) s u

variable {cap n : ℕ} {status : WaitStatus} {text : Str} {s s' : Grabbing}

theorem written_ofPiece (f : Flow Char 512) : written (f.pieces.map Chunk.ofPiece) = f.got := by
  rw [written, List.map_map]
  rfl

/-! ### Any pieces -/

/-- One byte a read. -/
def singles (text : Str) : List (Piece Char 512) := text.map fun c => ⟨[c], by simp⟩

theorem singles_length {r : Piece Char 512} (h : r ∈ singles text) : r.1.length ≤ 1 := by
  obtain ⟨c, -, rfl⟩ := List.mem_map.mp h
  exact le_rfl

theorem singles_val (text : Str) : ((singles text).map Subtype.val).flatten = text := by
  induction text with
  | nil => rfl
  | cons c text ih => exact congrArg (c :: ·) ih

/-- Any pieces that the pipe has room for can be what cake reads. -/
theorem Grabbing.Runs.deliver (status : WaitStatus) (reads : List (Piece Char 512))
    (h : ∀ r ∈ reads, r.1.length ≤ cap) (rest : Str) :
    Grabbing.Runs cap status (2 * reads.length)
      (.begun true ((reads.map Subtype.val).flatten ++ rest))
      ⟨⟨rest, [], reads⟩, .running, false, .reading⟩ := by
  induction reads using List.reverseRecOn generalizing rest with
  | nil => exact .refl _
  | append_singleton reads r ih =>
    have hprev := ih (fun q hq => h q (List.mem_append_left _ hq)) (r.1 ++ rest)
    have hroom : ([] : Str).length + r.1.length ≤ cap := by
      simpa using h r (List.mem_append_right _ List.mem_cons_self)
    have hread : Pipe.Read ⟨rest, r.1 ++ [], reads⟩ ⟨rest, [], reads ++ [r]⟩ := .mk r
    rw [List.append_nil] at hread
    rw [List.map_append, List.flatten_append, List.map_singleton, List.flatten_singleton, List.append_assoc,
      List.length_append, List.length_singleton, Nat.mul_succ]
    exact (hprev.step (.write (.mk r.2.1 hroom))).step (.read hread)

/-- They make the output. -/
theorem grab_pieces (status : WaitStatus) (reads : List (Piece Char 512)) (h : ∀ r ∈ reads, r.1.length ≤ cap) :
    ∃ n s, Grabbing.Runs cap status n (.begun true (reads.map Subtype.val).flatten) s ∧
      s.parent = .returned true (wexitstatus status.word) (readOutput [] (reads.map Chunk.ofPiece)) := by
  have hruns := Grabbing.Runs.deliver status reads h []
  rw [List.append_nil] at hruns
  exact ⟨_, _, ((hruns.step (.exit rfl)).step (.eof rfl Grabbed.noConfusion)).step .wait, rfl⟩

/-! ### Every order of the steps -/

/-- Nothing is lost, the command has written everything when it ends, and cake waits and returns when
    there is nothing left to read. -/
structure Grabbing.Proper (status : WaitStatus) (text : Str) (s : Grabbing) : Prop where
  text : s.flow.text = text
  held : s.held = false
  ended : s.child ≠ .running → s.flow.rest = []
  reading : s.parent = .reading → s.child ≠ .gone
  waiting : s.parent = .waiting → s.child = .zombie ∧ s.flow.inside = []
  returned : ∀ ok code output, s.parent = .returned ok code output →
    s.child = .gone ∧ s.flow.inside = [] ∧ ok = true ∧ code = wexitstatus status.word ∧
      output = readOutput [] (s.flow.pieces.map Chunk.ofPiece)

theorem Grabbing.Proper.begun (status : WaitStatus) (text : Str) :
    (Grabbing.begun true text).Proper status text where
  text := rfl
  held := rfl
  ended := fun h => absurd rfl h
  reading := fun _ => Grabbed.noConfusion
  waiting := nofun
  returned := nofun

theorem Grabbing.Proper.step (h : s.Proper status text) (hs : s.Step cap status s') :
    s'.Proper status text := by
  obtain ⟨htext, hheld, hended, hreading, hwaiting, hreturned⟩ := h
  cases hs with
  | write hw =>
    refine ⟨hw.text_eq.trans htext, hheld, fun hne => absurd rfl hne, fun _ => Grabbed.noConfusion, ?_, ?_⟩
    · intro hp
      cases (hwaiting hp).1
    · intro ok code output hp
      cases (hreturned ok code output hp).1
  | exit hrest =>
    refine ⟨htext, hheld, fun _ => hrest, fun _ => Grabbed.noConfusion, fun hp => ?_, ?_⟩
    · cases (hwaiting hp).1
    · intro ok code output hp
      cases (hreturned ok code output hp).1
  | read hr =>
    refine ⟨hr.text_eq.trans htext, hheld, fun hne => ?_, hreading, nofun, nofun⟩
    have hrest := hended hne
    cases hr
    exact hrest
  | @eof f child hinside hchild =>
    refine ⟨htext, hheld, hended, nofun, fun _ => ⟨?_, hinside⟩, nofun⟩
    have hthere := hreading rfl
    cases child with
    | running => exact absurd rfl hchild
    | zombie => rfl
    | gone => exact absurd rfl hthere
  | wait =>
    refine ⟨htext, hheld, fun _ => hended Grabbed.noConfusion, nofun, nofun, ?_⟩
    rintro ok code output ⟨⟩
    exact ⟨rfl, (hwaiting rfl).2, rfl, rfl, rfl⟩

/-- What is left to do. -/
def Grabbing.work (s : Grabbing) : ℕ :=
  s.flow.work + (if s.child = .running then 1 else 0) +
    match s.parent with
    | .reading => 2
    | .waiting => 1
    | .returned _ _ _ => 0

theorem Grabbing.Step.work_lt (h : s.Step cap status s') : s'.work < s.work := by
  cases h with
  | write hw => exact Nat.add_lt_add_right (Nat.add_lt_add_right hw.work_lt _) _
  | exit _ => simp [Grabbing.work]
  | read hr => exact Nat.add_lt_add_right (Nat.add_lt_add_right hr.work_lt _) _
  | eof _ _ => simp [Grabbing.work]
  | wait => simp [Grabbing.work]

/-- Until cake has returned, it or the command can go on. -/
theorem Grabbing.Proper.progress (h : s.Proper status text) (hcap : 0 < cap) :
    (∃ s', s.Step cap status s') ∨ ∃ ok code output, s.parent = .returned ok code output := by
  obtain ⟨f, child, held, parent⟩ := s
  obtain rfl : held = false := h.held
  cases parent with
  | returned ok code output => exact .inr ⟨ok, code, output, rfl⟩
  | waiting =>
    obtain rfl : child = .zombie := (h.waiting rfl).1
    exact .inl ⟨_, .wait⟩
  | reading =>
    refine .inl ?_
    by_cases hinside : f.inside = []
    · by_cases hchild : child = .running
      · subst hchild
        by_cases hrest : f.rest = []
        · exact ⟨_, .exit hrest⟩
        · obtain ⟨f', hw⟩ := f.write hcap hinside hrest
          exact ⟨_, .write hw⟩
      · exact ⟨_, .eof hinside hchild⟩
    · obtain ⟨f', hr⟩ := f.read (by decide) hinside
      exact ⟨_, .read hr⟩

/-- When cake has returned, all that was written has been read. -/
theorem Grabbing.Proper.result {ok : Bool} {code : ℕ} {output : Str} (h : s.Proper status text)
    (hp : s.parent = .returned ok code output) : ∃ reads, written reads = text ∧ s.child = .gone ∧
      s.parent = .returned true (wexitstatus status.word) (readOutput [] reads) := by
  obtain ⟨hgone, hinside, rfl, rfl, rfl⟩ := h.returned ok code output hp
  refine ⟨_, ?_, hgone, hp⟩
  have hrest := h.ended (by rw [hgone]; exact Grabbed.noConfusion)
  rw [written_ofPiece, Flow.got_eq hinside hrest, h.text]

theorem Grabbing.Runs.proper (h : Grabbing.Runs cap status n s s') (hs : s.Proper status text) :
    s'.Proper status text ∧ n + s'.work ≤ s.work := by
  induction h with
  | refl s => exact ⟨hs, (Nat.zero_add _).le⟩
  | step _ ht ih =>
    obtain ⟨hproper, hle⟩ := ih hs
    have hlt := ht.work_lt
    exact ⟨hproper.step ht, by omega⟩

/-- `ExecuteCommand` with output comes to its end, whatever the command writes and however the two take
    turns. Whenever it has returned, the command is gone and all it has written was read. -/
theorem grab_returns (hcap : 0 < cap) (h : Grabbing.Runs cap status n (.begun true text) s) :
    n ≤ 2 * text.length + 3 ∧
      ((∃ s', s.Step cap status s') ∨ ∃ ok code output, s.parent = .returned ok code output) ∧
      ∀ ok code output, s.parent = .returned ok code output →
        ok = true ∧ code = wexitstatus status.word ∧ s.child = .gone ∧
          ∃ reads, written reads = text ∧ output = readOutput [] reads := by
  obtain ⟨hproper, hle⟩ := h.proper (.begun status text)
  have hwork : (Grabbing.begun true text).work = 2 * text.length + 3 := rfl
  refine ⟨by omega, hproper.progress hcap, fun ok code output hp => ?_⟩
  obtain ⟨reads, htext, hgone, hend⟩ := hproper.result hp
  rw [hp, Grabber.returned.injEq] at hend
  obtain ⟨rfl, rfl, rfl⟩ := hend
  exact ⟨rfl, rfl, hgone, reads, htext, rfl⟩

/-- A word, byte by byte. -/
theorem grab_returns_word : ∃ n s, Grabbing.Runs 1 (.exited exitZero) n (.begun true "gcc".toList) s ∧
    n ≤ 2 * "gcc".toList.length + 3 ∧ s.child = .gone ∧ s.parent = .returned true 0 "gcc".toList := by
  obtain ⟨n, s, h, hret⟩ := grab_pieces (.exited exitZero) (singles "gcc".toList) fun r hr => singles_length hr
  rw [singles_val] at h
  obtain ⟨hn, -, hresult⟩ := grab_returns Nat.one_pos h
  exact ⟨n, s, h, hn, (hresult _ _ _ hret).2.2.1, hret.trans (by decide +kernel)⟩

/-- The pool that `cat /proc/cpuinfo` leads to is that of a machine with so many processors. -/
theorem grab_pool {ok : Bool} {code : ℕ} {output : Str} (env : Env) (w : World)
    (h : Grabbing.Runs cap status n (.begun true text) s) (hp : s.parent = .returned ok code output)
    (hnul : '\x00' ∉ text) (hlt : (positions processor text).card < 2 ^ 31) :
    ∃ reads, output = readOutput [] reads ∧ resizeJobs (findNumProcessors ok reads) =
      some (newBuild { env with cpus := (positions processor text).card } w).b.jobs := by
  obtain ⟨reads, rfl, -, hend⟩ := (h.proper (.begun status text)).1.result hp
  rw [hp, Grabber.returned.injEq] at hend
  obtain ⟨rfl, -, rfl⟩ := hend
  exact ⟨reads, rfl, resizeJobs_newBuild env w hnul hlt⟩

/-- After a failed fork cake waits for itself. -/
theorem grab_blocked (cap : ℕ) (status : WaitStatus) (text : Str) (s : Grabbing) :
    ¬ (Grabbing.begun false text).Step cap status s := by
  intro h
  cases h with
  | read hr => exact hr.inside_ne_nil rfl

/-! ### Where the output is cut -/

/-- A text with NULs at its end only is read up to them, however it is cut. -/
theorem readOutput_cut {reads : List Chunk} {a : Str} {k : ℕ} (hnul : '\x00' ∉ a)
    (h : written reads = a ++ List.replicate k '\x00') (output : Str) :
    readOutput output reads = output ++ a := by
  induction reads generalizing a k output with
  | nil =>
    obtain ⟨rfl, -⟩ := List.append_eq_nil_iff.mp h.symm
    rw [readOutput, List.append_nil]
  | cons tmp reads ih =>
    have hcons : written (tmp :: reads) = tmp.bytes ++ written reads := by simp [written]
    rw [hcons, List.append_eq_append_iff] at h
    rw [readOutput]
    obtain ⟨b, rfl, hrest⟩ | ⟨b, hbytes, hrest⟩ := h
    · rw [List.mem_append, not_or] at hnul
      rw [takeWhile_nul.mpr hnul.1, ih hnul.2 hrest, List.append_assoc]
    · obtain ⟨-, hb, hreads⟩ := List.append_eq_replicate_iff.mp hrest.symm
      have htake : tmp.bytes.takeWhile (· != '\x00') = a := by
        rw [hbytes, List.takeWhile_append, takeWhile_nul.mpr hnul, if_pos rfl, hb,
          List.takeWhile_replicate, if_neg (by simp), List.append_nil]
      rw [htake, ih (List.not_mem_nil) (hreads.trans (List.nil_append _).symm), List.append_nil]

theorem readOutput_append (output : Str) (reads reads' : List Chunk) :
    readOutput output (reads ++ reads') = readOutput (readOutput output reads) reads' := by
  induction reads generalizing output with
  | nil => rfl
  | cons tmp reads ih => exact ih _

theorem readOutput_singles (text output : Str) :
    readOutput output ((singles text).map Chunk.ofPiece) = output ++ text.filter (· != '\x00') := by
  induction text generalizing output with
  | nil => simp [singles, readOutput]
  | cons c text ih =>
    have hcons : (singles (c :: text)).map Chunk.ofPiece =
        ⟨[c], by simp, by simp⟩ :: (singles text).map Chunk.ofPiece := rfl
    rw [hcons, readOutput, ih]
    by_cases hc : c = '\x00'
    · simp [hc]
    · simp [hc]

/-- NULs are at the end only, or one is right before something else. -/
theorem nul_cases (text : Str) :
    (∃ k, text = text.takeWhile (· != '\x00') ++ List.replicate k '\x00') ∨
      ∃ a c b, text = a ++ '\x00' :: c :: b ∧ c ≠ '\x00' := by
  induction text with
  | nil => exact .inl ⟨0, rfl⟩
  | cons x text ih =>
    obtain ⟨k, hk⟩ | ⟨a, c, b, rfl, hc⟩ := ih
    · by_cases hx : x = '\x00'
      · subst hx
        cases text with
        | nil => exact .inl ⟨1, rfl⟩
        | cons y text =>
          by_cases hy : y = '\x00'
          · subst hy
            exact .inl ⟨k + 1, congrArg ('\x00' :: ·) hk⟩
          · exact .inr ⟨[], y, text, rfl, hy⟩
      · refine .inl ⟨k, ?_⟩
        rw [List.takeWhile_cons, if_pos (bne_iff_ne.mpr hx), List.cons_append, ← hk]
    · exact .inr ⟨x :: a, c, b, rfl, hc⟩

/-- What `ExecuteCommand` makes of a text is the same however the text comes if and only if no NUL stands
    before another character; then it is the text without the NULs at its end. -/
theorem grab_output_iff (hcap : 1 < cap) (status : WaitStatus) (text out : Str) :
    (∀ n s ok code output, Grabbing.Runs cap status n (.begun true text) s →
      s.parent = .returned ok code output → output = out) ↔
      '\x00' ∉ out ∧ ∃ k, text = out ++ List.replicate k '\x00' := by
  constructor
  · intro hout
    have hcut : ∀ reads : List (Piece Char 512), (∀ r ∈ reads, r.1.length ≤ cap) →
        (reads.map Subtype.val).flatten = text → readOutput [] (reads.map Chunk.ofPiece) = out := by
      intro reads hlen htext
      obtain ⟨n, s, hruns, hp⟩ := grab_pieces status reads hlen
      rw [htext] at hruns
      exact hout n s _ _ _ hruns hp
    -- every byte by itself
    have hsingle := hcut (singles text) (fun r hr => (singles_length hr).trans_lt hcap |>.le)
      (singles_val text)
    rw [readOutput_singles, List.nil_append] at hsingle
    obtain ⟨k, hk⟩ | ⟨a, c, b, rfl, hc⟩ := nul_cases text
    · have hnul : '\x00' ∉ text.takeWhile (· != '\x00') := fun hmem => by
        simpa using List.mem_takeWhile_imp hmem
      have hword : out = text.takeWhile (· != '\x00') := by
        have hself : (text.takeWhile (· != '\x00')).filter (· != '\x00') = text.takeWhile (· != '\x00') :=
          List.filter_eq_self.mpr fun c hc => bne_iff_ne.mpr fun heq => hnul (heq ▸ hc)
        rw [← hsingle, congrArg (List.filter _) hk, List.filter_append, hself]
        simp
      exact hword ▸ ⟨hnul, k, hk⟩
    · exfalso
      -- the NUL with what is behind it
      have htwo := hcut (singles a ++ ⟨['\x00', c], by simp⟩ :: singles b) (fun r hr => by
        rcases List.mem_append.mp hr with hr | hr
        · exact (singles_length hr).trans_lt hcap |>.le
        · rcases List.mem_cons.mp hr with rfl | hr
          · exact hcap
          · exact (singles_length hr).trans_lt hcap |>.le)
        (by
          rw [List.map_append, List.flatten_append, List.map_cons, List.flatten_cons, singles_val, singles_val]
          rfl)
      rw [← hsingle, List.map_append, List.map_cons, readOutput_append, readOutput_singles, readOutput,
        readOutput_singles] at htwo
      have hlength := congrArg List.length htwo
      simp [Chunk.ofPiece, hc] at hlength
  · rintro ⟨hnul, k, hk⟩ n s ok code output hruns hp
    obtain ⟨reads, hreads, -, hend⟩ := (hruns.proper (.begun status text)).1.result hp
    rw [hp, Grabber.returned.injEq] at hend
    rw [hend.2.2, readOutput_cut hnul (hreads.trans hk), List.nil_append]

/-- A pipe of the usual size. -/
theorem grab_output_iff_short : ∃ out, out = "-lm\n".toList ∧ ∀ n s ok code output,
    Grabbing.Runs 65536 (.exited exitZero) n (.begun true "-lm\n\x00".toList) s →
      s.parent = .returned ok code output → output = out :=
  ⟨_, rfl, (grab_output_iff (by decide) (.exited exitZero) "-lm\n\x00".toList _).mpr
    ⟨by decide, 1, by decide⟩⟩

end Cake
