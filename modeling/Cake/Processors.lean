import Cake.Lib.Occurrences
import Cake.Frand
import Cake.Verdicts

/-! How many jobs run at once (`count`, `find_num_processors`, the reading half of `ExecuteCommand`).

    `count` looks for the needle from the end of the last match on, which packs as many matches side by
    side as there is room for. The output of `cat /proc/cpuinfo` comes in pieces of at most 512 bytes; a
    text without NUL is put together again however it was split.

        read ──▶ chunks ──▶ cstdout ──count──▶ size_t ──max 1──▶ int ──resize──▶ jobs

    The count is a `size_t` and the answer an `int`: from 2 ^ 31 matches on the two can differ. -/

namespace Cake

open Occurrences

/-- `haystack.find(needle, pos)`; none for `npos`. -/
def find (needle haystack : Str) (pos : ℕ) : Option ℕ :=
  (List.range' pos (haystack.length + 1 - pos)).find? fun i => needle.isPrefixOf (haystack.drop i)

section Find

variable {needle haystack : Str} {pos i : ℕ}

theorem find_some (h : find needle haystack pos = some i) :
    pos ≤ i ∧ OccursAt needle haystack i ∧ ∀ j, pos ≤ j → OccursAt needle haystack j → i ≤ j := by
  rw [find, List.find?_range'_eq_some] at h
  obtain ⟨hpre, hmem, hfirst⟩ := h
  rw [List.mem_range'_1] at hmem
  refine ⟨hmem.1, List.isPrefixOf_iff_prefix.mp hpre, fun j hj hocc => ?_⟩
  by_contra hlt
  have hnot := hfirst j hj (by omega)
  rw [List.isPrefixOf_iff_prefix.mpr hocc] at hnot
  exact Bool.noConfusion hnot

theorem find_none (hne : needle ≠ []) (h : find needle haystack pos = none) (i : ℕ) (hi : pos ≤ i) :
    ¬ OccursAt needle haystack i := by
  intro hocc
  have hle := hocc.le_length hne
  rw [find, List.find?_range'_eq_none] at h
  have hnot := h i hi (by omega)
  rw [List.isPrefixOf_iff_prefix.mpr hocc] at hnot
  exact Bool.noConfusion hnot

/-- Every round of `count` leaves less to search. -/
theorem find_shrinks (hne : needle ≠ []) (h : find needle haystack pos = some i) :
    haystack.length + 1 - (i + needle.length) < haystack.length + 1 - pos := by
  obtain ⟨hpos, hocc, -⟩ := find_some h
  have hle := hocc.le_length hne
  have hlen := List.length_pos_iff.mpr hne
  omega

end Find

/-- The loop of `count`, about to search from `pos2`. -/
def countFrom (haystack needle : Str) (hne : needle ≠ []) (pos2 cnt : ℕ) : ℕ :=
  match h : find needle haystack pos2 with
  | none => cnt
  | some pos1 => countFrom haystack needle hne (pos1 + needle.length) (cnt + 1)
termination_by haystack.length + 1 - pos2
decreasing_by exact find_shrinks hne h

def count (haystack needle : Str) : ℕ :=
  if hne : needle ≠ [] then countFrom haystack needle hne 0 0 else 0

theorem countFrom_greedy (haystack needle : Str) (hne : needle ≠ []) (pos2 cnt : ℕ) :
    ∃ n, Greedy (OccursAt needle haystack) needle.length pos2 n ∧
      countFrom haystack needle hne pos2 cnt = cnt + n := by
  induction pos2, cnt using countFrom.induct haystack needle hne with
  | case1 pos2 cnt h =>
    refine ⟨0, .done (find_none hne h), ?_⟩
    rw [countFrom]
    split
    · rfl
    · simp_all
  | case2 pos2 cnt pos1 h ih =>
    obtain ⟨n, hn, heq⟩ := ih
    obtain ⟨hpos, hocc, hfirst⟩ := find_some h
    refine ⟨n + 1, .take hpos hocc hfirst hn, ?_⟩
    rw [countFrom]
    split
    · simp_all
    · rename_i i hi
      obtain rfl : pos1 = i := by simpa [h] using hi
      omega

/-- `count` takes greedily, from the start. -/
theorem count_greedy (haystack : Str) {needle : Str} (hne : needle ≠ []) :
    Greedy (OccursAt needle haystack) needle.length 0 (count haystack needle) := by
  obtain ⟨n, hn, heq⟩ := countFrom_greedy haystack needle hne 0 0
  rw [count, dif_pos hne, heq, Nat.zero_add]
  exact hn

theorem count_isGreatest (haystack : Str) {needle : Str} (hne : needle ≠ []) :
    IsGreatest {m | ∃ S, Packing (OccursAt needle haystack) needle.length 0 S ∧ S.card = m}
      (count haystack needle) :=
  (count_greedy haystack hne).isGreatest (List.length_pos_iff.mpr hne)

/-! ### Reading the output -/

/-- What one `read` into the 513 bytes of `tmp` delivers. -/
structure Chunk where
  bytes : Str
  nonempty : bytes ≠ []
  fits : bytes.length ≤ 512

/-- The reading loop of `ExecuteCommand`. After the chunks `read` gives 0 or -1; `output += tmp` stops
    at a NUL. -/
def readOutput (output : Str) : List Chunk → Str
  | [] => output
  | tmp :: reads => readOutput (output ++ tmp.bytes.takeWhile (· != '\x00')) reads

/-- What the command wrote. -/
def written (reads : List Chunk) : Str := (reads.map Chunk.bytes).flatten

theorem readOutput_eq {reads : List Chunk} (hnul : '\x00' ∉ written reads) (output : Str) :
    readOutput output reads = output ++ written reads := by
  induction reads generalizing output with
  | nil => simp [readOutput, written]
  | cons tmp reads ih =>
    have hcons : written (tmp :: reads) = tmp.bytes ++ written reads := by simp [written]
    rw [hcons, List.mem_append, not_or] at hnul
    rw [readOutput, takeWhile_nul.mpr hnul.1, ih hnul.2, hcons, List.append_assoc]

/-! ### The pool -/

/-- The needle of `find_num_processors`. -/
def processor : Str := "processor".toList

/-- `find_num_processors`: `ok` is the answer of `ExecuteCommand`, and the return converts a `size_t`
    to an `int`. -/
def findNumProcessors (ok : Bool) (reads : List Chunk) : ℤ :=
  if !ok then 1 else Int.bmod (max (count (readOutput [] reads) processor) 1 : ℕ) (2 ^ 32)

/-- `jobs.resize(nprocessors)`; a negative number turns into a length no vector has, and throws. -/
def resizeJobs (nprocessors : ℤ) : Option (List Job) :=
  if nprocessors < 0 then none else some (List.replicate nprocessors.toNat ⟨.idle, []⟩)

/-- There is a processor, and `frand() % jobs.size()` does not divide by zero, whatever the build is
    called for. -/
def PoolReady (nprocessors : ℤ) : Prop :=
  1 ≤ nprocessors ∧ ∃ jobs, resizeJobs nprocessors = some jobs ∧
    ∀ (env : Env) (ops : List Op) (s : St), s.b.jobs = jobs → (calls env ops s).b.jobs.length ≠ 0

theorem calls_length (env : Env) (ops : List Op) (s : St) :
    (calls env ops s).b.jobs.length = s.b.jobs.length := by
  induction ops generalizing s with
  | nil => rfl
  | cons op ops ih => exact (ih _).trans (op.run_length env s)

/-- One processor is all it takes. -/
theorem poolReady_iff (nprocessors : ℤ) : PoolReady nprocessors ↔ 1 ≤ nprocessors := by
  refine ⟨And.left, fun h => ⟨h, ?_⟩⟩
  refine ⟨List.replicate nprocessors.toNat ⟨.idle, []⟩, if_neg (by omega), ?_⟩
  intro env ops s hs
  rw [calls_length, hs, List.length_replicate]
  omega

theorem processor_ne_nil : processor ≠ [] := by decide

/-- No end of "processor" starts with a 'p'. -/
theorem processor_unbordered : Unbordered processor := by
  intro d hpos hlt
  have hlen : processor.length = 9 := by decide
  rw [hlen] at hlt
  interval_cases d <;> decide

theorem count_processor (text : Str) : count text processor = (positions processor text).card :=
  (count_greedy text processor_ne_nil).eq_card processor_ne_nil processor_unbordered

/-- The conversion to `int` keeps a positive number as long as its low 32 bits are one. -/
theorem one_le_bmod_iff (n : ℕ) :
    1 ≤ Int.bmod (max n 1 : ℕ) (2 ^ 32) ↔ n = 0 ∨ 1 ≤ n % 2 ^ 32 ∧ n % 2 ^ 32 < 2 ^ 31 := by
  rw [Int.bmod_def]
  split <;> omega

/-- `count` is the best packing, and the pool is ready for exactly those numbers of processors that an
    `int` holds, or that come out positive when cut to 32 bits. -/
theorem count_findNumProcessors (ok : Bool) (reads : List Chunk) (hnul : '\x00' ∉ written reads) :
    (∀ haystack needle : Str, needle ≠ [] →
      IsGreatest {m | ∃ S, Packing (OccursAt needle haystack) needle.length 0 S ∧ S.card = m}
        (count haystack needle)) ∧
    (∀ haystack : Str, count haystack [] = 0) ∧
    (PoolReady (findNumProcessors ok reads) ↔
      ok = false ∨ (positions processor (written reads)).card = 0 ∨
        1 ≤ (positions processor (written reads)).card % 2 ^ 32 ∧
          (positions processor (written reads)).card % 2 ^ 32 < 2 ^ 31) := by
  refine ⟨fun haystack needle hne => count_isGreatest haystack hne, fun haystack => rfl, ?_⟩
  rw [poolReady_iff, findNumProcessors]
  cases ok with
  | false => simp
  | true =>
    rw [readOutput_eq hnul, List.nil_append, count_processor]
    simp only [Bool.not_true, Bool.false_eq_true, if_false, Bool.true_eq_false, false_or]
    exact one_le_bmod_iff _

/-- Two reads that split a word. -/
theorem count_findNumProcessors_split :
    PoolReady (findNumProcessors true
      [⟨"proces".toList, by decide, by decide⟩, ⟨"sor : 0".toList, by decide, by decide⟩]) :=
  ((count_findNumProcessors true
    [⟨"proces".toList, by decide, by decide⟩, ⟨"sor : 0".toList, by decide, by decide⟩]
    (by decide)).2.2).mpr (Or.inr (Or.inr (by decide)))

/-- One read for each of `n` words. -/
def copies (n : ℕ) : List Chunk := List.replicate n ⟨processor, processor_ne_nil, by decide⟩

theorem written_copies (n : ℕ) : written (copies n) = (List.replicate n processor).flatten := by
  rw [written, copies, List.map_replicate]

theorem nul_notMem_copies (n : ℕ) : '\x00' ∉ written (copies n) := by
  rw [written_copies]
  intro hmem
  obtain ⟨l, hl, hc⟩ := List.mem_flatten.mp hmem
  rw [List.eq_of_mem_replicate hl] at hc
  exact absurd hc (by decide)

theorem positions_copies (n : ℕ) : (positions processor (written (copies n))).card = n := by
  have hcopies := greedy_copies processor_ne_nil 0 n
  rw [Nat.zero_add, Nat.zero_mul] at hcopies
  rw [written_copies]
  exact (hcopies.eq_card processor_ne_nil processor_unbordered).symm

/-- 2 ^ 32 processors are an `int` of 0, and `frand() % jobs.size()` divides by zero. -/
theorem findNumProcessors_copies :
    '\x00' ∉ written (copies (2 ^ 32)) ∧ findNumProcessors true (copies (2 ^ 32)) = 0 ∧
      resizeJobs (findNumProcessors true (copies (2 ^ 32))) = some [] ∧
      ¬ PoolReady (findNumProcessors true (copies (2 ^ 32))) := by
  have hzero : findNumProcessors true (copies (2 ^ 32)) = 0 := by
    rw [findNumProcessors, readOutput_eq (nul_notMem_copies _), List.nil_append, count_processor,
      positions_copies]
    decide
  refine ⟨nul_notMem_copies _, hzero, ?_, ?_⟩
  · rw [hzero]
    rfl
  · rw [poolReady_iff, hzero]
    norm_num

/-- Below 2 ^ 31 matches the pool is the one of a new build on a machine with that many processors. -/
theorem resizeJobs_newBuild (env : Env) (w : World) {reads : List Chunk}
    (hnul : '\x00' ∉ written reads) (hlt : (positions processor (written reads)).card < 2 ^ 31) :
    resizeJobs (findNumProcessors true reads) =
      some (newBuild { env with cpus := (positions processor (written reads)).card } w).b.jobs := by
  rw [findNumProcessors, readOutput_eq hnul, List.nil_append, count_processor]
  have hint : Int.bmod (max (positions processor (written reads)).card 1 : ℕ) (2 ^ 32) =
      (max (positions processor (written reads)).card 1 : ℕ) := by
    rw [Int.bmod_def]
    split <;> omega
  simp only [Bool.not_true, Bool.false_eq_true, if_false]
  rw [hint, resizeJobs, if_neg (by omega), Int.toNat_natCast]
  rfl

end Cake
