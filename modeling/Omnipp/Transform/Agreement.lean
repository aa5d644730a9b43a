import Omnipp.Transform.Re2Regex
import Omnipp.Transform.SimpleRegex

/-!
# `SimpleRegex` and `Re2Regex`

The one searches the text and looks for the line around each match, the other goes from line to
line. `Re2Regex` leaves out empty lines, and `SimpleRegex` takes carriage returns off the front of a
line.
-/

open Omnipp.Lines

namespace Omnipp.Transform

/-- The lines of a block. There is none behind a final newline. -/
def linesIn (data : Bytes) : List Bytes :=
  if (data.splitOn newline).getLast? = some [] then (data.splitOn newline).dropLast
  else data.splitOn newline

theorem splitOn_ne_nil (data : Bytes) : data.splitOn newline ≠ [] := by
  induction data using line_induction newline with
  | last seg hseg => simp [List.splitOn_eq_singleton hseg]
  | step seg rest hseg ih => simp [List.splitOn_append_cons_self_of_not_mem hseg]

/-- There is nothing in the block behind its last newline. -/
def NothingBehind (data : Bytes) : Prop := data = [] ∨ data.getLast? = some newline

instance (data : Bytes) : Decidable (NothingBehind data) := inferInstanceAs (Decidable (_ ∨ _))

theorem nothingBehind_append_iff {seg rest : Bytes} :
    NothingBehind (seg ++ newline :: rest) ↔ NothingBehind rest := by
  unfold NothingBehind
  rcases List.eq_nil_or_concat' rest with rfl | ⟨init, c, rfl⟩
  · simp
  · rw [← List.cons_append, ← List.append_assoc, List.getLast?_concat, List.getLast?_concat]
    simp

/-- The last piece is empty exactly when there is nothing behind the last newline. -/
theorem last_empty_iff {data : Bytes} : (data.splitOn newline).getLast? = some [] ↔ NothingBehind data := by
  induction data using line_induction newline with
  | last seg hseg =>
    have hlast : seg.getLast? ≠ some newline := fun h => hseg (List.mem_of_getLast? h)
    rw [List.splitOn_eq_singleton hseg, List.getLast?_singleton, Option.some.injEq, NothingBehind,
      or_iff_left hlast]
  | step seg rest hseg ih =>
    rw [List.splitOn_append_cons_self_of_not_mem hseg, List.getLast?_cons_of_ne_nil (splitOn_ne_nil rest), ih,
      nothingBehind_append_iff]

/-- The pieces are the lines, and an empty one when there is nothing behind the last newline. -/
theorem splitOn_eq_linesIn (data : Bytes) :
    data.splitOn newline = linesIn data ++ if NothingBehind data then [[]] else [] := by
  unfold linesIn
  by_cases hlast : (data.splitOn newline).getLast? = some []
  · rw [if_pos hlast, if_pos (last_empty_iff.mp hlast)]
    obtain ⟨init, hinit⟩ := List.getLast?_eq_some_iff.mp hlast
    rw [hinit, List.dropLast_concat]
  · rw [if_neg hlast, if_neg fun h => hlast (last_empty_iff.mpr h), List.append_nil]

theorem trimmed_eq_self_iff {line : Bytes} (h : newline ∉ line) :
    trimmed line = line ↔ line.head? ≠ some carriageReturn := by
  cases line with
  | nil => simp [trimmed]
  | cons c line =>
    have hc : c ≠ newline := fun he => h (he ▸ List.mem_cons_self)
    by_cases hr : c = carriageReturn
    · have hshort : (trimmed (c :: line)).length ≤ line.length := by
        rw [trimmed, List.dropWhile_cons_of_pos (by simp [hr])]
        exact (List.dropWhile_suffix _).length_le
      refine iff_of_false (fun heq => ?_) (by simp [hr])
      rw [heq, List.length_cons] at hshort
      omega
    · refine iff_of_true ?_ (by simpa using hr)
      rw [trimmed, List.dropWhile_cons_of_neg (by simp [hc, hr])]

/-- What the one passes on and what the other does are the same lines exactly when none of them is
empty and none begins with a carriage return. -/
theorem trimmed_eq_filled_iff {hits : List Bytes} (h : ∀ line ∈ hits, newline ∉ line) :
    hits.map trimmed = hits.filter (· ≠ []) ↔
      ∀ line ∈ hits, line ≠ [] ∧ line.head? ≠ some carriageReturn := by
  constructor
  · intro heq
    have hne : ∀ line ∈ hits, line ≠ [] := by
      have hlen := congrArg List.length heq
      rw [List.length_map, eq_comm, List.length_filter_eq_length_iff] at hlen
      simpa using hlen
    have hall : hits.filter (· ≠ []) = hits := List.filter_eq_self.mpr (by simpa using hne)
    rw [hall] at heq
    intro line hl
    refine ⟨hne line hl, (trimmed_eq_self_iff (h line hl)).mp ?_⟩
    have hmap : hits.map trimmed = hits.map id := by rw [heq, List.map_id]
    exact List.map_inj_left.mp hmap line hl
  · intro hall
    rw [List.filter_eq_self.mpr (by simpa using fun line hl => (hall line hl).1)]
    have hmap : hits.map trimmed = hits.map id :=
      List.map_congr_left fun line hl => (trimmed_eq_self_iff (h line hl)).mpr (hall line hl).2
    rw [hmap, List.map_id]

section Nodes
variable {contains : Bytes → Bool} {regex : Regex}

/-- The lines of a block that contain a match. -/
def hitsIn (contains : Bytes → Bool) (data : Bytes) : List Bytes := (linesIn data).filter contains

/-- The empty text behind the last newline, where that contains a match. -/
def behindIn (contains : Bytes → Bool) (data : Bytes) : List Bytes :=
  if contains [] = true ∧ NothingBehind data then [[]] else []

theorem clean_of_mem_hitsIn {data line : Bytes} (h : line ∈ hitsIn contains data) : newline ∉ line := by
  have hline : line ∈ data.splitOn newline := by
    rw [splitOn_eq_linesIn]
    exact List.mem_append_left _ (List.mem_of_mem_filter h)
  rw [← map_lines newline data] at hline
  obtain ⟨l, hl, rfl⟩ := List.mem_map.mp hline
  exact (isLine_of_mem_lines hl).clean

theorem hitLines_eq (contains : Bytes → Bool) (data : Bytes) :
    hitLines contains data = hitsIn contains data ++ behindIn contains data := by
  unfold hitLines hitsIn behindIn
  rw [splitOn_eq_linesIn, List.filter_append]
  by_cases hends : NothingBehind data
  · cases hempty : contains [] <;> simp [hempty, hends]
  · simp [hends]

theorem matching_eq_hitsIn (contains : Bytes → Bool) (data : Bytes) :
    matching contains data = (hitsIn contains data).filter (· ≠ []) := by
  unfold matching hitsIn
  rw [List.filter_filter, splitOn_eq_linesIn, List.filter_append]
  by_cases hends : NothingBehind data <;> simp [hends]

theorem map_trimmed_behindIn (contains : Bytes → Bool) (data : Bytes) :
    (behindIn contains data).map trimmed = behindIn contains data := by
  unfold behindIn
  split <;> rfl

/-- The empty line behind the last newline is one too many for `Re2Regex`. -/
theorem trimmed_append_eq_filled_iff {hits behind : List Bytes} (h : ∀ line ∈ hits, newline ∉ line) :
    hits.map trimmed ++ behind = hits.filter (· ≠ []) ↔
      behind = [] ∧ ∀ line ∈ hits, line ≠ [] ∧ line.head? ≠ some carriageReturn := by
  constructor
  · intro heq
    have hbehind : behind = [] := by
      have hlen := congrArg List.length heq
      have hle := List.length_filter_le (· ≠ []) hits
      rw [List.length_append, List.length_map] at hlen
      exact List.eq_nil_of_length_eq_zero (by omega)
    rw [hbehind, List.append_nil] at heq
    exact ⟨hbehind, (trimmed_eq_filled_iff h).mp heq⟩
  · rintro ⟨rfl, hall⟩
    rw [List.append_nil]
    exact (trimmed_eq_filled_iff h).mpr hall

/-- `SimpleRegex` passes on every line with a match, without the carriage returns in front of it, and
`Re2Regex` every such line that is not empty. Where the empty text contains a match and the block ends
with a newline or is empty, `SimpleRegex` passes on one empty line more. -/
theorem simple_and_re2_regex (h : LineLocal contains regex) (data : Bytes) :
    let hits := hitsIn contains data
    let behind := behindIn contains data
    (∀ (σ : Type) (next : Stage (Bytes × Bool) σ) (s : σ), simpleRegex regex next data s =
      andThen (feed next ((hits.map trimmed ++ behind).map fun line => (line, true)) s) fun _ t =>
        (.ok (hits.length + behind.length), t)) ∧
    (∀ (σ : Type) (next : Stage Bytes σ) (s : σ), re2Regex contains next data s =
      andThen (feed next (printed (hits.filter (· ≠ []))) s) fun _ t =>
        (.ok (hits.filter (· ≠ [])).length, t)) ∧
    (hits.map trimmed ++ behind = hits.filter (· ≠ []) ↔
      behind = [] ∧ ∀ line ∈ hits, line ≠ [] ∧ line.head? ≠ some carriageReturn) := by
  intro hits behind
  refine ⟨fun σ next s => ?_, fun σ next s => ?_,
    trimmed_append_eq_filled_iff fun line hl => clean_of_mem_hitsIn hl⟩
  · rw [simple_regex_spec h, hitLines_eq, ← List.length_append,
      show hits.map trimmed ++ behind = (hits ++ behind).map trimmed by
        rw [List.map_append, map_trimmed_behindIn], List.map_map]
    rfl
  · rw [re2_regex_spec, matching_eq_hitsIn]

/-! ## The empty pattern -/

/-- It has an empty match in front of every text. -/
def emptyRegex : Regex where
  search _ := .ok (some (0, 0))
  inside := by
    intro str position length h
    simp only [Except.ok.injEq, Option.some.injEq, Prod.mk.injEq] at h
    omega

def everywhere (_ : Bytes) : Bool := true

theorem emptyRegex_lineLocal : LineLocal everywhere emptyRegex where
  missing := by
    intro str hall
    obtain ⟨line, hl⟩ := List.exists_mem_of_ne_nil _ (splitOn_ne_nil str)
    exact absurd (hall line hl) (by simp [everywhere])
  first := by
    intro str l hl _ hfirst
    obtain ⟨seg, segs, hsegs⟩ := List.exists_cons_of_ne_nil (splitOn_ne_nil str)
    have hstart : ((0, seg) : Nat × Bytes) ∈ lines newline str := by
      rw [lines, hsegs]
      exact List.mem_cons_self
    have hzero : l.1 = 0 := by
      by_contra hne
      exact absurd (hfirst _ hstart (Nat.pos_of_ne_zero hne)) (by simp [everywhere])
    exact ⟨0, 0, rfl, by omega, by omega⟩

theorem simple_and_re2_regex_on_ab :
    simpleRegex emptyRegex record [97, 10, 98] [] = (.ok 2, [([97], true), ([98], true)]) ∧
    re2Regex everywhere record [97, 10, 98] [] = (.ok 2, [[97], [10], [98], [10]]) := by
  obtain ⟨hsimple, hre2, -⟩ := simple_and_re2_regex emptyRegex_lineLocal [97, 10, 98]
  rw [hsimple, hre2, feed_record, feed_record]
  exact ⟨by decide, by decide⟩

/-- The block `\ra\n\nb`. The first line loses its carriage return in the one, and the empty line is
left out by the other. -/
theorem simple_regex_differs_from_re2 :
    LineLocal everywhere emptyRegex ∧
    simpleRegex emptyRegex record [13, 97, 10, 10, 98] [] =
      (.ok 3, [([97], true), ([], true), ([98], true)]) ∧
    re2Regex everywhere record [13, 97, 10, 10, 98] [] = (.ok 2, [[13, 97], [10], [98], [10]]) := by
  refine ⟨emptyRegex_lineLocal, ?_, ?_⟩
  · rw [simple_regex_spec emptyRegex_lineLocal, feed_record]
    decide
  · rw [re2_regex_spec, feed_record]
    decide

end Nodes

end Omnipp.Transform
