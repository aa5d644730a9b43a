import Omnipp.Transform.Re2Regex
import Omnipp.Transform.VectorScan

/-! # The two engines of `grep`

`Re2Regex` goes over lines, `VectorScan` over match ends. A line with several match ends is
printed once by the one and several times by the other.
-/

open Omnipp.Lines Omnipp.Transform

namespace Omnipp.Grep

/-- What is assumed of `hs_scan` and of `PartialMatch` on one block. The ends are in order, each is
the end of a match that is not empty and inside a line, and a line matches when it has one. -/
structure Agree (partialMatch : Bytes → Bool) (data : Bytes) (ends : List Nat) : Prop where
  sorted : ends.Pairwise (· ≤ ·)
  inside : ∀ e ∈ ends, ∃ l ∈ lines newline data, Inside l e
  same : ∀ l ∈ lines newline data, partialMatch l.2 = true ↔ ∃ e ∈ ends, Inside l e

def hits (ends : List Nat) (l : Nat × Bytes) : Nat := (ends.filter (Inside l)).length

theorem hits_pos {ends : List Nat} {l : Nat × Bytes} : 0 < hits ends l ↔ ∃ e ∈ ends, Inside l e := by
  simp [hits, List.length_pos_iff_exists_mem]

/-- Each line as often as `times` says. -/
def repeated (times : Nat × Bytes → Nat) (ls : List (Nat × Bytes)) : List Bytes :=
  ls.flatMap fun l => List.replicate (times l) l.2

theorem length_repeated (times : Nat × Bytes → Nat) (ls : List (Nat × Bytes)) :
    (repeated times ls).length = (ls.map times).sum := by
  simp [repeated, List.length_flatMap]

/-! ## What the two print -/

variable {partialMatch : Bytes → Bool} {data : Bytes} {ends : List Nat}

theorem Agree.by_line (h : Agree partialMatch data ends) :
    ends = (lines newline data).flatMap fun l => ends.filter (Inside l) :=
  ends_by_line h.sorted h.inside

theorem vector_scan_prints (h : Agree partialMatch data ends) {hsScan : Bytes → Option (List Nat)}
    (hscan : hsScan data = some ends) {σ : Type} (next : Stage Bytes σ) (s : σ) :
    vectorScan hsScan next data s =
      andThen (feed next (printed (repeated (hits ends) (lines newline data))) s) fun _ t =>
        (.ok ends.length, t) := by
  have hlines : emitted hsScan data = repeated (hits ends) (lines newline data) := by
    rw [h.by_line] at hscan
    refine emitted_by_line hscan fun l hl e he => ?_
    obtain ⟨hlt, hle⟩ : Inside l e := by simpa using (List.mem_filter.mp he).2
    exact ⟨Nat.le_of_lt hlt, hle⟩
  rw [vector_scan_spec next hscan, hlines]

theorem matching_eq_repeated (h : Agree partialMatch data ends) :
    matching partialMatch data =
      repeated (fun l => min 1 (hits ends l)) (lines newline data) := by
  rw [matching, ← map_lines]
  have hsame := h.same
  generalize lines newline data = ls at hsame
  induction ls with
  | nil => rfl
  | cons l ls ih =>
    have hrest := ih fun l' hl' => hsame l' (List.mem_cons_of_mem l hl')
    have hl := (hsame l List.mem_cons_self).trans hits_pos.symm
    by_cases hpos : 0 < hits ends l
    · obtain ⟨e, -, hlt, hle⟩ := hits_pos.mp hpos
      have hne : l.2 ≠ [] := List.length_pos_iff.mp (by omega)
      rw [List.map_cons, List.filter_cons_of_pos (by simp [hne, hl.mpr hpos]), hrest, repeated,
        repeated, List.flatMap_cons, Nat.min_eq_left hpos]
      rfl
    · rw [List.map_cons, List.filter_cons_of_neg (by simp [mt hl.mp hpos]), hrest, repeated, repeated,
        List.flatMap_cons, Nat.min_eq_right (by omega), show hits ends l = 0 by omega]
      rfl

/-! ## When they agree -/

theorem sum_min_le (times : Nat × Bytes → Nat) (ls : List (Nat × Bytes)) :
    (ls.map fun l => min 1 (times l)).sum ≤ (ls.map times).sum := by
  induction ls with
  | nil => simp
  | cons l ls ih =>
    simp only [List.map_cons, List.sum_cons]
    omega

theorem le_one_of_sum_min {times : Nat × Bytes → Nat} {ls : List (Nat × Bytes)}
    (h : (ls.map times).sum = (ls.map fun l => min 1 (times l)).sum) : ∀ l ∈ ls, times l ≤ 1 := by
  induction ls with
  | nil => simp
  | cons l ls ih =>
    simp only [List.map_cons, List.sum_cons] at h
    have hle := sum_min_le times ls
    intro l' hl'
    rcases List.mem_cons.mp hl' with rfl | hl'
    · omega
    · exact ih (by omega) l' hl'

/-- The two nodes make the same calls and return the same count, whatever is behind them, exactly
when no line has two match ends. -/
theorem engines_agree_iff (h : Agree partialMatch data ends) (hsScan : Bytes → Option (List Nat))
    (hscan : hsScan data = some ends) :
    (∀ (σ : Type) (next : Stage Bytes σ) (s : σ),
      vectorScan hsScan next data s = re2Regex partialMatch next data s) ↔
      ∀ l ∈ lines newline data, hits ends l ≤ 1 := by
  have hlen : ends.length = ((lines newline data).map (hits ends)).sum := by
    conv_lhs => rw [h.by_line]
    rw [List.length_flatMap]
    rfl
  constructor
  · intro hall
    have hrec := congrArg Prod.fst (hall _ record [])
    rw [vector_scan_prints h hscan, re2_regex_spec, feed_record, feed_record] at hrec
    simp only [andThen_ok, Except.ok.injEq] at hrec
    rw [matching_eq_repeated h, length_repeated, hlen] at hrec
    exact le_one_of_sum_min hrec
  · intro hone σ next s
    have hrep : repeated (hits ends) (lines newline data) = matching partialMatch data := by
      rw [matching_eq_repeated h]
      apply List.flatMap_congr
      intro l hl
      simp only [Nat.min_eq_right (hone l hl)]
    rw [vector_scan_prints h hscan, re2_regex_spec, hrep, hlen, ← length_repeated, hrep]

/-- The pattern `a`: every `a` is a match. -/
def scanForA (data : Bytes) : Option (List Nat) :=
  some ((data.zipIdx.filter fun x => x.1 = 97).map fun x => x.2 + 1)

def matchesA (line : Bytes) : Bool := line.contains 97

theorem engines_agree_on_one_a :
    (∀ l ∈ lines newline [97, 98, 10], hits [1] l ≤ 1) ∧
    ∀ (σ : Type) (next : Stage Bytes σ) (s : σ),
      vectorScan scanForA next [97, 98, 10] s = re2Regex matchesA next [97, 98, 10] s := by
  have hone : ∀ l ∈ lines newline [97, 98, 10], hits [1] l ≤ 1 := by decide
  exact ⟨hone, (engines_agree_iff ⟨by decide, by decide, by decide⟩ scanForA rfl).mpr hone⟩

/-- On the line `aa` both ends are reported, and the line is printed twice. -/
theorem engines_differ_on_aa :
    Agree matchesA [97, 97] [1, 2] ∧ scanForA [97, 97] = some [1, 2] ∧
    vectorScan scanForA record [97, 97] [] = (.ok 2, [[97, 97], [10], [97, 97], [10]]) ∧
    re2Regex matchesA record [97, 97] [] = (.ok 1, [[97, 97], [10]]) := by
  refine ⟨⟨by decide, by decide, by decide⟩, by decide, by decide, ?_⟩
  rw [re2_regex_spec]
  decide

end Omnipp.Grep
