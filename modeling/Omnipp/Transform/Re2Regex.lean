import Omnipp.Lib.Lines
import Omnipp.Lib.Loop
import Omnipp.Pipeline

/-! # `transform::Re2Regex` -/

open Omnipp.Lines

namespace Omnipp.Transform

variable {σ : Type}

/-- The loop of `Re2RegexNode::operator()`, over `found` and `remaining`. -/
def re2Loop (partialMatch : Bytes → Bool) (next : Stage Bytes σ) :
    Loop (Nat × Bytes × σ) (Expected × σ) where
  body st :=
    let (found, remaining, s) := st
    if remaining = [] then .leave (.ok found, s)
    else
      let newlinePos := find newline remaining 0
      let line := remaining.take (newlinePos.getD remaining.length)
      let res : Expected × σ :=
        if line ≠ [] ∧ partialMatch line then
          andThen (printLine next line s) fun _ t => (.ok (found + 1), t)
        else (.ok found, s)
      match res with
      | (.error e, t) => .leave (.error e, t)
      | (.ok found, t) =>
        match newlinePos with
        | none => .leave (.ok found, t)
        | some pos => .again (found, remaining.drop (pos + 1), t)
  rank st := st.2.1.length
  falls := by
    rintro ⟨found, remaining, s⟩ st h
    simp only at h
    split at h
    · cases h
    · rename_i hne
      have := List.length_pos_iff.mpr hne
      split at h
      · cases h
      · split at h <;> cases h
        simp only [List.length_drop]
        omega

/-- `Re2RegexNode::operator()` -/
def re2Regex (partialMatch : Bytes → Bool) (next : Stage Bytes σ) : Stage Bytes σ := fun data s =>
  (re2Loop partialMatch next).run (0, data, s)

/-! ## What it prints -/

def matching (partialMatch : Bytes → Bool) (data : Bytes) : List Bytes :=
  (data.splitOn newline).filter fun line => line ≠ [] ∧ partialMatch line

theorem re2_line (partialMatch : Bytes → Bool) (next : Stage Bytes σ) {seg : Bytes}
    (hseg : newline ∉ seg) (rest : Bytes) (found : Nat) (s : σ) :
    (re2Loop partialMatch next).run (found, seg ++ newline :: rest, s) =
      if seg ≠ [] ∧ partialMatch seg then
        andThen (printLine next seg s) fun _ t => (re2Loop partialMatch next).run (found + 1, rest, t)
      else (re2Loop partialMatch next).run (found, rest, s) := by
  have hfind : find newline (seg ++ newline :: rest) 0 = some seg.length := by
    simpa using find_append hseg []
  have hbody : (re2Loop partialMatch next).body (found, seg ++ newline :: rest, s) =
      match (if seg ≠ [] ∧ partialMatch seg then
          andThen (printLine next seg s) fun _ t => (.ok (found + 1), t)
        else (.ok found, s) : Expected × σ) with
      | (.error e, t) => .leave (.error e, t)
      | (.ok found, t) => .again (found, rest, t) := by
    simp [re2Loop, hfind]
  split
  · rename_i hm
    rw [if_pos hm] at hbody
    rcases hp : printLine next seg s with ⟨e | n, t⟩
    · rw [hp] at hbody
      exact Loop.run_leave _ hbody
    · rw [hp] at hbody
      exact Loop.run_again _ hbody
  · rename_i hm
    rw [if_neg hm] at hbody
    exact Loop.run_again _ hbody

theorem re2_last (partialMatch : Bytes → Bool) (next : Stage Bytes σ) {seg : Bytes}
    (hseg : newline ∉ seg) (found : Nat) (s : σ) :
    (re2Loop partialMatch next).run (found, seg, s) =
      if seg ≠ [] ∧ partialMatch seg then
        andThen (printLine next seg s) fun _ t => (.ok (found + 1), t)
      else (.ok found, s) := by
  have hfind : find newline seg 0 = none := find_none (by simpa using hseg)
  apply Loop.run_leave
  by_cases hs : seg = []
  · simp [re2Loop, hs]
  · simp only [re2Loop, hfind, hs, Option.getD_none, List.take_length]
    rw [if_neg (by simp)]
    split <;> simp_all

/-- `Re2Regex` prints the matching lines in order, until the first error, and counts them. -/
theorem re2_regex_spec (partialMatch : Bytes → Bool) (next : Stage Bytes σ) (data : Bytes) (s : σ) :
    re2Regex partialMatch next data s =
      andThen (feed next (printed (matching partialMatch data)) s) fun _ t =>
        (.ok (matching partialMatch data).length, t) := by
  have hrun : ∀ found s, (re2Loop partialMatch next).run (found, data, s) =
      andThen (feed next (printed (matching partialMatch data)) s) fun _ t =>
        (.ok (found + (matching partialMatch data).length), t) := by
    induction data using line_induction newline with
    | last seg hseg =>
      intro found s
      rw [re2_last partialMatch next hseg, matching, List.splitOn_eq_singleton hseg]
      split
      · rename_i hm
        rw [List.filter_cons_of_pos (by simpa using hm), feed_printed_cons]
        rfl
      · rename_i hm
        rw [List.filter_cons_of_neg (by simpa using hm)]
        rfl
    | step seg rest hseg ih =>
      intro found s
      rw [re2_line partialMatch next hseg, matching, List.splitOn_append_cons_self_of_not_mem hseg]
      split
      · rename_i hm
        rw [List.filter_cons_of_pos (by simpa using hm), feed_printed_cons]
        simp only [ih, List.length_cons, Nat.add_assoc, Nat.add_comm 1, matching]
      · rename_i hm
        rw [List.filter_cons_of_neg (by simpa using hm), ih]
        rfl
  simpa [re2Regex] using hrun 0 s

/-- `Re2Regex` passes on every matching line and a newline behind it, in order, and returns how many
lines it were. When a call fails, it is the last one, and its error is returned. -/
theorem re2_regex_emits (partialMatch : Bytes → Bool) (answers : List Bytes → Expected) (data : Bytes) :
    let calls := printed (matching partialMatch data)
    let r := re2Regex partialMatch (answering answers) data []
    (Accepted answers calls calls.length → r = (.ok (matching partialMatch data).length, calls)) ∧
    ∀ j < calls.length, ∀ e, Accepted answers calls j → answers (calls.take (j + 1)) = .error e →
      r = (.error e, calls.take (j + 1)) := by
  intro calls r
  have hr : r = andThen (feed (answering answers) calls []) fun _ t =>
      (.ok (matching partialMatch data).length, t) := re2_regex_spec partialMatch _ data []
  constructor
  · intro hok
    obtain ⟨n, hn⟩ := feed_accepted hok
    rw [hr, hn, andThen_ok]
  · intro j hj e hok he
    rw [hr, feed_rejected hj hok he, andThen_error]

/-- The newline behind the first line fails: `b` is not reached. -/
theorem re2_regex_emits_until_failure :
    let answers : List Bytes → Expected := fun calls =>
      if calls.length = 2 then .error "failed to write" else .ok 1
    re2Regex (fun _ => true) (answering answers) [97, 10, 10, 98] [] =
      (.error "failed to write", [[97], [10]]) := by
  intro answers
  refine (re2_regex_emits (fun _ => true) answers [97, 10, 10, 98]).2 1 (by decide) _ ?_ rfl
  intro k hk
  have hk : k = 0 := by omega
  subst hk
  exact ⟨1, rfl⟩

end Omnipp.Transform
