import Mathlib.Algebra.Order.BigOperators.Group.Finset
import Mathlib.Algebra.BigOperators.Ring.Finset
import Omnipp.Grep.Output

/-!
# How often the workers write

`Batch` is there so that the workers seldom meet at the mutex of the sink: a worker goes there once
for every buffer that its lines fill, and once when it has left its loop.
-/

open Omnipp.Lines Omnipp.Transform

namespace Omnipp.Grep

theorem length_le_flatten {size : Nat} {payloads : List Bytes} (h : ∀ b ∈ payloads, size ≤ b.length) :
    size * payloads.length ≤ payloads.flatten.length := by
  induction payloads with
  | nil => simp
  | cons b payloads ih =>
    have hb := h b List.mem_cons_self
    have hrest := ih fun b' hb' => h b' (List.mem_cons_of_mem b hb')
    rw [List.length_cons, List.flatten_cons, List.length_append, Nat.mul_add, Nat.mul_one]
    omega

theorem sinkCalls_sizes {hsScan : Bytes → Option (List Nat)} {files : List CutFile}
    (hscan : Scans hsScan files) {longest : Nat}
    (hline : ∀ line ∈ linesOf hsScan files, line.length ≤ longest) :
    ∃ full last, sinkCalls hsScan files = full ++ [last] ∧ last.length < bufferSize ∧
      ∀ b ∈ full, bufferSize ≤ b.length ∧ b.length < bufferSize + max longest 1 := by
  have hpushes : ∀ p ∈ printed (linesOf hsScan files), p.length ≤ max longest 1 := by
    intro p hp
    obtain ⟨line, hmem, hp⟩ := List.mem_flatMap.mp hp
    have hlen := hline line hmem
    simp only [List.mem_cons, List.not_mem_nil, or_false] at hp
    rcases hp with rfl | rfl
    · omega
    · rw [List.length_singleton]
      omega
  obtain ⟨hfull, hlast⟩ := @filled_sizes _ [] _ (by decide) hpushes
  exact ⟨_, _, sinkCalls_eq hscan, hlast, hfull⟩

/-- Every payload of a worker but its last is a full buffer and no longer than one line more, and the
last is less than a buffer. So the workers write once for every 64 KiB of lines, and once each. -/
theorem writes_are_batched {ι : Type} [Fintype ι] (hsScan : Bytes → Option (List Nat))
    (files : ι → List CutFile) (hscan : ∀ i, Scans hsScan (files i)) (longest : Nat)
    (hline : ∀ i, ∀ line ∈ linesOf hsScan (files i), line.length ≤ longest) :
    (∀ i, ∃ full last, sinkCalls hsScan (files i) = full ++ [last] ∧ last.length < bufferSize ∧
      ∀ b ∈ full, bufferSize ≤ b.length ∧ b.length < bufferSize + max longest 1) ∧
    bufferSize * ∑ i, (sinkCalls hsScan (files i)).length ≤
      ∑ i, (text (linesOf hsScan (files i))).length + bufferSize * Fintype.card ι := by
  have hsizes := fun i => sinkCalls_sizes (hscan i) (hline i)
  refine ⟨hsizes, ?_⟩
  have hone : ∀ i, bufferSize * (sinkCalls hsScan (files i)).length ≤
      (text (linesOf hsScan (files i))).length + bufferSize := by
    intro i
    obtain ⟨full, last, hcalls, -, hfull⟩ := hsizes i
    have hmany := length_le_flatten fun b hb => (hfull b hb).1
    have htext : full.flatten.length + last.length = (text (linesOf hsScan (files i))).length := by
      rw [← payloads_text, ← sinkCalls_eq (hscan i), hcalls]
      simp
    rw [hcalls, List.length_append, List.length_singleton, Nat.mul_add, Nat.mul_one]
    omega
  calc bufferSize * ∑ i, (sinkCalls hsScan (files i)).length
      = ∑ i, bufferSize * (sinkCalls hsScan (files i)).length := Finset.mul_sum _ _ _
    _ ≤ ∑ i, ((text (linesOf hsScan (files i))).length + bufferSize) :=
        Finset.sum_le_sum fun i _ => hone i
    _ = ∑ i, (text (linesOf hsScan (files i))).length + bufferSize * Fintype.card ι := by
        rw [Finset.sum_add_distrib, Finset.sum_const_nat fun _ _ => rfl, Finset.card_univ, Nat.mul_comm]

/-! ## A line as long as the buffer -/

theorem linesOf_whole {line : Bytes} (hclean : newline ∉ line) (hne : line ≠ [])
    (hsmall : line.length ≤ Source.maxSize) :
    linesOf scanFirst [⟨line, .whole hne hsmall⟩] = [line] := by
  have hline : IsLine newline line 0 line := ⟨⟨[], [], by simp, rfl, .inl rfl, .inl rfl⟩, hclean⟩
  have hpos := List.length_pos_iff.mpr hne
  exact congrArg (fun l => [l]) (lineAt_line hline (Nat.zero_le 1) (by omega))

/-- The files with the lines of `longAndShort`. -/
def longAndShortFiles : Bool → List CutFile
  | true =>
    [⟨List.replicate 65536 97, .whole (List.cons_ne_nil _ _) (by rw [List.length_replicate]; decide)⟩]
  | false => [⟨[98], .whole (List.cons_ne_nil _ _) (by decide)⟩]

theorem longAndShortFiles_lines (i : Bool) :
    linesOf scanFirst (longAndShortFiles i) = longAndShort i := by
  cases i
  · exact linesOf_whole (by decide) _ _
  · exact linesOf_whole (fun h => absurd (List.eq_of_mem_replicate h) (by decide)) _ _

/-- The worker with the long line goes to the sink twice: with the full buffer, and with the newline. -/
theorem writes_are_batched_of_a_long_line :
    (sinkCalls scanFirst (longAndShortFiles true)).length = 2 ∧
    (∃ full last, sinkCalls scanFirst (longAndShortFiles true) = full ++ [last] ∧
      last.length < bufferSize ∧
      ∀ b ∈ full, bufferSize ≤ b.length ∧ b.length < bufferSize + max 65536 1) ∧
    bufferSize * ∑ i, (sinkCalls scanFirst (longAndShortFiles i)).length ≤
      ∑ i, (text (linesOf scanFirst (longAndShortFiles i))).length +
        bufferSize * Fintype.card Bool := by
  have hscan : ∀ i, Scans scanFirst (longAndShortFiles i) := fun i b _ => scanFirst_scans b
  have hline : ∀ i, ∀ line ∈ linesOf scanFirst (longAndShortFiles i), line.length ≤ 65536 := by
    intro i line hmem
    rw [longAndShortFiles_lines] at hmem
    cases i <;> rw [List.mem_singleton.mp hmem]
    · decide
    · rw [List.length_replicate]
  have hfull : bufferSize ≤ ([] ++ List.replicate 65536 (97 : UInt8)).length := by
    rw [List.nil_append, List.length_replicate]
    decide
  have hcalls : (sinkCalls scanFirst (longAndShortFiles true)).length = 2 := by
    rw [sinkCalls_eq (hscan true), longAndShortFiles_lines]
    change (payloads [List.replicate 65536 97, [newline]]).length = 2
    rw [payloads, filled_full _ hfull]
    rfl
  obtain ⟨hsizes, hsum⟩ := writes_are_batched _ longAndShortFiles hscan 65536 hline
  exact ⟨hcalls, hsizes true, hsum⟩

end Omnipp.Grep
