import Omnipp.Lib.Blocks
import Omnipp.Source.ReadFile
import Omnipp.Transform.VectorScan

/-! # `ReadFile | VectorScan` over the blocks of a file

`VectorScan` takes the end of a block for the end of a line. `ReadFile` carries nothing over
from one block to the next.
-/

open Omnipp.Lines Omnipp.Source Omnipp.Transform

namespace Omnipp.Grep

/-- A pattern whose matches stay inside a line: the ends it has in a segment without a newline. It
matches no empty string, which `hs_compile` rejects without `HS_FLAG_ALLOWEMPTY`. -/
structure Pattern where
  ends : Bytes → List Nat
  sorted : ∀ seg, (ends seg).Pairwise (· < ·)
  inside : ∀ seg, ∀ e ∈ ends seg, 0 < e ∧ e ≤ seg.length

namespace Pattern

/-- `hs_scan` on a block: the match ends of its segments, in order. -/
def hsScan (p : Pattern) (block : Bytes) : Option (List Nat) :=
  some ((lines newline block).flatMap fun l => (p.ends l.2).map (l.1 + ·))

def reported (p : Pattern) (seg : Bytes) : List Bytes := List.replicate (p.ends seg).length seg

theorem ends_nil (p : Pattern) : p.ends [] = [] := by
  apply List.eq_nil_iff_forall_not_mem.mpr
  intro e he
  have := p.inside [] e he
  simp only [List.length_nil] at this
  omega

theorem emitted_eq (p : Pattern) (block : Bytes) :
    emitted p.hsScan block = (block.splitOn newline).flatMap p.reported := by
  rw [emitted_by_line rfl, ← map_lines, List.flatMap_map]
  · simp only [List.length_map]
    rfl
  · intro l hl e he
    obtain ⟨k, hk, rfl⟩ := List.mem_map.mp he
    have := p.inside l.2 k hk
    omega

def found (p : Pattern) (blocks : List Bytes) : List Bytes := (pieces newline blocks).flatMap p.reported

theorem flatMap_reported (p : Pattern) (segs : List Bytes) :
    (segs.filter (· ≠ [])).flatMap p.reported = segs.flatMap p.reported := by
  induction segs with
  | nil => rfl
  | cons seg segs ih =>
    by_cases hs : seg = []
    · simp only [hs, List.flatMap_cons, reported, p.ends_nil]
      simpa [reported] using ih
    · simpa [hs] using ih

theorem found_cons (p : Pattern) (block : Bytes) (blocks : List Bytes) :
    p.found (block :: blocks) = (block.splitOn newline).flatMap p.reported ++ p.found blocks := by
  rw [found, pieces_cons, List.flatMap_append, flatMap_reported]
  rfl

theorem feed_scan (p : Pattern) (blocks calls : List Bytes) :
    (feed (vectorScan p.hsScan record) blocks calls).2 = calls ++ printed (p.found blocks) := by
  induction blocks generalizing calls with
  | nil => simp [feed, found, pieces, printed]
  | cons block blocks ih =>
    have hrest := ih (calls ++ printed ((block.splitOn newline).flatMap p.reported))
    rw [feed, vector_scan_spec record rfl, p.emitted_eq, feed_record, andThen_ok, andThen_ok, found_cons,
      printed_append, ← List.append_assoc, ← hrest]
    rcases feed (vectorScan p.hsScan record) blocks _ with ⟨_ | _, _⟩ <;> rfl

def calls (p : Pattern) {content : Bytes} (cut : Cut content) (size : Nat) : List Bytes :=
  (readFile (vectorScan p.hsScan record) size (cut.reader, [])).2.2

theorem calls_eq (p : Pattern) {content : Bytes} (cut : Cut content) (size : Nat) :
    p.calls cut size = printed (p.found cut.blocks) := by
  have hcut := congrArg Prod.snd (read_file_cut cut (vectorScan p.hsScan record) size [])
  rw [feed_scan, List.nil_append] at hcut
  exact hcut

def callsOnWhole (p : Pattern) (content : Bytes) : List Bytes :=
  (vectorScan p.hsScan record content []).2

theorem callsOnWhole_eq (p : Pattern) (content : Bytes) :
    p.callsOnWhole content = printed (p.found [content]) := by
  have hone := p.feed_scan [content] []
  rw [List.nil_append] at hone
  rw [← hone, callsOnWhole, feed]
  rcases vectorScan p.hsScan record content [] with ⟨_ | _, _⟩ <;> rfl

/-- The pattern that matches up to the end of every line that is not empty: `.+$`. -/
def wholeLine : Pattern where
  ends seg := if seg = [] then [] else [seg.length]
  sorted := by
    intro seg
    split <;> simp
  inside := by
    intro seg e he
    split at he
    · simp at he
    · rename_i hs
      have := List.length_pos_iff.mpr hs
      simp only [List.mem_singleton] at he
      omega

theorem found_wholeLine (blocks : List Bytes) : wholeLine.found blocks = pieces newline blocks := by
  have hone : ∀ seg ∈ pieces newline blocks, wholeLine.reported seg = [seg] := by
    intro seg hseg
    simp [reported, wholeLine, pieces_ne_nil hseg]
  rw [found, List.flatMap_congr hone, List.flatMap_singleton']

end Pattern

/-- The pattern decides nothing: the calls are the same for all of them when the pieces are. -/
theorem found_eq_iff (blocks blocks' : List Bytes) :
    (∀ p : Pattern, printed (p.found blocks) = printed (p.found blocks')) ↔
      pieces newline blocks = pieces newline blocks' := by
  constructor
  · intro h
    rw [← Pattern.found_wholeLine, ← Pattern.found_wholeLine]
    exact printed_injective (h Pattern.wholeLine)
  · intro h p
    rw [Pattern.found, h, Pattern.found]

/-- Two ways to cut a file give the same calls for every pattern exactly when they cut lines at the
same places. A way to cut it gives the calls of the whole file exactly when it cuts no line. -/
theorem same_calls_iff_same_inner_cuts (content : Bytes) (cut cut' : Cut content) (size : Nat) :
    ((∀ p : Pattern, p.calls cut size = p.calls cut' size) ↔
      ∀ i, InnerCut newline cut.blocks i ↔ InnerCut newline cut'.blocks i) ∧
    ((∀ p : Pattern, p.calls cut size = p.callsOnWhole content) ↔
      ∀ i, ¬ InnerCut newline cut.blocks i) := by
  obtain ⟨hjoin, hfilled, hone⟩ := behind_nil content
  have hwhole : pieces newline [content] = pieces newline (behind content []) := by
    rw [pieces_behind, pieces_cons]
  have hnone := not_innerCut_of_length_le_one (d := newline) hone
  simp only [Pattern.calls_eq, Pattern.callsOnWhole_eq, found_eq_iff]
  constructor
  · exact pieces_eq_iff cut.filled cut'.filled cut.joined cut'.joined
  · rw [hwhole, pieces_eq_iff cut.filled hfilled cut.joined hjoin]
    exact forall_congr' fun i => iff_false_right (hnone i)

def oneBlock : Cut [97, 98] := ⟨[[97, 98]], rfl, by decide, by decide⟩

def twoBlocks : Cut [97, 98] := ⟨[[97], [98]], rfl, by decide, by decide⟩

/-- The line `ab` is printed as it is, or as the two lines `a` and `b`. -/
theorem calls_differ_on_ab :
    Pattern.wholeLine.calls oneBlock 2 = [[97, 98], [10]] ∧
    Pattern.wholeLine.calls twoBlocks 2 = [[97], [10], [98], [10]] ∧
    Pattern.wholeLine.callsOnWhole [97, 98] = [[97, 98], [10]] := by
  rw [Pattern.calls_eq, Pattern.calls_eq]
  decide

end Omnipp.Grep
