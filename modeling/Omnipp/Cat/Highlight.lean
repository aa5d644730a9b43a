import Mathlib.Data.List.Forall2
import Omnipp.Sink.Write
import Omnipp.Source.ReadFile
import Omnipp.Transform.TreeSitter

/-! # The highlighting of `cat`

`ReadFile | TreeSitter | Write` puts colour codes between the bytes of the file and changes
nothing else.
-/

open Omnipp.Source Omnipp.Sink Omnipp.Transform

namespace Omnipp.Cat

/-! ## The output -/

/-- What the node makes of a block, with a mark on every byte that it put in. -/
def marked (runs : List (UInt8 × Bytes)) : List (Bool × Byte) :=
  runs.flatMap (fun r => (codeOf r.1).map (true, ·) ++ r.2.map (false, ·)) ++ reset.map (true, ·)

theorem marked_bytes (runs : List (UInt8 × Bytes)) : (marked runs).map Prod.snd = rendered runs := by
  simp [marked, rendered, List.map_flatMap, Function.comp_def]

theorem marked_source (runs : List (UInt8 × Bytes)) :
    ((marked runs).filter fun b => !b.1).map Prod.snd = (runs.map Prod.snd).flatten := by
  simp [marked, List.filter_map, Function.comp_def, List.flatMap_def]

/-- The runs of every block. -/
theorem runs_of_blocks {ts : TreeSitter} {names : List String} {captures : Bytes → List Capture}
    {blocks : List Bytes} (h : ∀ b ∈ blocks, ts.Works names b (captures b)) :
    ∃ runs : List (List (UInt8 × Bytes)),
      List.Forall₂ (fun b rs => IsRuns (colourAt names (captures b)) b rs) blocks runs ∧
      ∀ {σ : Type} (next : Stage Bytes σ) (s : σ),
        feed (treeSitter ts next) blocks s = feed next (runs.map rendered) s := by
  induction blocks with
  | nil => exact ⟨[], .nil, fun _ _ => rfl⟩
  | cons block blocks ih =>
    obtain ⟨rs, hruns, hnode⟩ := tree_sitter_spec (h block List.mem_cons_self)
    obtain ⟨runs, hrest, hfeed⟩ := ih fun b hb => h b (List.mem_cons_of_mem block hb)
    refine ⟨rs :: runs, .cons hruns hrest, fun next s => ?_⟩
    simp only [feed, List.map_cons, hnode, hfeed]

theorem source_of_runs {colour : Bytes → Nat → UInt8} {blocks : List Bytes}
    {runs : List (List (UInt8 × Bytes))}
    (h : List.Forall₂ (fun b rs => IsRuns (colour b) b rs) blocks runs) :
    ((runs.flatMap marked).filter fun b => !b.1).map Prod.snd = blocks.flatten := by
  induction h with
  | nil => rfl
  | cons hruns _ ih =>
    rw [List.flatMap_cons, List.filter_append, List.map_append, ih, marked_source, hruns.joined,
      List.flatten_cons]

/-- Every block is passed on in its longest runs of one colour, each behind its code. Without the
bytes that were put in, stdout is the file. -/
theorem highlighting_only_inserts {content : Bytes} (cut : Cut content) (ts : TreeSitter)
    (names : List String) (captures : Bytes → List Capture) (size : Nat)
    (hts : ∀ b ∈ cut.blocks, ts.Works names b (captures b)) :
    ∃ runs : List (List (UInt8 × Bytes)),
      List.Forall₂ (fun b rs => IsRuns (colourAt names (captures b)) b rs) cut.blocks runs ∧
      (∀ {σ : Type} (next : Stage Bytes σ) (s : σ),
        outcome (readFile (treeSitter ts next) size (cut.reader, s)) =
          feed next (runs.map rendered) s) ∧
      ∀ wants : Nat → Nat,
        let out : Stdout := { bytes := [], writes := fun i => .ok (wants i) }
        let r := readFile (treeSitter ts (write false)) size (cut.reader, out)
        r.1 = .ok (runs.map rendered).flatten.length ∧
        r.2.2.bytes = (runs.flatMap marked).map Prod.snd ∧
        ((runs.flatMap marked).filter fun b => !b.1).map Prod.snd = content := by
  obtain ⟨runs, hruns, hfeed⟩ := runs_of_blocks hts
  refine ⟨runs, hruns, fun next s => ?_, fun wants => ?_⟩
  · rw [read_file_cut, hfeed]
  · intro out r
    have hr : outcome r = feed (write false) (runs.map rendered) out := by
      rw [← hfeed]
      exact read_file_cut cut (treeSitter ts (write false)) size out
    obtain ⟨o, ho, hbytes⟩ := feed_write (o := out) (runs.map rendered) fun i => ok_not_fails (wants i)
    rw [ho] at hr
    refine ⟨congrArg Prod.fst hr, ?_, ?_⟩
    · have hout : r.2.2 = o := congrArg Prod.snd hr
      rw [hout, hbytes, List.map_flatMap]
      simp only [marked_bytes]
      rfl
    · rw [source_of_runs hruns, cut.joined]

/-- A library that calls the first byte of every block a keyword, and then all of it a string. -/
def keywordThenString : TreeSitter where
  parser := true
  language := true
  query := .ok ["keyword", "string"]
  cursor := true
  parse data := some [⟨0, 0, min 1 data.length⟩, ⟨1, 0, data.length⟩]

/-- The captures that it reports. -/
def firstAndAll (data : Bytes) : List Capture := [⟨0, 0, min 1 data.length⟩, ⟨1, 0, data.length⟩]

/-- The file `ab`, in two blocks. -/
theorem highlighting_only_inserts_in_ab :
    (∀ b ∈ [[97], [98]], keywordThenString.Works ["keyword", "string"] b (firstAndAll b)) ∧
    ∃ runs : List (List (UInt8 × Bytes)),
      List.Forall₂ (fun b rs => IsRuns (colourAt ["keyword", "string"] (firstAndAll b)) b rs)
        [[97], [98]] runs ∧
      ((runs.flatMap marked).filter fun b => !b.1).map Prod.snd = [97, 98] := by
  have hworks : ∀ b ∈ [[97], [98]], keywordThenString.Works ["keyword", "string"] b (firstAndAll b) := by
    intro b _
    refine ⟨rfl, rfl, rfl, rfl, rfl, ?_⟩
    intro c hc
    simp only [firstAndAll, List.mem_cons, List.not_mem_nil, or_false] at hc
    rcases hc with rfl | rfl
    · exact ⟨Nat.zero_le _, Nat.min_le_right _ _⟩
    · exact ⟨Nat.zero_le _, Nat.le_refl _⟩
  obtain ⟨runs, hruns, -, hout⟩ := highlighting_only_inserts
    (⟨[[97], [98]], rfl, by decide, by decide⟩ : Cut [97, 98]) keywordThenString ["keyword", "string"]
    firstAndAll 2 hworks
  exact ⟨hworks, runs, hruns, (hout fun _ => 1).2.2⟩

end Omnipp.Cat
