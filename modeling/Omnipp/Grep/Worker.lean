import Omnipp.Source.ReadFile
import Omnipp.Transform.Batch
import Omnipp.Transform.VectorScan

/-! # The pipeline of one `grep` worker

`ReadFile | VectorScan | Batch | next`, run on one file after the other, and flushed when the
worker has left its loop.
-/

open Omnipp.Source Omnipp.Transform

namespace Omnipp.Grep

variable {σ : Type}

/-- What `impl::Processor::worker` does with its pipeline. `execute` throws on an error, so the flush
is not reached then. The result of the flush is not looked at. -/
def worker (hsScan : Bytes → Option (List Nat)) (next : Stage Bytes σ) :
    List Reader → Bytes × σ → Except String Unit × Bytes × σ
  | [], st => (.ok (), (flush next st).2)
  | file :: files, st =>
    andThen (outcome (readFile (vectorScan hsScan (batch next)) 0 (file, st))) fun _ t =>
      worker hsScan next files t

/-- What `VectorScan` gives to `Batch` for the blocks, and whether `hs_scan` did all of them. -/
def scanned (hsScan : Bytes → Option (List Nat)) : List Bytes → List Bytes × Bool
  | [] => ([], true)
  | block :: blocks =>
    match hsScan block with
    | none => ([], false)
    | some _ => (printed (emitted hsScan block) ++ (scanned hsScan blocks).1, (scanned hsScan blocks).2)

theorem feed_vectorScan (hsScan : Bytes → Option (List Nat)) (blocks : List Bytes) :
    ∃ r : Expected, ((scanned hsScan blocks).2 = true ↔ ¬ Fails r) ∧
      ∀ {σ : Type} (next : Stage Bytes σ) (s : σ), feed (vectorScan hsScan next) blocks s =
        andThen (feed next (scanned hsScan blocks).1 s) fun _ t => (r, t) := by
  induction blocks with
  | nil => exact ⟨.ok 0, by simp [scanned, ok_not_fails], fun next s => by simp [feed, scanned]⟩
  | cons block blocks ih =>
    obtain ⟨r, hr, hfeed⟩ := ih
    cases hs : hsScan block with
    | none =>
      refine ⟨.error "failed to parse input", ?_, fun next s => ?_⟩
      · simp [scanned, hs, Fails]
      · simp [feed, scanned, hs, vectorScan]
    | some ends =>
      have hnext : ∀ {σ : Type} (next : Stage Bytes σ) (s : σ),
          feed (vectorScan hsScan next) (block :: blocks) s =
            andThen (feed next (scanned hsScan (block :: blocks)).1 s) fun _ t =>
              andThen (r, t) fun m u => (.ok (ends.length + m), u) := by
        intro σ next s
        rw [feed, vector_scan_spec next hs]
        simp [scanned, hs, feed_append, andThen_assoc, hfeed]
      cases r with
      | error e =>
        refine ⟨.error e, ?_, hnext⟩
        simpa [scanned, hs] using hr
      | ok m =>
        refine ⟨.ok (ends.length + m), ?_, hnext⟩
        simpa [scanned, hs, ok_not_fails] using hr

abbrev CutFile := Σ content : Bytes, Cut content

def blocksOf (files : List CutFile) : List Bytes := files.flatMap fun f => f.2.blocks

def linesOf (hsScan : Bytes → Option (List Nat)) (files : List CutFile) : List Bytes :=
  (blocksOf files).flatMap (emitted hsScan)

def Scans (hsScan : Bytes → Option (List Nat)) (files : List CutFile) : Prop :=
  ∀ b ∈ blocksOf files, hsScan b ≠ none

section Run
variable {hsScan : Bytes → Option (List Nat)} {next : Stage Bytes σ}

theorem scanned_eq {blocks : List Bytes} (hscan : ∀ b ∈ blocks, hsScan b ≠ none) :
    scanned hsScan blocks = (printed (blocks.flatMap (emitted hsScan)), true) := by
  induction blocks with
  | nil => rfl
  | cons b blocks ih =>
    obtain ⟨ends, hends⟩ := Option.ne_none_iff_exists'.mp (hscan b List.mem_cons_self)
    have hrest := ih fun b' hb' => hscan b' (List.mem_cons_of_mem b hb')
    simp only [scanned, hends, hrest, List.flatMap_cons, printed_append]

theorem feed_blocks {blocks : List Bytes} (hscan : ∀ b ∈ blocks, hsScan b ≠ none) {buffer : Bytes}
    {s t : σ} {n : Nat}
    (h : feed next (filled buffer (printed (blocks.flatMap (emitted hsScan)))).1 s = (.ok n, t)) :
    ∃ m, feed (vectorScan hsScan (batch next)) blocks (buffer, s) =
      (.ok m, (filled buffer (printed (blocks.flatMap (emitted hsScan)))).2, t) := by
  obtain ⟨r, hr, hfeed⟩ := feed_vectorScan hsScan blocks
  rw [scanned_eq hscan] at hr hfeed
  cases r with
  | error e => exact absurd ⟨e, rfl⟩ (hr.mp rfl)
  | ok m => exact ⟨m, by rw [hfeed, feed_batch h, andThen_ok]⟩

theorem worker_spec {files : List CutFile} (hscan : Scans hsScan files) {buffer : Bytes} {s t : σ}
    {n : Nat} (h : feed next (filled buffer (printed (linesOf hsScan files))).1 s = (.ok n, t)) :
    worker hsScan next (files.map fun f => f.2.reader) (buffer, s) =
      (.ok (), (flush next ((filled buffer (printed (linesOf hsScan files))).2, t)).2) := by
  induction files generalizing buffer s n with
  | nil =>
    simp only [linesOf, blocksOf, List.flatMap_nil, printed, filled, feed, Prod.mk.injEq] at h
    rw [← h.2]
    rfl
  | cons f files ih =>
    have hlines : linesOf hsScan (f :: files) =
        f.2.blocks.flatMap (emitted hsScan) ++ linesOf hsScan files := by
      simp [linesOf, blocksOf]
    rw [hlines, printed_append, filled_append] at h ⊢
    obtain ⟨m, u, k, hhead, hrest, rfl⟩ := feed_append_ok h
    have hblocks : ∀ b ∈ f.2.blocks, hsScan b ≠ none := by
      intro b hb
      exact hscan b (by simp [blocksOf, hb])
    obtain ⟨m', hm'⟩ := feed_blocks hblocks hhead
    have hfiles : Scans hsScan files := by
      intro b hb
      exact hscan b (by simp only [blocksOf, List.flatMap_cons, List.mem_append]; exact .inr hb)
    rw [List.map_cons, worker, read_file_cut, hm', andThen_ok, ih hfiles hrest]

end Run

def sinkCalls (hsScan : Bytes → Option (List Nat)) (files : List CutFile) : List Bytes :=
  (worker hsScan record (files.map fun f => f.2.reader) ([], [])).2.2

theorem sinkCalls_eq {hsScan : Bytes → Option (List Nat)} {files : List CutFile}
    (hscan : Scans hsScan files) :
    sinkCalls hsScan files = payloads (printed (linesOf hsScan files)) := by
  rw [sinkCalls, worker_spec hscan (feed_record _ _)]
  rfl

/-! ## Text of lines -/

/-- Lines, each with its newline. -/
def text (lines : List Bytes) : Bytes := lines.flatMap fun line => line ++ [newline]

theorem printed_flatten (lines : List Bytes) : (printed lines).flatten = text lines := by
  induction lines with
  | nil => rfl
  | cons line lines ih =>
    simp only [printed, text, List.flatMap_cons, List.flatten_append] at ih ⊢
    rw [ih]
    simp

/-- The first byte of a block is a match. -/
def scanFirst : Bytes → Option (List Nat) := fun _ => some [1]

theorem scanFirst_scans (b : Bytes) : scanFirst b ≠ none := Option.some_ne_none [1]

end Omnipp.Grep
