import Omnipp.Grep.Worker
import Omnipp.Sink.Write

/-!
# A worker that is left by an exception

`execute` throws when a file cannot be read. The file is not closed then, and what `Batch` still
holds of the files before it is not written.
-/

open Omnipp.Sink Omnipp.Source Omnipp.Transform

namespace Omnipp.Grep

variable {σ : Type}

/-- The worker with the descriptors it has open: each file has the one that `openat` returned. -/
def workerFds (hsScan : Bytes → Option (List Nat)) (next : Stage Bytes σ) :
    List (Nat × Reader) → List Nat × Bytes × σ → Except String Unit × List Nat × Bytes × σ
  | [], (fds, st) => (.ok (), fds, (flush next st).2)
  | (nextFile, file) :: files, (fds, st) =>
    let fds := nextFile :: fds
    match outcome (readFile (vectorScan hsScan (batch next)) 0 (file, st)) with
    | (.error e, t) => (.error e, fds, t)
    | (.ok _, t) => workerFds hsScan next files (fds.erase nextFile, t)

/-- Apart from the descriptors it is `worker`. -/
theorem workerFds_worker (hsScan : Bytes → Option (List Nat)) (next : Stage Bytes σ)
    (files : List (Nat × Reader)) (fds : List Nat) (st : Bytes × σ) :
    ((workerFds hsScan next files (fds, st)).1, (workerFds hsScan next files (fds, st)).2.2) =
      worker hsScan next (files.map Prod.snd) st := by
  induction files generalizing fds st with
  | nil => rfl
  | cons file files ih =>
    obtain ⟨nextFile, file⟩ := file
    rw [workerFds, List.map_cons, worker]
    rcases outcome (readFile (vectorScan hsScan (batch next)) 0 (file, st)) with ⟨e | n, t⟩
    · rfl
    · exact ih _ t

section Run
variable {hsScan : Bytes → Option (List Nat)} {next : Stage Bytes σ}

/-- The lines that `VectorScan` emits for blocks. -/
def blockLines (hsScan : Bytes → Option (List Nat)) (blocks : List Bytes) : List Bytes :=
  blocks.flatMap (emitted hsScan)

/-- A file that can be read is closed again. -/
theorem workerFds_cut {content : Bytes} (cut : Cut content) (hscan : ∀ b ∈ cut.blocks, hsScan b ≠ none)
    {buffer : Bytes} {s t : σ} {n : Nat}
    (h : feed next (filled buffer (printed (blockLines hsScan cut.blocks))).1 s = (.ok n, t)) (nextFile : Nat)
    (files : List (Nat × Reader)) (fds : List Nat) :
    workerFds hsScan next ((nextFile, cut.reader) :: files) (fds, buffer, s) =
      workerFds hsScan next files
        (fds, (filled buffer (printed (blockLines hsScan cut.blocks))).2, t) := by
  obtain ⟨m, hm⟩ := feed_blocks hscan h
  rw [workerFds, read_file_cut, hm]
  simp only [List.erase_cons_head, blockLines]

theorem workerFds_before {before : List (Nat × CutFile)} (hscan : Scans hsScan (before.map Prod.snd))
    {buffer : Bytes} {s t : σ} {n : Nat}
    (h : feed next (filled buffer (printed (linesOf hsScan (before.map Prod.snd)))).1 s = (.ok n, t))
    (files : List (Nat × Reader)) (fds : List Nat) :
    workerFds hsScan next (before.map (fun f => (f.1, f.2.2.reader)) ++ files) (fds, buffer, s) =
      workerFds hsScan next files
        (fds, (filled buffer (printed (linesOf hsScan (before.map Prod.snd)))).2, t) := by
  induction before generalizing buffer s n with
  | nil =>
    simp only [List.map_nil, linesOf, blocksOf, List.flatMap_nil, printed, filled, feed, Prod.mk.injEq] at h
    rw [← h.2]
    rfl
  | cons f before ih =>
    have hlines : linesOf hsScan ((f :: before).map Prod.snd) =
        blockLines hsScan f.2.2.blocks ++ linesOf hsScan (before.map Prod.snd) := by
      simp [linesOf, blocksOf, blockLines]
    rw [hlines, printed_append, filled_append] at h ⊢
    obtain ⟨m, u, k, hhead, hrest, rfl⟩ := feed_append_ok h
    have hblocks : ∀ b ∈ f.2.2.blocks, hsScan b ≠ none := by
      intro b hb
      exact hscan b (by simp [blocksOf, hb])
    have hfiles : Scans hsScan (before.map Prod.snd) := by
      intro b hb
      exact hscan b (by
        simp only [blocksOf, List.map_cons, List.flatMap_cons, List.mem_append]
        exact .inr hb)
    rw [List.map_cons, List.cons_append, workerFds_cut f.2.2 hblocks hhead, ih hfiles hrest]

/-- A file that cannot be read to its end stays open, and nothing is flushed. -/
theorem workerFds_broken {content : Bytes} (cut : Broken content) (hscan : ∀ b ∈ cut.blocks, hsScan b ≠ none)
    {buffer : Bytes} {s t : σ} {n : Nat}
    (h : feed next (filled buffer (printed (blockLines hsScan cut.blocks))).1 s = (.ok n, t)) (nextFile : Nat)
    (files : List (Nat × Reader)) (fds : List Nat) :
    workerFds hsScan next ((nextFile, cut.reader) :: files) (fds, buffer, s) =
      (.error s!"failed to read: [{cut.blocks.flatten.length}/{0} bytes]", nextFile :: fds,
        (filled buffer (printed (blockLines hsScan cut.blocks))).2, t) := by
  obtain ⟨m, hm⟩ := feed_blocks hscan h
  rw [workerFds, read_file_broken, hm]
  rfl

end Run

/-- The lines of the files before are on stdout, and the descriptor of the file that failed is
closed. -/
def Keeps (hsScan : Bytes → Option (List Nat)) (before : List (Nat × CutFile)) (nextFile : Nat) (o : Stdout)
    (r : Except String Unit × List Nat × Bytes × Stdout) : Prop :=
  o.bytes ++ text (linesOf hsScan (before.map Prod.snd)) <+: r.2.2.2.bytes ∧ nextFile ∉ r.2.1

section Fails
variable {hsScan : Bytes → Option (List Nat)} {before : List (Nat × CutFile)} {content : Bytes}

/-- What `Batch` gets before the worker is left. -/
def pushedBefore (hsScan : Bytes → Option (List Nat)) (before : List (Nat × CutFile)) (cut : Broken content) :
    List Bytes := printed (linesOf hsScan (before.map Prod.snd) ++ blockLines hsScan cut.blocks)

theorem workerFds_fails (hbefore : Scans hsScan (before.map Prod.snd)) (cut : Broken content)
    (hcut : ∀ b ∈ cut.blocks, hsScan b ≠ none) (nextFile : Nat) (after : List (Nat × Reader))
    (fds : List Nat) {o : Stdout} (hwrites : ∀ i, ¬ Fails (o.writes i)) :
    ∃ o', workerFds hsScan (write false)
        (before.map (fun f => (f.1, f.2.2.reader)) ++ (nextFile, cut.reader) :: after) (fds, [], o) =
      (.error s!"failed to read: [{cut.blocks.flatten.length}/{0} bytes]", nextFile :: fds,
        (filled [] (pushedBefore hsScan before cut)).2, o') ∧
      o'.bytes = o.bytes ++ (filled [] (pushedBefore hsScan before cut)).1.flatten := by
  obtain ⟨o', hfeed, hbytes⟩ := feed_write (filled [] (pushedBefore hsScan before cut)).1 hwrites
  refine ⟨o', ?_, hbytes⟩
  rw [pushedBefore, printed_append, filled_append] at hfeed
  obtain ⟨m, u, k, hhead, hrest, -⟩ := feed_append_ok hfeed
  rw [workerFds_before hbefore hhead, workerFds_broken cut hcut hrest, pushedBefore, printed_append,
    filled_append]

/-- Of two beginnings of one text, one is a beginning of the other by its length. -/
theorem filled_covers_iff (cut : Broken content) :
    text (linesOf hsScan (before.map Prod.snd)) <+: (filled [] (pushedBefore hsScan before cut)).1.flatten ↔
      (text (linesOf hsScan (before.map Prod.snd))).length ≤
        (filled [] (pushedBefore hsScan before cut)).1.flatten.length := by
  constructor
  · exact List.IsPrefix.length_le
  · have hall := printed_flatten (linesOf hsScan (before.map Prod.snd) ++ blockLines hsScan cut.blocks)
    have hlines : text (linesOf hsScan (before.map Prod.snd)) <+: (pushedBefore hsScan before cut).flatten := by
      rw [pushedBefore, hall, text, text, List.flatMap_append]
      exact List.prefix_append _ _
    have hwritten : (filled [] (pushedBefore hsScan before cut)).1.flatten <+:
        (pushedBefore hsScan before cut).flatten := ⟨_, filled_flatten [] (pushedBefore hsScan before cut)⟩
    exact List.prefix_of_prefix_length_le hlines hwritten

/-- A worker whose file fails in `pread` is left by an exception, and the file stays open. Of the lines
before it, those are on stdout that filled a buffer. -/
theorem failing_file_is_not_closed (hbefore : Scans hsScan (before.map Prod.snd)) (cut : Broken content)
    (hcut : ∀ b ∈ cut.blocks, hsScan b ≠ none) (nextFile : Nat) (after : List (Nat × Reader))
    (fds : List Nat) (o : Stdout) (hwrites : ∀ i, ¬ Fails (o.writes i)) :
    let lines := text (linesOf hsScan (before.map Prod.snd))
    let written := (filled [] (pushedBefore hsScan before cut)).1.flatten
    let r := workerFds hsScan (write false)
      (before.map (fun f => (f.1, f.2.2.reader)) ++ (nextFile, cut.reader) :: after) (fds, [], o)
    ¬ Keeps hsScan before nextFile o r ∧
    r.1 = .error s!"failed to read: [{cut.blocks.flatten.length}/{0} bytes]" ∧
    r.2.1 = nextFile :: fds ∧
    r.2.2.2.bytes = o.bytes ++ written ∧
    (o.bytes ++ lines <+: r.2.2.2.bytes ↔ lines.length ≤ written.length) := by
  intro lines written r
  obtain ⟨o', hr, hbytes⟩ := workerFds_fails hbefore cut hcut nextFile after fds hwrites
  rw [show r = _ from hr]
  refine ⟨fun h => h.2 List.mem_cons_self, rfl, rfl, hbytes, ?_⟩
  simp only [hbytes, List.prefix_append_right_inj]
  exact filled_covers_iff cut

/-! ## One match, and a file that cannot be read -/

/-- The file `a\n`, read in one block. -/
def fileA : CutFile := ⟨[97, 10], .whole (by decide) (by decide)⟩

/-- A file whose first `pread` fails. -/
def unreadable : Broken [] := ⟨[], List.prefix_rfl, by simp, by simp, "Input/output error"⟩

def toPipe : Stdout := { bytes := [], writes := fun _ => .ok 1 }

theorem failing_file_keeps_fd_open :
    Scans scanFirst ([(4, fileA)].map Prod.snd) ∧
    (workerFds scanFirst (write false) ([(4, fileA)].map (fun f => (f.1, f.2.2.reader)) ++
      (4, unreadable.reader) :: []) ([], [], toPipe)).2.1 = [4] := by
  have hscan : Scans scanFirst ([(4, fileA)].map Prod.snd) := fun b _ => scanFirst_scans b
  exact ⟨hscan, (failing_file_is_not_closed hscan unreadable (fun b _ => scanFirst_scans b) 4 [] [] toPipe
    fun i => ok_not_fails 1).2.2.1⟩

/-- The match of the first file is lost, and the second file stays open. -/
theorem failing_file_loses_match :
    let r := workerFds scanFirst (write false) ([(4, fileA)].map (fun f => (f.1, f.2.2.reader)) ++
      (4, unreadable.reader) :: []) ([], [], toPipe)
    text (linesOf scanFirst [fileA]) = [97, 10] ∧ r.2.2.2.bytes = [] ∧ r.2.1 = [4] ∧
    ¬ Keeps scanFirst [(4, fileA)] 4 toPipe r := by
  intro r
  have hscan : Scans scanFirst ([(4, fileA)].map Prod.snd) := fun b _ => scanFirst_scans b
  obtain ⟨o', hr, hbytes⟩ := workerFds_fails hscan unreadable (fun b _ => scanFirst_scans b) 4 [] []
    (o := toPipe) fun i => ok_not_fails 1
  rw [show r = _ from hr]
  exact ⟨by decide, by rw [hbytes]; decide, rfl, fun h => h.2 List.mem_cons_self⟩

end Fails

end Omnipp.Grep
