import Mathlib.Data.List.TakeDrop
import Omnipp.Cat.Copies
import Omnipp.Source.Splice
import Omnipp.Transform.TreeSitter

/-! # `cat`

What stdout is decides which pipeline copies the file.
-/

open Omnipp.Source Omnipp.Sink Omnipp.Transform

namespace Omnipp.Cat

inductive Mode where
  | reg | dir | chr | blk | fifo | lnk | sock
  deriving DecidableEq

structure Config where
  colourOutput : Bool

/-- `load_config`, from whether `NO_COLOUR` and `NO_COLOR` are set. -/
def loadConfig (noColour noColor : Bool) : Config := ⟨!(noColour || noColor)⟩

/-- What the kernel answers to one run of `cat`. -/
structure World where
  -- `openat` of the path succeeds.
  opens : Bool
  -- `stx_size` and `stx_mode` of the file.
  statx : Except String (UInt64 × Mode)
  fadvise : Except String Unit
  stdoutStatx : Except String Mode
  isatty : Bool
  content : Bytes
  moves : Schedule
  reads : Schedule
  writes : Schedule
  pipes : Except String Unit
  pipeSize : Except String PipeSize
  ins : Schedule
  outs : Schedule
  treeSitter : TreeSitter

def openFile (path : String) (w : World) : Except String (UInt64 × Mode) :=
  if !w.opens then .error s!"failed to open: {path}"
  else
    match w.statx with
    | .error text => .error s!"failed to statx file: {text}"
    | .ok stx =>
      match w.fadvise with
      | .error text => .error s!"failed to advise: {text}"
      | .ok () => .ok stx

def canCopyFileRange (inMode outMode : Mode) : Bool := inMode = .reg && outMode = .reg

def canMiddlemanSplice (outMode : Mode) : Bool := outMode = .chr || outMode = .reg

def canDirectPipe (outMode : Mode) : Bool := outMode = .fifo

inductive Branch where
  | copyFileRange | directSplice | splice | highlight | readWrite
  deriving DecidableEq

def branch (config : Config) (inMode outMode : Mode) (isatty : Bool) : Branch :=
  if canCopyFileRange inMode outMode then .copyFileRange
  else if canDirectPipe outMode then .directSplice
  else if canMiddlemanSplice outMode then .splice
  else if config.colourOutput || isatty then .highlight
  else .readWrite

def Branch.run (w : World) (size : UInt64) : Branch → Blocking Nat × Bytes
  | .copyFileRange =>
    let r := Source.copyFileRange w.moves size ⟨w.content, 0, [], 0⟩
    (some r.1, r.2.out)
  | .directSplice =>
    let r := Source.directSplice w.pipeSize w.moves size ⟨w.content, 0, [], 0⟩
    (some r.1, r.2.out)
  | .splice =>
    let r := Source.splice w.pipes w.pipeSize w.ins w.outs size ⟨w.content, 0, [], [], 0, 0⟩
    (r.1, r.2.out)
  | .highlight =>
    let r := readFile (Transform.treeSitter w.treeSitter (write false)) size.toNat
      ({ content := w.content, reads := w.reads }, { bytes := [], writes := w.writes })
    (some r.1, r.2.2.bytes)
  | .readWrite =>
    let r := readFile (write false) size.toNat
      ({ content := w.content, reads := w.reads }, { bytes := [], writes := w.writes })
    (some r.1, r.2.2.bytes)

/-- `cat`, which throws what its pipeline returns as an error. -/
def cat (config : Config) (path : String) (w : World) : Blocking Unit × Bytes :=
  match openFile path w with
  | .error e => (some (.error e), [])
  | .ok (size, mode) =>
    match w.stdoutStatx with
    | .error _ => (some (.error "failed to statx stdout"), [])
    | .ok outMode =>
      let r := (branch config mode outMode w.isatty).run w size
      (r.1.map fun res => res.map fun _ => (), r.2)

/-! ## What stdout gets -/

/-- No system call of the three plain branches fails, on a regular file that `statx` says has `size`
bytes. -/
structure World.Works (w : World) (path : String) (size : UInt64) : Prop where
  opens : openFile path w = .ok (size, .reg)
  pipeSize : ∃ pipe, w.pipeSize = .ok pipe
  moves : ∀ i, ¬ Fails (w.moves i)
  reads : ∀ i, ¬ Fails (w.reads i)
  writes : ∀ i, ¬ Fails (w.writes i)

/-- The same run with another stdout. -/
def World.onto (w : World) (outMode : Mode) (isatty : Bool) : World :=
  { w with stdoutStatx := .ok outMode, isatty }

section Branches
variable {w : World} {path : String} {size : UInt64}

theorem copy_out (answers : Schedule) (hok : ∀ i, ¬ Fails (answers i)) {content : Bytes} {limit : Nat}
    {r : Expected × Copy} (h : CopyPost content answers limit size.toNat r) :
    r.2.out = content.take size.toNat := by
  have hwhole := (exact_of_copy h).whole fun i _ _ => hok i
  rw [hwhole.2, ← List.take_eq_take_min]

theorem copyFileRange_out (hw : w.Works path size) :
    (Branch.copyFileRange.run w size).2 = w.content.take size.toNat :=
  copy_out w.moves hw.moves (copy_loop_spec (by decide) _ w.content w.moves size)

theorem directSplice_out (hw : w.Works path size) :
    (Branch.directSplice.run w size).2 = w.content.take size.toNat := by
  obtain ⟨pipe, hp⟩ := hw.pipeSize
  simp only [Branch.run, hp]
  exact copy_out w.moves hw.moves (copy_loop_spec pipe.pos _ w.content w.moves size)

theorem readWrite_out (hw : w.Works path size) : (Branch.readWrite.run w size).2 = w.content := by
  have hexact := exact_of_read_write (read_write_spec w.content w.reads w.writes size.toNat)
  exact (hexact.whole (fun i _ _ => hw.reads i) fun i _ _ => hw.writes i).2

theorem cat_onto (config : Config) (hw : w.Works path size) (outMode : Mode) (isatty : Bool) :
    (cat config path (w.onto outMode isatty)).2 =
      ((branch config .reg outMode isatty).run (w.onto outMode isatty) size).2 := by
  have hopen : openFile path (w.onto outMode isatty) = .ok (size, .reg) := hw.opens
  rw [cat, hopen]
  rfl

theorem World.Works.onto (hw : w.Works path size) (outMode : Mode) (isatty : Bool) :
    (w.onto outMode isatty).Works path size :=
  ⟨hw.opens, hw.pipeSize, hw.moves, hw.reads, hw.writes⟩

/-- `cat` prints the same to a regular file, to a pipe and to a stdout that takes plain writes
exactly when the file is not longer than the size `statx` gave. -/
theorem cat_same_on_every_stdout_iff (config : Config) (hw : w.Works path size) (plain : Mode)
    (isatty : Bool) (hplain : branch config .reg plain isatty = .readWrite) :
    ((cat config path (w.onto .reg isatty)).2 = (cat config path (w.onto .fifo isatty)).2 ∧
      (cat config path (w.onto .fifo isatty)).2 = (cat config path (w.onto plain isatty)).2) ↔
      w.content.length ≤ size.toNat := by
  have hcopy : (cat config path (w.onto .reg isatty)).2 = w.content.take size.toNat :=
    (cat_onto config hw .reg isatty).trans (copyFileRange_out (hw.onto .reg isatty))
  have hpipe : (cat config path (w.onto .fifo isatty)).2 = w.content.take size.toNat :=
    (cat_onto config hw .fifo isatty).trans (directSplice_out (hw.onto .fifo isatty))
  have hread : (cat config path (w.onto plain isatty)).2 = w.content := by
    rw [cat_onto config hw plain isatty, hplain]
    exact readWrite_out (hw.onto plain isatty)
  rw [hcopy, hpipe, hread, and_iff_right rfl]
  exact List.take_eq_self_iff _

end Branches

/-- A kernel that never fails, and a file on it. -/
def calm (content : Bytes) (size : UInt64) : World where
  opens := true
  statx := .ok (size, .reg)
  fadvise := .ok ()
  stdoutStatx := .ok .sock
  isatty := false
  content
  moves := fun _ => .ok (1024 * 1024 * 1024)
  reads := fun _ => .ok (1024 * 1024 * 1024)
  writes := fun _ => .ok (1024 * 1024 * 1024)
  pipes := .ok ()
  pipeSize := .ok ⟨1048576, by decide⟩
  ins := fun _ => .ok (1024 * 1024 * 1024)
  outs := fun _ => .ok (1024 * 1024 * 1024)
  treeSitter := ⟨true, true, .ok [], true, fun _ => some []⟩

theorem calm_works (path : String) (content : Bytes) (size : UInt64) :
    (calm content size).Works path size :=
  ⟨rfl, ⟨_, rfl⟩, fun _ => ok_not_fails _, fun _ => ok_not_fails _, fun _ => ok_not_fails _⟩

theorem cat_same_on_every_stdout_of_two_bytes :
    (branch ⟨false⟩ .reg .sock false = .readWrite ∧ [(65 : Byte), 66].length ≤ (2 : UInt64).toNat) ∧
    ((cat ⟨false⟩ "f" ((calm [65, 66] 2).onto .reg false)).2 =
        (cat ⟨false⟩ "f" ((calm [65, 66] 2).onto .fifo false)).2 ∧
      (cat ⟨false⟩ "f" ((calm [65, 66] 2).onto .fifo false)).2 =
        (cat ⟨false⟩ "f" ((calm [65, 66] 2).onto .sock false)).2) :=
  ⟨by decide, (cat_same_on_every_stdout_iff ⟨false⟩ (calm_works "f" [65, 66] 2) .sock false
    (by decide)).mpr (by decide)⟩

/-- A file of `/proc`, with size 0 and a byte in it: nothing is copied to a regular file, and the
byte is written to a socket. -/
theorem cat_differs_on_procfs :
    (cat ⟨false⟩ "/proc/x" ((calm [65] 0).onto .reg false)).2 = [] ∧
    (cat ⟨false⟩ "/proc/x" ((calm [65] 0).onto .fifo false)).2 = [] ∧
    (cat ⟨false⟩ "/proc/x" ((calm [65] 0).onto .sock false)).2 = [65] := by
  have hw := calm_works "/proc/x" [65] 0
  refine ⟨?_, ?_, ?_⟩
  · exact (cat_onto ⟨false⟩ hw .reg false).trans (copyFileRange_out (hw.onto .reg false))
  · exact (cat_onto ⟨false⟩ hw .fifo false).trans (directSplice_out (hw.onto .fifo false))
  · exact (cat_onto ⟨false⟩ hw .sock false).trans (readWrite_out (hw.onto .sock false))

end Omnipp.Cat
