import Omnipp.Cat.Command
import Omnipp.Lib.Lines

/-!
# `main`

The name of the executable selects the command. What a command throws is printed to stdout, behind
what it wrote there.
-/

open Omnipp.Cat Omnipp.Source Omnipp.Sink

namespace Omnipp

/-! ## Through a pipe of its own -/

/-- What was read from the file is on stdout or still in the pipe. -/
structure Middle.Kept (content : Bytes) (m : Middle) : Prop where
  file : m.content = content
  moved : m.out ++ m.pipe = content.take m.pos

section Middle
variable {content : Bytes} {m : Middle}

theorem Middle.Kept.spliceIn (h : m.Kept content) (ins : Schedule) (capacity count : Nat) :
    (m.spliceIn ins capacity count).2.Kept content := by
  obtain ⟨rfl, hmoved⟩ := h
  simp only [Middle.spliceIn]
  split
  · exact ⟨rfl, hmoved⟩
  · split
    · exact ⟨rfl, hmoved⟩
    · split
      · exact ⟨rfl, hmoved⟩
      · exact ⟨rfl, by simp only [← List.append_assoc, hmoved, List.take_add]⟩

theorem Middle.Kept.spliceOut (h : m.Kept content) (outs : Schedule) (count : Nat) :
    (m.spliceOut outs count).2.Kept content := by
  obtain ⟨rfl, hmoved⟩ := h
  simp only [Middle.spliceOut]
  split
  · exact ⟨rfl, hmoved⟩
  · split
    · exact ⟨rfl, hmoved⟩
    · exact ⟨rfl, by simpa only [List.append_assoc, List.take_append_drop] using hmoved⟩

theorem Middle.Kept.sink (h : m.Kept content) (outs : Schedule) (size : Nat) :
    (Sink.splice outs size m).2.Kept content := by
  refine Loop.run_gives (l := Sink.spliceLoop outs size) (fun st => st.2.Kept content)
    (fun r => r.2.Kept content) ?_ (0, m) h
  rintro ⟨amount, k⟩ hk
  have hout := hk.spliceOut outs size
  simp only [Sink.spliceLoop]
  split
  · split <;> rename_i hs <;> rw [hs] at hout
    · exact hout
    · exact hout
    · split <;> exact hout
  · exact hk

theorem Middle.Kept.loop (h : m.Kept content) (pipe : PipeSize) (ins outs : Schedule) (size : UInt64) :
    ((Source.spliceLoop pipe ins outs size).run ⟨0, 0, m⟩).2.Kept content := by
  refine Loop.run_gives (l := Source.spliceLoop pipe ins outs size) (fun st => st.middle.Kept content)
    (fun r => r.2.Kept content) ?_ ⟨0, 0, m⟩ h
  intro st hk
  have hin := hk.spliceIn ins pipe.val.toNat (min pipe.val (size - st.offset)).toNat
  simp only [Source.spliceLoop]
  split
  · exact hk
  · split <;> rename_i hs <;> rw [hs] at hin
    · exact hin
    · exact hin
    · have hout := hin.sink outs (min pipe.val (size - st.offset)).toNat
      split
      · exact hin
      · split <;> rename_i ho <;> rw [ho] at hout <;> exact hout

theorem Middle.Kept.splice (h : m.Kept content) (pipes : Except String Unit)
    (pipeSize : Except String PipeSize) (ins outs : Schedule) (size : UInt64) :
    (Source.splice pipes pipeSize ins outs size m).2.Kept content := by
  unfold Source.splice
  split
  · exact h
  · split
    · exact h
    · exact h.loop _ ins outs size

theorem Middle.Kept.starts (h : m.Kept content) : m.out <+: content := by
  have hout : m.out <+: content.take m.pos := ⟨m.pipe, h.moved⟩
  exact hout.trans (List.take_prefix _ _)

end Middle

namespace Main

/-! ## The program -/

def exeTrunk (exe : String) : String :=
  match Lines.findLastOf '/' exe.toList with
  | none => exe
  | some lastSlash => String.ofList (exe.toList.drop (lastSlash + 1))

/-- `starts_with` -/
def startsWith (s start : String) : Bool := start.toList.isPrefixOf s.toList

inductive Command where
  | cat | grep | none
  deriving DecidableEq

def command (name : String) : Command :=
  if name == "cat" || startsWith name "ocat" then .cat
  else if name == "grep" || startsWith name "ogrep" then .grep
  else .none

def bytesOf (text : String) : Bytes := text.toUTF8.data.toList

/-- What becomes of one `std::println` to stdout: the bytes that come out, at once or when the program
ends, and how the call ends. -/
structure Printing where
  out : Nat
  result : Blocking Unit

def Printing.println (p : Printing) (text : String) : Blocking Unit × Bytes :=
  (p.result, (bytesOf text ++ [newline]).take p.out)

/-- What the program is started on. -/
structure Machine where
  -- `getrlimit`, and whether `setrlimit` succeeds.
  rlimCur : Option Nat
  raises : Bool
  -- `NO_COLOUR` and `NO_COLOR` are set.
  noColour : Bool
  noColor : Bool
  world : World
  -- One run of `om::grep` and what it prints.
  grep : List String → Blocking Unit × Bytes
  -- `println` in the `try` block, and in the handler.
  greeting : Printing
  caught : Printing

def setRlimit (m : Machine) : Except String Unit :=
  match m.rlimCur with
  | none => .ok ()
  | some cur => if cur < 524288 && !m.raises then .error "failed to set rlimit" else .ok ()

def Machine.config (m : Machine) : Config := loadConfig m.noColour m.noColor

/-- The `try` block of `main`. Its contract is that there is an argument. -/
def mainTry (exe path : String) (more : List String) (m : Machine) : Blocking Unit × Bytes :=
  match setRlimit m with
  | .error e => (some (.error e), [])
  | .ok () =>
    match command (exeTrunk exe) with
    | .cat => cat m.config path m.world
    | .grep => m.grep (path :: more)
    | .none => m.greeting.println "omnipp"

inductive Ending where
  | blocked
  -- `println` in the handler threw, and nobody catches that.
  | terminated
  | exit (status : Nat)

def ending : Blocking Unit → Ending
  | none => .blocked
  | some (.error _) => .terminated
  | some (.ok ()) => .exit 0

/-- What is on stdout, and how the program ends. -/
def main (exe path : String) (more : List String) (m : Machine) : Bytes × Ending :=
  match mainTry exe path more m with
  | (none, out) => (out, .blocked)
  | (some (.ok ()), out) => (out, .exit 0)
  | (some (.error e), out) =>
    let (result, text) := m.caught.println e
    (out ++ text, ending result)

/-! ## A part of the file, and at most one message -/

theorem copy_prints_start {content : Bytes} {answers : Schedule} {limit size : Nat}
    {r : Expected × Copy} (h : CopyPost content answers limit size r) : r.2.out <+: content := by
  rw [h.1]
  exact List.take_prefix _ _

theorem branch_prints_start (w : World) (size : UInt64) {b : Branch} (hb : b ≠ .highlight) :
    (b.run w size).2 <+: w.content := by
  cases b with
  | copyFileRange => exact copy_prints_start (copy_loop_spec (by decide) _ w.content w.moves size)
  | directSplice =>
    simp only [Branch.run, Source.directSplice]
    split
    · exact List.nil_prefix
    · exact copy_prints_start (copy_loop_spec (PipeSize.pos _) _ w.content w.moves size)
  | splice =>
    have hstart : (Middle.mk w.content 0 [] [] 0 0).Kept w.content := ⟨rfl, rfl⟩
    exact (hstart.splice w.pipes w.pipeSize w.ins w.outs size).starts
  | highlight => exact absurd rfl hb
  | readWrite => exact (read_write_spec w.content w.reads w.writes size.toNat).starts

/-- What stdout is does not lead to the highlighter, whatever the file is. -/
def Plain (config : Config) (w : World) : Prop :=
  ∀ mode outMode, w.stdoutStatx = .ok outMode → branch config mode outMode w.isatty ≠ .highlight

theorem cat_prints_start {config : Config} {w : World} (path : String) (h : Plain config w) :
    (cat config path w).2 <+: w.content := by
  unfold cat
  split
  · exact List.nil_prefix
  · rename_i size mode _
    split
    · exact List.nil_prefix
    · rename_i outMode hout
      exact branch_prints_start w size (h mode outMode hout)

/-- What `main` prints when its `try` block ends so. -/
def report : Blocking Unit → Bytes
  | some (.error e) => bytesOf e ++ [newline]
  | _ => []

theorem main_out (exe path : String) (more : List String) (m : Machine) :
    (main exe path more m).1 =
      (mainTry exe path more m).2 ++ (report (mainTry exe path more m).1).take m.caught.out := by
  unfold main
  split <;> rename_i h <;> simp [h, report, Printing.println]

theorem mainTry_cat {exe : String} (hcat : command (exeTrunk exe) = .cat) (path : String)
    (more : List String) (m : Machine) :
    mainTry exe path more m = cat m.config path m.world ∨
      ∃ e, mainTry exe path more m = (some (.error e), []) := by
  unfold mainTry
  split
  · exact .inr ⟨_, rfl⟩
  · rw [hcat]
    exact .inl rfl

/-- On a stdout that is not highlighted, stdout ends up with a part of the file from its beginning
and behind it nothing or a part of the text of the one exception, also when a pipe blocks for ever
or `println` fails. -/
theorem main_prints_start (exe path : String) (more : List String) (m : Machine)
    (hcat : command (exeTrunk exe) = .cat) (hplain : Plain m.config m.world) :
    ∃ moved, (main exe path more m).1 =
      m.world.content.take moved ++ (report (mainTry exe path more m).1).take m.caught.out := by
  rw [main_out]
  rcases mainTry_cat hcat path more m with h | ⟨e, h⟩
  · obtain hout := List.prefix_iff_eq_take.mp (cat_prints_start path hplain)
    refine ⟨(cat m.config path m.world).2.length, ?_⟩
    rw [h, ← hout]
  · exact ⟨0, by rw [h, List.take_zero]⟩

/-- A machine with a regular file as stdout, on which `copy_file_range` fails behind the first byte of
the file `AB` and `println` has no space behind six more. -/
def torn : Machine where
  rlimCur := some 1048576
  raises := true
  noColour := true
  noColor := false
  world := { (calm [65, 66] 2).onto .reg false with
    moves := fun i => if i = 0 then .ok 1 else .error "No space left on device" }
  grep := fun _ => (some (.ok ()), [])
  greeting := ⟨7, some (.ok ())⟩
  caught := ⟨6, some (.ok ())⟩

theorem torn_plain : Plain torn.config torn.world := by
  intro mode outMode hout
  cases hout
  cases mode <;> decide

theorem main_prints_start_of_torn :
    command (exeTrunk "/bin/ocat") = .cat ∧ ∃ moved, (main "/bin/ocat" "f" [] torn).1 =
      [65, 66].take moved ++ (report (mainTry "/bin/ocat" "f" [] torn).1).take 6 :=
  ⟨by decide, main_prints_start "/bin/ocat" "f" [] torn (by decide) torn_plain⟩

end Main

end Omnipp
