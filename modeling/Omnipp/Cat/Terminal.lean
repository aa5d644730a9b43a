import Mathlib.Data.List.Range
import Omnipp.Transform.TreeSitter

/-!
# What `cat` shows on a terminal

A code sets the colour of the bytes behind it. There is no code for the mask value 0, so a run of it
has the colour of the run before.
-/

open Omnipp.Transform

namespace Omnipp.Cat

/-! ## A terminal -/

inductive Colour
  | default | magenta | blue | yellow | cyan
  deriving DecidableEq

/-- The colour of a mask value, as the comments on `colours` name it. -/
def Colour.ofId (id : UInt8) : Colour :=
  if id = 1 then .magenta
  else if id = 2 then .blue
  else if id = 3 then .yellow
  else if id = 4 then .cyan
  else .default

/-- `'\033'` -/
def escape : Byte := 27

/-- The bytes that a terminal shows, each in the colour it has then, and the colour it is left in. -/
def shown (colour : Colour) : Bytes → List (Byte × Colour) × Colour
  | [] => ([], colour)
  | 27 :: 91 :: 48 :: 109 :: rest => shown .default rest
  | 27 :: 91 :: 51 :: 53 :: 109 :: rest => shown .magenta rest
  | 27 :: 91 :: 51 :: 52 :: 109 :: rest => shown .blue rest
  | 27 :: 91 :: 51 :: 51 :: 109 :: rest => shown .yellow rest
  | 27 :: 91 :: 51 :: 54 :: 109 :: rest => shown .cyan rest
  | b :: rest => ((b, colour) :: (shown colour rest).1, (shown colour rest).2)

theorem shown_reset (colour : Colour) : shown colour reset = ([], .default) := by
  have hreset : reset = [27, 91, 48, 109] := by decide +kernel
  rw [hreset]
  rfl

theorem shown_byte {b : Byte} (h : b ≠ escape) (colour : Colour) (rest : Bytes) :
    shown colour (b :: rest) = ((b, colour) :: (shown colour rest).1, (shown colour rest).2) := by
  rw [shown]
  all_goals
    intro
    intros
    contradiction

theorem shown_plain {data : Bytes} (h : escape ∉ data) (colour : Colour) (rest : Bytes) :
    shown colour (data ++ rest) =
      (data.map (fun b => (b, colour)) ++ (shown colour rest).1, (shown colour rest).2) := by
  induction data with
  | nil => rfl
  | cons b data ih =>
    simp only [List.mem_cons, not_or] at h
    rw [List.cons_append, shown_byte (Ne.symm h.1), ih h.2]
    rfl

/-- The colour that the code of a mask value leaves the terminal in. -/
def Colour.code (colour : Colour) (id : UInt8) : Colour := if id = 0 then colour else .ofId id

theorem shown_code {id : UInt8} (h : id.toNat < 5) (colour : Colour) (rest : Bytes) :
    shown colour (codeOf id ++ rest) = shown (colour.code id) rest := by
  have hcolours : colours = [[], [27, 91, 51, 53, 109], [27, 91, 51, 52, 109], [27, 91, 51, 51, 109],
      [27, 91, 51, 54, 109]] := by decide +kernel
  have hid : id = 0 ∨ id = 1 ∨ id = 2 ∨ id = 3 ∨ id = 4 := by
    simp only [← UInt8.toNat_inj]
    simp
    omega
  unfold codeOf
  rw [hcolours]
  rcases hid with rfl | rfl | rfl | rfl | rfl <;> rfl

/-! ## The runs of a block -/

/-- The colours that bytes with these mask values are shown in. -/
def kept (colour : Colour) : List UInt8 → List Colour
  | [] => []
  | id :: mask => colour.code id :: kept (colour.code id) mask

theorem Colour.code_code (colour : Colour) (id : UInt8) : (colour.code id).code id = colour.code id := by
  unfold Colour.code
  split <;> rfl

theorem kept_replicate (colour : Colour) (id : UInt8) {n : Nat} (h : 0 < n) (mask : List UInt8) :
    kept colour (List.replicate n id ++ mask) =
      List.replicate n (colour.code id) ++ kept (colour.code id) mask := by
  induction n generalizing colour with
  | zero => omega
  | succ n ih =>
    rw [List.replicate_succ, List.replicate_succ, List.cons_append, List.cons_append, kept]
    rcases Nat.eq_zero_or_pos n with rfl | hn
    · rfl
    · rw [ih (colour.code id) hn, Colour.code_code]

/-- The mask value of every byte of the runs. -/
def maskOf (runs : List (UInt8 × Bytes)) : List UInt8 := runs.flatMap fun r => List.replicate r.2.length r.1

theorem mem_maskOf {runs : List (UInt8 × Bytes)} {r : UInt8 × Bytes} (h : r ∈ runs) (hne : r.2 ≠ []) :
    r.1 ∈ maskOf runs := by
  refine List.mem_flatMap_of_mem h ?_
  rw [List.mem_replicate]
  exact ⟨by simpa using hne, rfl⟩

theorem length_kept (colour : Colour) (mask : List UInt8) : (kept colour mask).length = mask.length := by
  induction mask generalizing colour with
  | nil => rfl
  | cons id mask ih => simp [kept, ih]

theorem zip_replicate_colour (data : Bytes) (colour : Colour) :
    data.zip (List.replicate data.length colour) = data.map fun b => (b, colour) := by
  induction data with
  | nil => rfl
  | cons b data ih => simp [List.replicate_succ, ih]

theorem maskOf_cons (r : UInt8 × Bytes) (runs : List (UInt8 × Bytes)) :
    maskOf (r :: runs) = List.replicate r.2.length r.1 ++ maskOf runs := rfl

theorem shown_rendered {runs : List (UInt8 × Bytes)} (hid : ∀ r ∈ runs, r.1.toNat < 5)
    (hne : ∀ r ∈ runs, r.2 ≠ []) (hesc : ∀ r ∈ runs, escape ∉ r.2) (colour : Colour) :
    shown colour (rendered runs) =
      ((runs.map Prod.snd).flatten.zip (kept colour (maskOf runs)), .default) := by
  induction runs generalizing colour with
  | nil => exact shown_reset colour
  | cons r runs ih =>
    have hrest := ih (fun r' h => hid r' (List.mem_cons_of_mem r h))
      (fun r' h => hne r' (List.mem_cons_of_mem r h)) (fun r' h => hesc r' (List.mem_cons_of_mem r h))
      (colour.code r.1)
    have hsplit : rendered (r :: runs) = codeOf r.1 ++ (r.2 ++ rendered runs) := by
      simp [rendered]
    have hpos := List.length_pos_iff.mpr (hne r List.mem_cons_self)
    rw [hsplit, shown_code (hid r List.mem_cons_self), shown_plain (hesc r List.mem_cons_self), hrest,
      maskOf_cons, kept_replicate _ _ hpos, List.map_cons, List.flatten_cons, List.zip_append (by simp),
      zip_replicate_colour]

/-! ## When the colours are right -/

theorem Colour.ofId_eq_default {id : UInt8} (h : id.toNat < 5) : Colour.ofId id = .default ↔ id = 0 := by
  have hid : id = 0 ∨ id = 1 ∨ id = 2 ∨ id = 3 ∨ id = 4 := by
    simp only [← UInt8.toNat_inj]
    simp
    omega
  rcases hid with rfl | rfl | rfl | rfl | rfl <;> decide

/-- A code is right when it is a code at all, or nothing was coloured before. -/
theorem code_eq_ofId {before id : UInt8} (h : before.toNat < 5) :
    (Colour.ofId before).code id = Colour.ofId id ↔ (before ≠ 0 → id ≠ 0) := by
  unfold Colour.code
  split
  · rename_i hid
    subst hid
    rw [show Colour.ofId 0 = .default from rfl, Colour.ofId_eq_default h]
    simp
  · rename_i hid
    simp [hid]

theorem kept_eq_iff {before : UInt8} {mask : List UInt8} (hb : before.toNat < 5)
    (hm : ∀ id ∈ mask, id.toNat < 5) :
    kept (.ofId before) mask = mask.map Colour.ofId ↔
      (before :: mask).IsChain fun a b => a ≠ 0 → b ≠ 0 := by
  induction mask generalizing before with
  | nil => simp [kept]
  | cons id mask ih =>
    have hid := hm id List.mem_cons_self
    have hrest := ih hid fun i hi => hm i (List.mem_cons_of_mem id hi)
    rw [kept, List.map_cons, List.cons.injEq, code_eq_ofId hb, List.isChain_cons_cons, ← hrest]
    apply and_congr_right
    intro hcode
    rw [(code_eq_ofId hb).mpr hcode]

/-- The terminal shows every byte of the block in the colour of its mask value, and is left in the
default colour. -/
def ShowsColours (ts : TreeSitter) (data : Bytes) (mask : Nat → UInt8) : Prop :=
  ∃ out, (∀ (σ : Type) (next : Stage Bytes σ) (s : σ), treeSitter ts next data s = next out s) ∧
    shown .default out = (data.zip ((List.range data.length).map fun i => Colour.ofId (mask i)), .default)

section Node
variable {ts : TreeSitter} {names : List String} {data : Bytes} {captures : List Capture}
  {runs : List (UInt8 × Bytes)}

theorem maskOf_lt (hruns : IsRuns (colourAt names captures) data runs) :
    ∀ id ∈ maskOf runs, id.toNat < 5 := by
  unfold maskOf
  rw [hruns.coloured]
  intro id hid
  obtain ⟨i, -, rfl⟩ := List.mem_map.mp hid
  exact colourAt_lt names captures i

theorem length_maskOf (hruns : IsRuns (colourAt names captures) data runs) :
    (maskOf runs).length = data.length := by
  unfold maskOf
  rw [hruns.coloured, List.length_map, List.length_range]

theorem shown_runs (hruns : IsRuns (colourAt names captures) data runs) (hesc : escape ∉ data) :
    shown .default (rendered runs) = (data.zip (kept .default (maskOf runs)), .default) := by
  have hids : ∀ r ∈ runs, r.1.toNat < 5 := by
    intro r hr
    exact maskOf_lt hruns r.1 (mem_maskOf hr (hruns.filled r hr))
  have hplain : ∀ r ∈ runs, escape ∉ r.2 := by
    intro r hr he
    apply hesc
    rw [← hruns.joined]
    exact List.mem_flatten_of_mem (List.mem_map_of_mem hr) he
  rw [shown_rendered hids hruns.filled hplain, hruns.joined]

theorem showsColours_iff_kept (hruns : IsRuns (colourAt names captures) data runs) (hesc : escape ∉ data)
    (hnode : ∀ {σ : Type} (next : Stage Bytes σ) (s : σ), treeSitter ts next data s = next (rendered runs) s) :
    ShowsColours ts data (colourAt names captures) ↔
      kept .default (maskOf runs) = (maskOf runs).map Colour.ofId := by
  have hwant : (List.range data.length).map (fun i => Colour.ofId (colourAt names captures i)) =
      (maskOf runs).map Colour.ofId := by
    unfold maskOf
    rw [hruns.coloured, List.map_map]
    rfl
  have hlen := length_maskOf hruns
  unfold ShowsColours
  rw [hwant]
  constructor
  · rintro ⟨out, hout, hcolours⟩
    have hrec := congrArg Prod.snd ((hnode record []).symm.trans (hout _ record []))
    simp only [record, List.nil_append, List.cons.injEq, and_true] at hrec
    rw [← hrec, shown_runs hruns hesc, Prod.mk.injEq] at hcolours
    have hsnd := congrArg (List.map Prod.snd) hcolours.1
    rwa [List.map_snd_zip (by rw [length_kept, hlen]), List.map_snd_zip (by rw [List.length_map, hlen])]
      at hsnd
  · intro heq
    refine ⟨rendered runs, fun σ next s => hnode next s, ?_⟩
    rw [shown_runs hruns hesc, heq]

/-- The colours on the terminal are right exactly when no byte without a colour stands behind one
with a colour. -/
theorem colours_shown_iff (h : ts.Works names data captures) (hesc : escape ∉ data) :
    ShowsColours ts data (colourAt names captures) ↔
      ∀ i, i + 1 < data.length → colourAt names captures i ≠ 0 → colourAt names captures (i + 1) ≠ 0 := by
  obtain ⟨runs, hruns, hnode⟩ := tree_sitter_spec h
  have hfirst : ∀ mask : List UInt8, ((0 :: mask).IsChain fun a b => a ≠ 0 → b ≠ 0) ↔
      mask.IsChain fun a b => a ≠ 0 → b ≠ 0 := by
    intro mask
    simp [List.isChain_cons]
  rw [showsColours_iff_kept hruns hesc hnode, show Colour.default = .ofId 0 from rfl,
    kept_eq_iff (by decide) (maskOf_lt hruns), hfirst, maskOf, hruns.coloured, List.isChain_map,
    List.isChain_range]
  apply forall_congr'
  intro i
  rw [Nat.lt_sub_iff_add_lt]

end Node

/-- A library that calls the first `n` bytes of a block a keyword. -/
def keywordUpTo (n : Nat) : TreeSitter where
  parser := true
  language := true
  query := .ok ["keyword"]
  cursor := true
  parse _ := some [⟨0, 0, n⟩]

theorem keywordUpTo_works {n : Nat} {data : Bytes} (h : n ≤ data.length) :
    (keywordUpTo n).Works ["keyword"] data [⟨0, 0, n⟩] :=
  ⟨rfl, rfl, rfl, rfl, rfl, by simpa using h⟩

theorem colours_shown_of_keyword :
    ShowsColours (keywordUpTo 2) [97, 98] (colourAt ["keyword"] [⟨0, 0, 2⟩]) := by
  apply (colours_shown_iff (keywordUpTo_works (by decide)) (by decide)).mpr
  intro i hi _
  have hi : i = 0 := by
    simp only [List.length_cons, List.length_nil] at hi
    omega
  subst hi
  decide

/-- In `ab` only `a` is a keyword. The node passes on `\x1b[35mab\x1b[0m`, and `b` is shown in
magenta too. -/
theorem colours_run_on :
    (keywordUpTo 1).Works ["keyword"] [97, 98] [⟨0, 0, 1⟩] ∧
    colourAt ["keyword"] [⟨0, 0, 1⟩] 1 = 0 ∧
    (treeSitter (keywordUpTo 1) record [97, 98] []).2.map (shown .default) =
      [([(97, .magenta), (98, .magenta)], .default)] ∧
    ¬ ShowsColours (keywordUpTo 1) [97, 98] (colourAt ["keyword"] [⟨0, 0, 1⟩]) := by
  have hshown : (treeSitter (keywordUpTo 1) record [97, 98] []).2.map (shown .default) =
      [([(97, .magenta), (98, .magenta)], .default)] := by decide +kernel
  refine ⟨keywordUpTo_works (by decide), by decide, hshown, ?_⟩
  rintro ⟨out, hout, hcolours⟩
  rw [hout _ record []] at hshown
  simp only [record, List.nil_append, List.map_cons, List.map_nil, List.cons.injEq, and_true] at hshown
  rw [hshown] at hcolours
  exact absurd hcolours (by decide)

end Omnipp.Cat
