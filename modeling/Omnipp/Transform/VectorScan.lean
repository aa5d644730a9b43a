import Mathlib.Data.List.Forall2
import Omnipp.Lib.Lines
import Omnipp.Pipeline

/-! # `transform::VectorScan` -/

open Omnipp.Lines

namespace Omnipp.Transform

/-- `std::string_view::substr`, which throws `out_of_range` past the end. -/
def substr (str : Bytes) (pos count : Nat) : Except String Bytes :=
  let size := str.length
  if size < pos then
    .error s!"basic_string_view::substr: __pos (which is {pos}) > __size (which is {size})"
  else .ok ((str.drop pos).take count)

/-- `a - b` on `std::size_t`. -/
def sizeSub (a b : Nat) : Nat := if b ≤ a then a - b else 2 ^ 64 + a - b

def lineStart (str : Bytes) (matchEnd : Nat) : Nat :=
  match findLastOf newline (str.take matchEnd) with
  | none => 0
  | some previousNewline => previousNewline + 1

def lineEnd (str : Bytes) (matchEnd : Nat) : Nat := (find newline str matchEnd).getD str.length

def lineOf (str : Bytes) (matchEnd : Nat) : Except String Bytes :=
  substr str (lineStart str matchEnd) (sizeSub (lineEnd str matchEnd) (lineStart str matchEnd))

/-- The loop over `ctx.matches`. -/
def emit {σ : Type} (next : Stage Bytes σ) (str : Bytes) (found : Nat) : List Nat → σ → Expected × σ
  | [], s => (.ok found, s)
  | matchEnd :: ends, s =>
    match lineOf str matchEnd with
    | .error what => (.error what, s)
    | .ok line => andThen (printLine next line s) fun _ t => emit next str found ends t

/-- `VectorScanNode::operator()`. `hsScan` gives the `to` of every match that `hs_scan` reports to
`on_match`, or `none` when it fails. -/
def vectorScan {σ : Type} (hsScan : Bytes → Option (List Nat)) (next : Stage Bytes σ) :
    Stage Bytes σ := fun data s =>
  match hsScan data with
  | none => (.error "failed to parse input", s)
  | some ends => emit next data ends.length ends s

/-! ## What it prints -/

theorem lineStart_le (str : Bytes) (matchEnd : Nat) : lineStart str matchEnd ≤ str.length := by
  unfold lineStart
  split
  · omega
  · rename_i i hi
    have := findLastOf_lt hi
    rw [List.length_take] at this
    omega

/-- What `lineOf` returns: `substr` does not throw. -/
def lineAt (str : Bytes) (matchEnd : Nat) : Bytes :=
  (str.drop (lineStart str matchEnd)).take
    (sizeSub (lineEnd str matchEnd) (lineStart str matchEnd))

theorem lineOf_eq (str : Bytes) (matchEnd : Nat) : lineOf str matchEnd = .ok (lineAt str matchEnd) := by
  have := lineStart_le str matchEnd
  unfold lineOf substr
  exact if_neg (by omega)

theorem emit_spec {σ : Type} (next : Stage Bytes σ) (str : Bytes) (found : Nat) (ends : List Nat)
    (s : σ) :
    emit next str found ends s =
      andThen (feed next (printed (ends.map (lineAt str))) s) fun _ t => (.ok found, t) := by
  induction ends generalizing s with
  | nil => rfl
  | cons e ends ih =>
    rw [List.map_cons, feed_printed_cons, emit, lineOf_eq]
    simp only [ih]

def emitted (hsScan : Bytes → Option (List Nat)) (data : Bytes) : List Bytes :=
  ((hsScan data).getD []).map (lineAt data)

theorem vector_scan_spec {σ : Type} (next : Stage Bytes σ) {hsScan : Bytes → Option (List Nat)}
    {data : Bytes} {ends : List Nat} (h : hsScan data = some ends) (s : σ) :
    vectorScan hsScan next data s =
      andThen (feed next (printed (emitted hsScan data)) s) fun _ t => (.ok ends.length, t) := by
  rw [vectorScan, emitted, h]
  exact emit_spec next data ends.length ends s

theorem lineStart_line {str seg : Bytes} {a e : Nat} (h : IsLine newline str a seg) (h1 : a ≤ e)
    (h2 : e ≤ a + seg.length) : lineStart str e = a := by
  rw [lineStart, h.findLastOf h1 h2]
  by_cases ha : a = 0
  · simp [ha]
  · simp only [if_neg ha]
    omega

theorem lineEnd_line {str seg : Bytes} {a e : Nat} (h : IsLine newline str a seg) (h1 : a ≤ e)
    (h2 : e ≤ a + seg.length) : lineEnd str e = a + seg.length := by
  rw [lineEnd, h.find h1 h2]
  by_cases he : a + seg.length = str.length
  · simp [he]
  · simp [he]

theorem lineAt_line {str seg : Bytes} {a e : Nat} (h : IsLine newline str a seg) (h1 : a ≤ e)
    (h2 : e ≤ a + seg.length) : lineAt str e = seg := by
  have hcount : sizeSub (a + seg.length) a = seg.length := by
    rw [sizeSub, if_pos (by omega)]
    omega
  rw [lineAt, lineStart_line h h1 h2, lineEnd_line h h1 h2, hcount, h.slice]

theorem emitted_by_line {hsScan : Bytes → Option (List Nat)} {data : Bytes}
    {f : Nat × Bytes → List Nat} (hscan : hsScan data = some ((lines newline data).flatMap f))
    (hin : ∀ l ∈ lines newline data, ∀ e ∈ f l, l.1 ≤ e ∧ e ≤ l.1 + l.2.length) :
    emitted hsScan data =
      (lines newline data).flatMap fun l => List.replicate (f l).length l.2 := by
  rw [emitted, hscan, Option.getD_some, List.map_flatMap]
  apply List.flatMap_congr
  intro l hl
  rw [← List.map_const']
  apply List.map_congr_left
  intro e he
  obtain ⟨h1, h2⟩ := hin l hl e he
  exact lineAt_line (isLine_of_mem_lines hl) h1 h2

/-! ## The place of a line -/

/-- Where the line of a match starts and where it ends. -/
def segment (str : Bytes) (matchEnd : Nat) : Nat × Nat := (lineStart str matchEnd, lineEnd str matchEnd)

def textAt (str : Bytes) (place : Nat × Nat) : Bytes := (str.drop place.1).take (place.2 - place.1)

/-- The searches and the subtraction stay inside the block, `substr` does not throw, and what it returns is
a line. -/
structure InRange (str : Bytes) (matchEnd : Nat) : Prop where
  start_le : lineStart str matchEnd ≤ matchEnd
  le_end : matchEnd ≤ lineEnd str matchEnd
  end_le : lineEnd str matchEnd ≤ str.length
  count : sizeSub (lineEnd str matchEnd) (lineStart str matchEnd) =
    lineEnd str matchEnd - lineStart str matchEnd
  returns : lineOf str matchEnd = .ok (textAt str (segment str matchEnd))
  clean : newline ∉ textAt str (segment str matchEnd)
  starts : lineStart str matchEnd = 0 ∨ ∃ k, lineStart str matchEnd = k + 1 ∧ str[k]? = some newline
  ends : lineEnd str matchEnd = str.length ∨ str[lineEnd str matchEnd]? = some newline

theorem lineAt_eq_textAt {str : Bytes} {matchEnd : Nat}
    (h : lineStart str matchEnd ≤ lineEnd str matchEnd) :
    lineAt str matchEnd = textAt str (segment str matchEnd) := by
  unfold lineAt textAt segment sizeSub
  rw [if_pos h]

theorem inRange {str : Bytes} {e : Nat} (h : e ≤ str.length) : InRange str e := by
  obtain ⟨a, seg, hline, h1, h2⟩ := exists_isLine newline str h
  have hstart := lineStart_line hline h1 h2
  have hend := lineEnd_line hline h1 h2
  have hle : lineStart str e ≤ lineEnd str e := by omega
  have htext := lineAt_eq_textAt hle
  refine ⟨by omega, by omega, ?_, ?_, ?_, ?_, ?_, ?_⟩
  · rw [hend]
    exact hline.le_length
  · exact if_pos hle
  · rw [lineOf_eq, htext]
  · rw [← htext, lineAt_line hline h1 h2]
    exact hline.clean
  · rw [hstart]
    exact hline.starts
  · rw [hend]
    exact hline.ends

/-- The line of a match is that of an earlier one, or it starts behind the end of that one. -/
def Follows (x y : Nat × Nat) : Prop := x = y ∨ x.2 < y.1

theorem segment_line {str seg : Bytes} {a e : Nat} (h : IsLine newline str a seg) (h1 : a ≤ e)
    (h2 : e ≤ a + seg.length) : segment str e = (a, a + seg.length) := by
  rw [segment, lineStart_line h h1 h2, lineEnd_line h h1 h2]

theorem segment_follows {str : Bytes} {e₁ e₂ : Nat} (hle : e₁ ≤ e₂) (h : e₂ ≤ str.length) :
    Follows (segment str e₁) (segment str e₂) := by
  obtain ⟨a, seg, hline, h1, h2⟩ := exists_isLine newline str (Nat.le_trans hle h)
  obtain ⟨b, seg', hline', h1', h2'⟩ := exists_isLine newline str h
  rw [segment_line hline h1 h2]
  by_cases hin : e₂ ≤ a + seg.length
  · left
    rw [segment_line hline (Nat.le_trans h1 hle) hin]
  · right
    rw [segment_line hline' h1' h2']
    -- Otherwise the end of the first line is a place in the second one, and the two are the same.
    by_contra hbehind
    have hsame := segment_line hline' (e := a + seg.length) (Nat.le_of_not_lt hbehind) (by omega)
    rw [segment_line hline (Nat.le_add_right _ _) (Nat.le_refl _), Prod.mk.injEq] at hsame
    omega

/-- For every match end inside the block the line is in range, and a later match has the same line or one
behind it. So the node emits the lines of its matches in block order, and does not throw. -/
theorem vector_scan_in_range (str : Bytes) :
    (∀ e ≤ str.length, InRange str e) ∧
    (∀ e₁ e₂, e₁ ≤ e₂ → e₂ ≤ str.length → Follows (segment str e₁) (segment str e₂)) ∧
    ∀ ends : List Nat, ends.Pairwise (· ≤ ·) → (∀ e ∈ ends, e ≤ str.length) →
      (ends.map (segment str)).Pairwise Follows ∧
      ∀ hsScan : Bytes → Option (List Nat), hsScan str = some ends →
        ∀ (σ : Type) (next : Stage Bytes σ) (s : σ), vectorScan hsScan next str s =
          andThen (feed next (printed ((ends.map (segment str)).map (textAt str))) s) fun _ t =>
            (.ok ends.length, t) := by
  refine ⟨fun e he => inRange he, fun e₁ e₂ => segment_follows, ?_⟩
  intro ends hsorted hin
  constructor
  · rw [List.pairwise_map]
    exact hsorted.imp_of_mem fun _ he hle => segment_follows hle (hin _ he)
  · intro hsScan hscan σ next s
    have hlines : emitted hsScan str = (ends.map (segment str)).map (textAt str) := by
      rw [emitted, hscan, Option.getD_some, List.map_map]
      apply List.map_congr_left
      intro e he
      have hrange := inRange (hin e he)
      exact lineAt_eq_textAt (Nat.le_trans hrange.start_le hrange.le_end)
    rw [vector_scan_spec next hscan, hlines]

/-- In `a\n\nb`, the ends before, on and behind each newline. -/
theorem vector_scan_in_range_of_empty_line :
    ([0, 1, 2, 3, 4].map (segment [97, 10, 10, 98])) = [(0, 1), (0, 1), (2, 2), (3, 4), (3, 4)] ∧
    ([0, 1, 2, 3, 4].map (segment [97, 10, 10, 98])).Pairwise Follows ∧
    InRange [97, 10, 10, 98] 4 := by
  obtain ⟨hrange, -, hends⟩ := vector_scan_in_range [97, 10, 10, 98]
  exact ⟨by decide, (hends [0, 1, 2, 3, 4] (by decide) (by decide)).1, hrange 4 (by decide)⟩

/-! ## The line of a match

The node knows where a match ends, and looks for the line there. The last byte of the match is the
one before.
-/

/-- The byte at `p` is in the line, or it is the newline that ends it. -/
def OnLine (data : Bytes) (p : Nat) (line : Bytes) : Prop :=
  ∃ a, IsLine newline data a line ∧ a ≤ p ∧ p ≤ a + line.length

theorem OnLine.lineAt_eq {data line : Bytes} {p : Nat} (h : OnLine data p line) : lineAt data p = line := by
  obtain ⟨a, hline, h1, h2⟩ := h
  exact lineAt_line hline h1 h2

theorem onLine_lineAt {data : Bytes} {p : Nat} (h : p ≤ data.length) : OnLine data p (lineAt data p) := by
  obtain ⟨a, line, hline, h1, h2⟩ := exists_isLine newline data h
  rw [lineAt_line hline h1 h2]
  exact ⟨a, hline, h1, h2⟩

theorem lineAt_succ {data : Bytes} {p : Nat} (hp : p < data.length) (h : data[p]? ≠ some newline) :
    lineAt data (p + 1) = lineAt data p := by
  obtain ⟨a, line, hline, h1, h2⟩ := exists_isLine newline data (Nat.le_of_lt hp)
  have hlt := hline.lt_of_getElem h2 hp h
  rw [lineAt_line hline h1 h2, lineAt_line hline (by omega) (by omega)]

/-- The matches `[from, to)` of a block. None is empty. -/
def Matches (data : Bytes) (found : List (Nat × Nat)) : Prop := ∀ m ∈ found, m.1 < m.2 ∧ m.2 ≤ data.length

/-- For each match in order, the line of its last byte and a newline, and the number of matches. -/
def PrintsLines (data : Bytes) (found : List (Nat × Nat)) : Prop :=
  ∃ ls, List.Forall₂ (fun m line => OnLine data (m.2 - 1) line) found ls ∧
    ∀ hsScan : Bytes → Option (List Nat), hsScan data = some (found.map Prod.snd) →
      ∀ (σ : Type) (next : Stage Bytes σ) (s : σ), vectorScan hsScan next data s =
        andThen (feed next (printed ls) s) fun _ t => (.ok found.length, t)

theorem forall₂_onLine {data : Bytes} {found : List (Nat × Nat)} (h : Matches data found) (ls : List Bytes) :
    List.Forall₂ (fun m line => OnLine data (m.2 - 1) line) found ls ↔
      ls = found.map fun m => lineAt data (m.2 - 1) := by
  induction found generalizing ls with
  | nil => simp
  | cons m found ih =>
    have hm := h m List.mem_cons_self
    have hrest := ih fun m' hm' => h m' (List.mem_cons_of_mem m hm')
    simp only [List.forall₂_cons_left_iff, hrest, List.map_cons]
    constructor
    · rintro ⟨line, ls', hline, rfl, rfl⟩
      rw [hline.lineAt_eq]
    · rintro rfl
      exact ⟨_, _, onLine_lineAt (by omega), rfl, rfl⟩

theorem printsLines_iff {data : Bytes} {found : List (Nat × Nat)} (h : Matches data found) :
    PrintsLines data found ↔ ∀ m ∈ found, lineAt data m.2 = lineAt data (m.2 - 1) := by
  have hspec : ∀ hsScan : Bytes → Option (List Nat), hsScan data = some (found.map Prod.snd) →
      emitted hsScan data = found.map fun m => lineAt data m.2 := by
    intro hsScan hscan
    simp [emitted, hscan]
  constructor
  · rintro ⟨ls, hls, hall⟩
    rw [forall₂_onLine h] at hls
    let hsScan : Bytes → Option (List Nat) := fun _ => some (found.map Prod.snd)
    have hscan : hsScan data = some (found.map Prod.snd) := rfl
    have hrec := congrArg Prod.snd (hall hsScan hscan _ record [])
    rw [vector_scan_spec record hscan, hspec _ hscan, feed_record, feed_record] at hrec
    have heq := printed_injective hrec
    rw [hls] at heq
    simpa using heq
  · intro hsame
    refine ⟨_, (forall₂_onLine h _).mpr rfl, fun hsScan hscan σ next s => ?_⟩
    rw [vector_scan_spec next hscan, hspec _ hscan, List.map_congr_left hsame, List.length_map]

/-- The node prints the line of every match exactly when each match that ends in a newline has two
equal lines on the two sides of it. -/
theorem vector_scan_line_iff {data : Bytes} {found : List (Nat × Nat)} (h : Matches data found) :
    PrintsLines data found ↔
      ∀ m ∈ found, data[m.2 - 1]? = some newline → ∀ line behind, OnLine data (m.2 - 1) line →
        OnLine data m.2 behind → line = behind := by
  rw [printsLines_iff h]
  apply forall₂_congr
  intro m hm
  have hin := h m hm
  constructor
  · intro hsame _ line behind hline hbehind
    rw [← hline.lineAt_eq, ← hbehind.lineAt_eq, hsame]
  · intro hcond
    by_cases hnl : data[m.2 - 1]? = some newline
    · exact (hcond hnl _ _ (onLine_lineAt (by omega)) (onLine_lineAt hin.2)).symm
    · have hsucc := lineAt_succ (by omega) hnl
      rwa [Nat.sub_add_cancel (by omega)] at hsucc

theorem vector_scan_line_of_ab :
    Matches [97, 98, 10] [(0, 1), (0, 2)] ∧ PrintsLines [97, 98, 10] [(0, 1), (0, 2)] := by
  have h : Matches [97, 98, 10] [(0, 1), (0, 2)] := by
    unfold Matches
    decide
  refine ⟨h, (vector_scan_line_iff h).mpr ?_⟩
  intro m hm hnl
  simp only [List.mem_cons, List.not_mem_nil, or_false] at hm
  rcases hm with rfl | rfl
  · exact absurd hnl (by decide)
  · exact absurd hnl (by decide)

/-- The text `a\nb` and the match of its newline: the line of the match is `a`, and `b` is printed. -/
theorem vector_scan_prints_line_behind :
    Matches [97, 10, 98] [(1, 2)] ∧ OnLine [97, 10, 98] 1 [97] ∧
    vectorScan (fun _ => some [2]) record [97, 10, 98] [] = (.ok 1, [[98], [10]]) ∧
    ¬ PrintsLines [97, 10, 98] [(1, 2)] := by
  have h : Matches [97, 10, 98] [(1, 2)] := by
    unfold Matches
    decide
  refine ⟨h, ⟨0, ⟨⟨[], [10, 98], rfl, rfl, .inl rfl, .inr ⟨[98], rfl⟩⟩, by decide⟩, by decide, by decide⟩,
    by decide, ?_⟩
  rw [printsLines_iff h]
  decide

end Omnipp.Transform
