import Omnipp.Lib.Loop
import Omnipp.Transform.VectorScan

/-! # `transform::SimpleRegex` -/

open Omnipp.Lines

namespace Omnipp.Transform

variable {σ : Type}

/-- `'\r'` -/
def carriageReturn : Byte := 13

/-- `std::regex_search` with the regex of the node: the position and the length of the match, if
there is one, or the text of the `std::regex_error` that it throws. -/
structure Regex where
  search : Bytes → Except String (Option (Nat × Nat))
  inside : ∀ str position length, search str = .ok (some (position, length)) →
    position + length ≤ str.length

/-- The `line` that is passed on for a match. -/
def simpleLine (str : Bytes) (position matchEnd : Nat) : Bytes :=
  ((str.take (lineEnd str matchEnd)).drop (lineStart str position)).dropWhile fun c =>
    c = newline ∨ c = carriageReturn

/-- The loop of `SimpleRegexNode::operator()`, over `found` and `str`. -/
def simpleLoop (regex : Regex) (next : Stage (Bytes × Bool) σ) :
    Loop (Nat × Bytes × σ) (Expected × σ) where
  body st :=
    let (found, str, s) := st
    match regex.search str with
    | .error what => .leave (.error what, s)
    | .ok none => .leave (.ok found, s)
    | .ok (some (position, length)) =>
      let matchEnd := position + length
      match next (simpleLine str position matchEnd, true) s with
      | (.error e, t) => .leave (.error e, t)
      | (.ok _, t) =>
        match find newline str matchEnd with
        | none => .leave (.ok (found + 1), t)
        | some nextNewline => .again (found + 1, str.drop (nextNewline + 1), t)
  rank st := st.2.1.length
  falls := by
    rintro ⟨found, str, s⟩ st h
    simp only at h
    split at h
    · cases h
    · cases h
    · split at h
      · cases h
      · split at h
        · cases h
        · rename_i hfind
          have := find_lt hfind
          cases h
          simp only [List.length_drop]
          omega

/-- `SimpleRegexNode::operator()` -/
def simpleRegex (regex : Regex) (next : Stage (Bytes × Bool) σ) : Stage Bytes σ := fun data s =>
  (simpleLoop regex next).run (0, data, s)

/-! ## What it prints

The search finds its match in the first line that has one, and starts again behind that line.
-/

/-- The match of a search lies in the first line that contains one. `contains` says which lines do, and
the match may be empty. -/
structure LineLocal (contains : Bytes → Bool) (regex : Regex) : Prop where
  missing : ∀ str : Bytes, (∀ line ∈ str.splitOn newline, contains line = false) →
    regex.search str = .ok none
  first : ∀ str, ∀ l ∈ lines newline str, contains l.2 = true →
    (∀ l' ∈ lines newline str, l'.1 < l.1 → contains l'.2 = false) →
      ∃ position length, regex.search str = .ok (some (position, length)) ∧ l.1 ≤ position ∧
        position + length ≤ l.1 + l.2.length

/-- The loop that takes newlines and carriage returns off the front. -/
def trimmed (line : Bytes) : Bytes := line.dropWhile fun c => c = newline ∨ c = carriageReturn

variable {contains : Bytes → Bool} {regex : Regex} {next : Stage (Bytes × Bool) σ}

/-- Lines without a match. -/
def Quiet (contains : Bytes → Bool) (quiet : List Bytes) : Prop :=
  ∀ line ∈ quiet, newline ∉ line ∧ contains line = false

theorem simpleLine_line {str seg : Bytes} {a position length : Nat} (h : IsLine newline str a seg)
    (h1 : a ≤ position) (h2 : position + length ≤ a + seg.length) :
    simpleLine str position (position + length) = trimmed seg := by
  rw [simpleLine, lineStart_line h h1 (by omega), lineEnd_line h (by omega) h2, List.drop_take,
    Nat.add_sub_cancel_left, h.slice, trimmed]

theorem search_first (h : LineLocal contains regex) {quiet : List Bytes} (hquiet : Quiet contains quiet)
    {seg rest : Bytes} (hsplit : ∃ segs, rest.splitOn newline = seg :: segs) (hhit : contains seg = true) :
    ∃ position length, regex.search (terminated newline quiet ++ rest) = .ok (some (position, length)) ∧
      (terminated newline quiet).length ≤ position ∧
      position + length ≤ (terminated newline quiet).length + seg.length := by
  obtain ⟨segs, hsegs⟩ := hsplit
  have hlines : lines newline (terminated newline quiet ++ rest) =
      located 0 quiet ++ located (terminated newline quiet).length (seg :: segs) := by
    rw [lines, splitOn_terminated (fun line hl => (hquiet line hl).1), hsegs, located_append newline,
      Nat.zero_add]
  apply h.first _ ((terminated newline quiet).length, seg) (by simp [hlines, located]) hhit
  intro l hl hlt
  rw [hlines, List.mem_append] at hl
  rcases hl with hl | hl
  · exact (hquiet l.2 (snd_mem_of_mem_located hl)).2
  · have := le_of_mem_located hl
    omega

/-- One pass, when the first line with a match is `seg`. -/
theorem simple_line (h : LineLocal contains regex) {quiet : List Bytes} (hquiet : Quiet contains quiet)
    {seg : Bytes} (hseg : newline ∉ seg) (hhit : contains seg = true) (rest : Bytes) (found : Nat) (s : σ) :
    (simpleLoop regex next).run (found, terminated newline quiet ++ (seg ++ newline :: rest), s) =
      andThen (next (trimmed seg, true) s) fun _ t => (simpleLoop regex next).run (found + 1, rest, t) := by
  have hline : IsLine newline (terminated newline quiet ++ (seg ++ newline :: rest))
      (terminated newline quiet).length seg :=
    ⟨⟨_, newline :: rest, rfl, rfl, terminated_ends newline quiet, .inr ⟨rest, rfl⟩⟩, hseg⟩
  have hsplit : ∃ segs, (seg ++ newline :: rest).splitOn newline = seg :: segs :=
    ⟨_, List.splitOn_append_cons_self_of_not_mem hseg rest⟩
  obtain ⟨position, length, hsearch, h1, h2⟩ := search_first h hquiet hsplit hhit
  have hfind := hline.find (e := position + length) (by omega) h2
  rw [if_neg (by simp)] at hfind
  have hdrop : (terminated newline quiet ++ (seg ++ newline :: rest)).drop
      ((terminated newline quiet).length + seg.length + 1) = rest := by
    simp [← List.append_assoc, ← List.length_append]
  have hbody : (simpleLoop regex next).body (found, terminated newline quiet ++ (seg ++ newline :: rest), s) =
      match next (trimmed seg, true) s with
      | (.error e, t) => .leave (.error e, t)
      | (.ok _, t) => .again (found + 1, rest, t) := by
    simp only [simpleLoop, hsearch, simpleLine_line hline h1 h2, hfind, hdrop]
  rcases hn : next (trimmed seg, true) s with ⟨e | n, t⟩
  · rw [hn] at hbody
    exact Loop.run_leave _ hbody
  · rw [hn] at hbody
    exact Loop.run_again _ hbody

theorem simple_last (h : LineLocal contains regex) {quiet : List Bytes} (hquiet : Quiet contains quiet)
    {seg : Bytes} (hseg : newline ∉ seg) (hhit : contains seg = true) (found : Nat) (s : σ) :
    (simpleLoop regex next).run (found, terminated newline quiet ++ seg, s) =
      andThen (next (trimmed seg, true) s) fun _ t => (.ok (found + 1), t) := by
  have hline : IsLine newline (terminated newline quiet ++ seg) (terminated newline quiet).length seg :=
    ⟨⟨_, [], by simp, rfl, terminated_ends newline quiet, .inl rfl⟩, hseg⟩
  obtain ⟨position, length, hsearch, h1, h2⟩ := search_first h hquiet
    ⟨_, List.splitOn_eq_singleton hseg⟩ hhit
  have hfind := hline.find (e := position + length) (by omega) h2
  rw [if_pos (by simp)] at hfind
  apply Loop.run_leave
  simp only [simpleLoop, hsearch, simpleLine_line hline h1 h2, hfind]
  rcases next (trimmed seg, true) s with ⟨e | n, t⟩ <;> rfl

theorem simple_none (h : LineLocal contains regex) {quiet : List Bytes} (hquiet : Quiet contains quiet)
    {seg : Bytes} (hseg : newline ∉ seg) (hhit : contains seg = false) (found : Nat) (s : σ) :
    (simpleLoop regex next).run (found, terminated newline quiet ++ seg, s) = (.ok found, s) := by
  have hsearch : regex.search (terminated newline quiet ++ seg) = .ok none := by
    apply h.missing
    rw [splitOn_terminated (fun line hl => (hquiet line hl).1), List.splitOn_eq_singleton hseg]
    intro line hl
    rcases List.mem_append.mp hl with hl | hl
    · exact (hquiet line hl).2
    · rw [List.mem_singleton.mp hl, hhit]
  apply Loop.run_leave
  simp only [simpleLoop, hsearch]

/-- The pieces between the newlines that contain a match. -/
def hitLines (contains : Bytes → Bool) (data : Bytes) : List Bytes := (data.splitOn newline).filter contains

/-- `SimpleRegex` passes on the lines that contain a match in order, without the carriage returns in
front, until the first error, and counts them. -/
theorem simple_regex_spec (h : LineLocal contains regex) (data : Bytes) (s : σ) :
    simpleRegex regex next data s =
      andThen (feed next ((hitLines contains data).map fun line => (trimmed line, true)) s) fun _ t =>
        (.ok (hitLines contains data).length, t) := by
  have hrun : ∀ quiet, Quiet contains quiet → ∀ found s,
      (simpleLoop regex next).run (found, terminated newline quiet ++ data, s) =
        andThen (feed next ((hitLines contains data).map fun line => (trimmed line, true)) s) fun _ t =>
          (.ok (found + (hitLines contains data).length), t) := by
    induction data using line_induction newline with
    | last seg hseg =>
      intro quiet hquiet found s
      rw [hitLines, List.splitOn_eq_singleton hseg]
      cases hhit : contains seg with
      | true =>
        rw [simple_last h hquiet hseg hhit, List.filter_cons_of_pos hhit]
        simp [feed]
      | false =>
        rw [simple_none h hquiet hseg hhit, List.filter_cons_of_neg (by simp [hhit])]
        rfl
    | step seg rest hseg ih =>
      intro quiet hquiet found s
      rw [hitLines, List.splitOn_append_cons_self_of_not_mem hseg]
      cases hhit : contains seg with
      | true =>
        have hrest := ih [] (by simp [Quiet])
        rw [simple_line h hquiet hseg hhit, List.filter_cons_of_pos hhit]
        simp only [terminated, List.flatMap_nil, List.nil_append, hitLines] at hrest
        simp only [hrest, List.map_cons, feed, andThen_assoc, andThen_ok, List.length_cons, Nat.add_assoc,
          Nat.add_comm 1]
      | false =>
        have hquiet' : Quiet contains (quiet ++ [seg]) := by
          intro line hl
          rcases List.mem_append.mp hl with hl | hl
          · exact hquiet line hl
          · rw [List.mem_singleton.mp hl]
            exact ⟨hseg, hhit⟩
        have hrest := ih (quiet ++ [seg]) hquiet' found s
        rw [terminated_snoc, List.append_assoc, List.append_assoc] at hrest
        rw [List.filter_cons_of_neg (by simp [hhit])]
        exact hrest
  simpa [simpleRegex, terminated] using hrun [] (by simp [Quiet]) 0 s

end Omnipp.Transform
