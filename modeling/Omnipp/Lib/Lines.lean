import Mathlib.Data.List.Basic
import Mathlib.Order.Basic

/-!
# Lines

A text with delimiters, its lines and where they start. `find` and `findLastOf` are the
searches of a string view, with `none` for `npos`.
-/

namespace Omnipp.Lines

variable {α : Type*}

/-! ## Searching -/

section Search
variable [DecidableEq α]

/-- The first `d` at `pos` or later. -/
def find (d : α) (data : List α) (pos : Nat) : Option Nat :=
  ((data.drop pos).idxOf? d).map (pos + ·)

/-- The last `d`. -/
def findLastOf (d : α) (data : List α) : Option Nat :=
  (data.reverse.idxOf? d).map fun i => data.length - 1 - i

theorem idxOf_append_cons {d : α} {seg : List α} (h : d ∉ seg) (post : List α) :
    (seg ++ d :: post).idxOf? d = some seg.length := by
  induction seg with
  | nil => simp [List.idxOf?_cons]
  | cons x seg ih =>
    simp only [List.mem_cons, not_or] at h
    simp [List.idxOf?_cons, Ne.symm h.1, ih h.2]

theorem findLastOf_none {d : α} {seg : List α} (h : d ∉ seg) : findLastOf d seg = none := by
  simp [findLastOf, List.idxOf?_eq_none_iff, h]

theorem findLastOf_append {d : α} {seg : List α} (h : d ∉ seg) (pre : List α) :
    findLastOf d (pre ++ d :: seg) = some pre.length := by
  have hrev : (pre ++ d :: seg).reverse = seg.reverse ++ d :: pre.reverse := by simp
  rw [findLastOf, hrev, idxOf_append_cons (by simpa using h)]
  simp

theorem findLastOf_lt {d : α} {data : List α} {i : Nat} (h : findLastOf d data = some i) :
    i < data.length := by
  simp only [findLastOf, Option.map_eq_some_iff] at h
  obtain ⟨k, hk, rfl⟩ := h
  have hmem : d ∈ data.reverse := by
    by_contra hd
    rw [List.idxOf?_eq_none_iff.mpr hd] at hk
    cases hk
  have := List.length_pos_of_mem hmem
  rw [List.length_reverse] at this
  omega

theorem find_none {d : α} {data : List α} {pos : Nat} (h : d ∉ data.drop pos) :
    find d data pos = none := by
  simp [find, List.idxOf?_eq_none_iff, h]

theorem find_append {d : α} {seg post : List α} (h : d ∉ seg) (pre : List α) :
    find d (pre ++ (seg ++ d :: post)) pre.length = some (pre.length + seg.length) := by
  rw [find, List.drop_left, idxOf_append_cons h]
  rfl

theorem find_lt {d : α} {data : List α} {pos i : Nat} (h : find d data pos = some i) :
    i < data.length := by
  simp only [find, Option.map_eq_some_iff] at h
  obtain ⟨k, hk, rfl⟩ := h
  have hmem : d ∈ data.drop pos := by
    by_contra hd
    rw [List.idxOf?_eq_none_iff.mpr hd] at hk
    cases hk
  have hlt : k < (data.drop pos).length := by
    rw [List.idxOf?_eq_some_iff] at hk
    exact hk.1
  rw [List.length_drop] at hlt
  omega

end Search

/-! ## Lines and their places -/

/-- `seg` is the line of `data` that starts at `a`. -/
structure IsLine (d : α) (data : List α) (a : Nat) (seg : List α) : Prop where
  parts : ∃ pre post, data = pre ++ (seg ++ post) ∧ a = pre.length ∧
    (pre = [] ∨ ∃ p, pre = p ++ [d]) ∧ (post = [] ∨ ∃ p, post = d :: p)
  clean : d ∉ seg

theorem IsLine.slice {d : α} {data seg : List α} {a : Nat} (h : IsLine d data a seg) :
    (data.drop a).take seg.length = seg := by
  obtain ⟨⟨pre, post, rfl, rfl, -, -⟩, -⟩ := h
  simp

theorem IsLine.le_length {d : α} {data seg : List α} {a : Nat} (h : IsLine d data a seg) :
    a + seg.length ≤ data.length := by
  obtain ⟨⟨pre, post, rfl, rfl, -, -⟩, -⟩ := h
  simp

theorem IsLine.starts {d : α} {data seg : List α} {a : Nat} (h : IsLine d data a seg) :
    a = 0 ∨ ∃ k, a = k + 1 ∧ data[k]? = some d := by
  obtain ⟨⟨pre, post, rfl, rfl, hstart, -⟩, -⟩ := h
  rcases hstart with rfl | ⟨p, rfl⟩
  · exact .inl rfl
  · exact .inr ⟨p.length, by simp, by simp⟩

theorem IsLine.ends {d : α} {data seg : List α} {a : Nat} (h : IsLine d data a seg) :
    a + seg.length = data.length ∨ data[a + seg.length]? = some d := by
  obtain ⟨⟨pre, post, rfl, rfl, -, hend⟩, -⟩ := h
  rcases hend with rfl | ⟨p, rfl⟩
  · exact .inl (by simp)
  · right
    rw [← List.append_assoc, ← List.length_append]
    simp

theorem IsLine.shift {d : α} {rest seg : List α} {a : Nat} (h : IsLine d rest a seg) (front : List α) :
    IsLine d (front ++ d :: rest) (front.length + 1 + a) seg := by
  obtain ⟨⟨pre, post, rfl, rfl, hstart, hend⟩, hclean⟩ := h
  refine ⟨⟨front ++ d :: pre, post, by simp, by simp; omega, .inr ?_, hend⟩, hclean⟩
  rcases hstart with rfl | ⟨p, rfl⟩
  · exact ⟨front, rfl⟩
  · exact ⟨front ++ d :: p, by simp⟩

/-- A position in a line holds no delimiter, or it is the line's end. -/
theorem IsLine.lt_of_getElem {d : α} {data seg : List α} {a e : Nat} (h : IsLine d data a seg)
    (h2 : e ≤ a + seg.length) (he : e < data.length) (hd : data[e]? ≠ some d) : e < a + seg.length := by
  obtain ⟨⟨pre, post, rfl, rfl, -, hend⟩, -⟩ := h
  rcases Nat.lt_or_eq_of_le h2 with hlt | rfl
  · exact hlt
  · rcases hend with rfl | ⟨p, rfl⟩
    · simp at he
    · rw [← List.append_assoc, ← List.length_append] at hd
      simp at hd

/-- The segments of a text that starts at `n`, each with its place. -/
def located : Nat → List (List α) → List (Nat × List α)
  | _, [] => []
  | n, seg :: segs => (n, seg) :: located (n + seg.length + 1) segs

theorem map_located (n : Nat) (segs : List (List α)) : (located n segs).map Prod.snd = segs := by
  induction segs generalizing n with
  | nil => rfl
  | cons seg segs ih => simp [located, ih]

theorem le_of_mem_located {n : Nat} {segs : List (List α)} {l : Nat × List α}
    (h : l ∈ located n segs) : n ≤ l.1 := by
  induction segs generalizing n with
  | nil => simp [located] at h
  | cons seg segs ih =>
    simp only [located, List.mem_cons] at h
    rcases h with rfl | h
    · exact Nat.le_refl _
    · have := ih h
      omega

/-- Segments, each with its delimiter. -/
def terminated (d : α) (segs : List (List α)) : List α := segs.flatMap fun seg => seg ++ [d]

theorem terminated_snoc (d : α) (segs : List (List α)) (seg : List α) :
    terminated d (segs ++ [seg]) = terminated d segs ++ (seg ++ [d]) := by
  simp [terminated]

theorem terminated_ends (d : α) (segs : List (List α)) :
    terminated d segs = [] ∨ ∃ p, terminated d segs = p ++ [d] := by
  rcases List.eq_nil_or_concat segs with rfl | ⟨init, seg, rfl⟩
  · exact .inl rfl
  · exact .inr ⟨terminated d init ++ seg, by rw [List.concat_eq_append, terminated_snoc, List.append_assoc]⟩

theorem located_append (d : α) (n : Nat) (xs ys : List (List α)) :
    located n (xs ++ ys) = located n xs ++ located (n + (terminated d xs).length) ys := by
  induction xs generalizing n with
  | nil => rfl
  | cons seg xs ih =>
    have hlen : n + (terminated d (seg :: xs)).length = n + seg.length + 1 + (terminated d xs).length := by
      simp only [terminated, List.flatMap_cons, List.length_append, List.length_singleton]
      omega
    rw [List.cons_append, located, located, List.cons_append, ih, hlen]

theorem snd_mem_of_mem_located {n : Nat} {segs : List (List α)} {l : Nat × List α}
    (h : l ∈ located n segs) : l.2 ∈ segs := by
  rw [← map_located n segs]
  exact List.mem_map_of_mem h

/-- `e` is the end of something not empty in the line. -/
def Inside (l : Nat × List α) (e : Nat) : Prop := l.1 < e ∧ e ≤ l.1 + l.2.length

instance (l : Nat × List α) (e : Nat) : Decidable (Inside l e) := inferInstanceAs (Decidable (_ ∧ _))

theorem filter_le_append_filter_lt {ends : List Nat} (h : ends.Pairwise (· ≤ ·)) (b : Nat) :
    ends.filter (· ≤ b) ++ ends.filter (b < ·) = ends := by
  induction ends with
  | nil => rfl
  | cons e ends ih =>
    obtain ⟨hhead, htail⟩ := List.pairwise_cons.mp h
    by_cases he : e ≤ b
    · simp [he, ih htail]
    · have hlow : ends.filter (· ≤ b) = [] := by
        rw [List.filter_eq_nil_iff]
        intro x hx
        have := hhead x hx
        simp only [decide_eq_true_eq]
        omega
      have hhigh : ends.filter (b < ·) = ends := by
        rw [List.filter_eq_self]
        intro x hx
        have := hhead x hx
        simp only [decide_eq_true_eq]
        omega
      rw [List.filter_cons_of_neg (by simpa using he), List.filter_cons_of_pos (by simp; omega), hlow,
        hhigh]
      rfl

/-- Ends in order, each inside a line, come line by line. -/
theorem ends_by_line {n : Nat} {segs : List (List α)} {ends : List Nat}
    (hsorted : ends.Pairwise (· ≤ ·)) (hin : ∀ e ∈ ends, ∃ l ∈ located n segs, Inside l e) :
    ends = (located n segs).flatMap fun l => ends.filter (Inside l) := by
  induction segs generalizing n ends with
  | nil =>
    apply List.eq_nil_iff_forall_not_mem.mpr
    intro e he
    obtain ⟨l, hl, -⟩ := hin e he
    simp [located] at hl
  | cons seg segs ih =>
    have hlow : ends.filter (· ≤ n + seg.length) = ends.filter (Inside (n, seg)) := by
      apply List.filter_congr
      intro e he
      obtain ⟨l, hl, hlt, hle⟩ := hin e he
      simp only [located, List.mem_cons] at hl
      rw [decide_eq_decide]
      rcases hl with rfl | hl
      · exact ⟨fun _ => ⟨hlt, hle⟩, fun _ => hle⟩
      · have := le_of_mem_located hl
        exact ⟨fun h => by omega, fun h => h.2⟩
    have hhigh : ∀ l ∈ located (n + seg.length + 1) segs,
        (ends.filter (n + seg.length < ·)).filter (Inside l) = ends.filter (Inside l) := by
      intro l hl
      have := le_of_mem_located hl
      rw [List.filter_filter]
      apply List.filter_congr
      intro e _
      rw [Bool.and_eq_left_iff_imp, decide_eq_true_eq, decide_eq_true_eq]
      intro hl
      have := hl.1
      omega
    have hrest := @ih (n + seg.length + 1) (ends.filter (n + seg.length < ·)) (hsorted.filter _) (by
      intro e he
      simp only [List.mem_filter, decide_eq_true_eq] at he
      obtain ⟨l, hl, hlt, hle⟩ := hin e he.1
      simp only [located, List.mem_cons] at hl
      rcases hl with rfl | hl
      · simp only at hle
        omega
      · exact ⟨l, hl, hlt, hle⟩)
    rw [List.flatMap_congr hhigh] at hrest
    rw [located, List.flatMap_cons, ← hrest, ← hlow]
    exact (filter_le_append_filter_lt hsorted _).symm

section Text
variable [DecidableEq α]

/-- The lines of a text, each with the position it starts at. -/
def lines (d : α) (data : List α) : List (Nat × List α) := located 0 (data.splitOn d)

theorem map_lines (d : α) (data : List α) : (lines d data).map Prod.snd = data.splitOn d :=
  map_located 0 _

theorem splitOn_terminated {d : α} {segs : List (List α)} (h : ∀ seg ∈ segs, d ∉ seg) (rest : List α) :
    (terminated d segs ++ rest).splitOn d = segs ++ rest.splitOn d := by
  induction segs with
  | nil => rfl
  | cons seg segs ih =>
    have hrest := ih fun x hx => h x (List.mem_cons_of_mem seg hx)
    have hsplit : terminated d (seg :: segs) ++ rest = seg ++ d :: (terminated d segs ++ rest) := by
      simp [terminated]
    rw [hsplit, List.splitOn_append_cons_self_of_not_mem (h seg List.mem_cons_self), hrest, List.cons_append]

/-- The induction over the lines of a text. -/
theorem line_induction (d : α) {motive : List α → Prop} (last : ∀ seg, d ∉ seg → motive seg)
    (step : ∀ seg rest, d ∉ seg → motive rest → motive (seg ++ d :: rest)) (data : List α) :
    motive data := by
  by_cases hd : d ∈ data
  · obtain ⟨seg, rest, hdata, hseg⟩ := List.eq_append_cons_of_mem hd
    rw [hdata]
    exact step seg rest hseg (line_induction d last step rest)
  · exact last data hd
termination_by data.length
decreasing_by simp [hdata]; omega

theorem isLine_of_mem_located {d : α} {data : List α} {n : Nat} {l : Nat × List α}
    (h : l ∈ located n (data.splitOn d)) : ∃ a, l.1 = n + a ∧ IsLine d data a l.2 := by
  induction data using line_induction d generalizing n with
  | last seg hseg =>
    rw [List.splitOn_eq_singleton hseg] at h
    simp only [located, List.mem_cons, List.not_mem_nil, or_false] at h
    subst h
    exact ⟨0, rfl, ⟨[], [], by simp, rfl, .inl rfl, .inl rfl⟩, hseg⟩
  | step seg rest hseg ih =>
    rw [List.splitOn_append_cons_self_of_not_mem hseg] at h
    simp only [located, List.mem_cons] at h
    rcases h with rfl | h
    · exact ⟨0, rfl, ⟨[], d :: rest, by simp, rfl, .inl rfl, .inr ⟨rest, rfl⟩⟩, hseg⟩
    · obtain ⟨a, ha, hline⟩ := ih h
      exact ⟨seg.length + 1 + a, by omega, hline.shift seg⟩

theorem isLine_of_mem_lines {d : α} {data : List α} {l : Nat × List α} (h : l ∈ lines d data) :
    IsLine d data l.1 l.2 := by
  obtain ⟨a, ha, hline⟩ := isLine_of_mem_located h
  rw [ha, Nat.zero_add]
  exact hline

/-! ## The line around a position -/

variable {d : α} {data seg : List α} {a e : Nat}

theorem exists_isLine (d : α) (data : List α) (h : e ≤ data.length) :
    ∃ a seg, IsLine d data a seg ∧ a ≤ e ∧ e ≤ a + seg.length := by
  induction data using line_induction d generalizing e with
  | last seg hseg => exact ⟨0, seg, ⟨⟨[], [], by simp, rfl, .inl rfl, .inl rfl⟩, hseg⟩, by omega, by omega⟩
  | step seg rest hseg ih =>
    simp only [List.length_append, List.length_cons] at h
    by_cases he : e ≤ seg.length
    · exact ⟨0, seg, ⟨⟨[], d :: rest, by simp, rfl, .inl rfl, .inr ⟨rest, rfl⟩⟩, hseg⟩, by omega,
        by omega⟩
    · obtain ⟨a, line, hline, h1, h2⟩ := ih (e := e - (seg.length + 1)) (by omega)
      exact ⟨seg.length + 1 + a, line, hline.shift seg, by omega, by omega⟩

theorem IsLine.findLastOf (h : IsLine d data a seg) (h1 : a ≤ e) (h2 : e ≤ a + seg.length) :
    Lines.findLastOf d (data.take e) = if a = 0 then none else some (a - 1) := by
  obtain ⟨⟨pre, post, rfl, rfl, hstart, -⟩, hclean⟩ := h
  obtain ⟨k, rfl⟩ := Nat.exists_eq_add_of_le h1
  have htake : (pre ++ (seg ++ post)).take (pre.length + k) = pre ++ seg.take k := by
    rw [List.take_length_add_append, List.take_append_of_le_length (by omega)]
  have hk : d ∉ seg.take k := fun hd => hclean (List.mem_of_mem_take hd)
  rw [htake]
  rcases hstart with rfl | ⟨p, rfl⟩
  · simpa using findLastOf_none hk
  · simpa using findLastOf_append hk p

theorem IsLine.find (h : IsLine d data a seg) (h1 : a ≤ e) (h2 : e ≤ a + seg.length) :
    Lines.find d data e =
      if a + seg.length = data.length then none else some (a + seg.length) := by
  obtain ⟨⟨pre, post, rfl, rfl, -, hend⟩, hclean⟩ := h
  obtain ⟨k, rfl⟩ := Nat.exists_eq_add_of_le h1
  obtain ⟨left, right, rfl, rfl⟩ : ∃ left right, seg = left ++ right ∧ k = left.length :=
    ⟨seg.take k, seg.drop k, by simp, by simp only [List.length_take]; omega⟩
  have hright : d ∉ right := fun hd => hclean (List.mem_append_right left hd)
  have hlen : pre.length + left.length = (pre ++ left).length := by simp
  rcases hend with rfl | ⟨p, rfl⟩
  · rw [if_pos (by simp)]
    exact find_none (by rw [hlen]; simpa using hright)
  · have hsplit : pre ++ ((left ++ right) ++ d :: p) = (pre ++ left) ++ (right ++ d :: p) := by simp
    rw [if_neg (by simp), hsplit, hlen, find_append hright]
    simp [Nat.add_assoc]

end Text

end Omnipp.Lines
