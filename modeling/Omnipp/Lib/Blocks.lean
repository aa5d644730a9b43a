import Omnipp.Lib.Lines

/-!
# A text cut into blocks

Splitting each block into lines gives the lines of the text, except for the lines that a
block boundary falls into.
-/

namespace Omnipp.Lines

variable {α : Type*} [DecidableEq α] {d : α}

/-- The segments of the blocks, without the empty ones. -/
def pieces (d : α) (blocks : List (List α)) : List (List α) :=
  (blocks.flatMap fun b => b.splitOn d).filter (· ≠ [])

omit [DecidableEq α] in
/-- A block ends at `p`, between two elements that are not the delimiter. -/
def InnerCut (d : α) (blocks : List (List α)) (p : Nat) : Prop :=
  ∃ done rest, blocks = done ++ rest ∧ p = done.flatten.length ∧
    (∃ x ∈ done.flatten.getLast?, x ≠ d) ∧ ∃ y ∈ rest.flatten.head?, y ≠ d

/-- The blocks behind the first element. -/
def behind (b : List α) (bs : List (List α)) : List (List α) := if b = [] then bs else b :: bs

theorem pieces_cons (b : List α) (bs : List (List α)) :
    pieces d (b :: bs) = (b.splitOn d).filter (· ≠ []) ++ pieces d bs := by
  simp [pieces]

theorem pieces_behind (b : List α) (bs : List (List α)) :
    pieces d (behind b bs) = (b.splitOn d).filter (· ≠ []) ++ pieces d bs := by
  unfold behind
  split
  · rename_i hb
    subst hb
    simp
  · exact pieces_cons b bs

omit [DecidableEq α] in
theorem behind_nil (b : List α) :
    (behind b []).flatten = b ∧ (∀ b' ∈ behind b [], b' ≠ []) ∧ (behind b []).length ≤ 1 := by
  unfold behind
  split <;> simp_all

theorem pieces_ne_nil {blocks : List (List α)} {seg : List α} (h : seg ∈ pieces d blocks) : seg ≠ [] := by
  simpa using (List.mem_filter.mp h).2

theorem pieces_step (c : α) (b : List α) (bs : List (List α)) :
    pieces d ((c :: b) :: bs) =
      if c = d then pieces d (behind b bs)
      else if ∃ y ∈ b.head?, y ≠ d then (pieces d (behind b bs)).modifyHead (c :: ·)
      else [c] :: pieces d (behind b bs) := by
  rw [pieces_cons, pieces_behind, List.splitOn_cons_eq_if_modifyHead]
  by_cases hc : c = d
  · simp [hc]
  · cases b with
    | nil => simp [hc]
    | cons y b =>
      rw [List.splitOn_cons_eq_if_modifyHead]
      by_cases hy : y = d
      · simp [hc, hy]
      · obtain ⟨h, t, hsplit⟩ := List.exists_cons_of_ne_nil (List.splitOn_ne_nil d b)
        simp [hc, hy, hsplit]

section Cuts
omit [DecidableEq α]

theorem not_innerCut_zero (blocks : List (List α)) : ¬ InnerCut d blocks 0 := by
  rintro ⟨done, rest, -, hp, ⟨x, hx, -⟩, -⟩
  rw [List.eq_nil_of_length_eq_zero hp.symm] at hx
  simp at hx

theorem not_innerCut_of_length_le_one {blocks : List (List α)} (h : blocks.length ≤ 1) (p : Nat) :
    ¬ InnerCut d blocks p := by
  rintro ⟨done, rest, rfl, -, ⟨x, hx, -⟩, y, hy, -⟩
  have hdone : done ≠ [] := by
    rintro rfl
    simp at hx
  have hrest : rest ≠ [] := by
    rintro rfl
    simp at hy
  have h1 := List.length_pos_iff.mpr hdone
  have h2 := List.length_pos_iff.mpr hrest
  rw [List.length_append] at h
  omega

theorem innerCut_one (c : α) (b : List α) (bs : List (List α)) :
    InnerCut d ((c :: b) :: bs) 1 ↔ b = [] ∧ c ≠ d ∧ ∃ y ∈ bs.flatten.head?, y ≠ d := by
  constructor
  · rintro ⟨done, rest, hsplit, hp, ⟨x, hx, hxd⟩, hy⟩
    cases done with
    | nil => simp at hp
    | cons block done =>
      rw [List.cons_append, List.cons.injEq] at hsplit
      obtain ⟨rfl, rfl⟩ := hsplit
      simp only [List.flatten_cons, List.length_append, List.length_cons] at hp
      have hb : b = [] := List.eq_nil_of_length_eq_zero (by omega)
      have hd : done.flatten = [] := List.eq_nil_of_length_eq_zero (by omega)
      subst hb
      simp only [List.flatten_cons, hd, List.append_nil, List.getLast?_singleton,
        Option.mem_def, Option.some.injEq] at hx
      subst hx
      rw [List.flatten_append, hd]
      exact ⟨rfl, hxd, hy⟩
  · rintro ⟨rfl, hc, hy⟩
    exact ⟨[[c]], bs, rfl, rfl, ⟨c, rfl, hc⟩, hy⟩

theorem getLast_cons {c : α} {l : List α} (h : l ≠ []) : (c :: l).getLast? = l.getLast? := by
  rw [List.getLast?_cons, List.getLast?_eq_some_getLast h]
  rfl

theorem innerCut_succ (c : α) (b : List α) (bs : List (List α)) (p : Nat) :
    InnerCut d ((c :: b) :: bs) (p + 2) ↔ InnerCut d (behind b bs) (p + 1) := by
  constructor
  · rintro ⟨done, rest, hsplit, hp, ⟨x, hx, hxd⟩, hy⟩
    cases done with
    | nil => simp at hp
    | cons block done =>
      rw [List.cons_append, List.cons.injEq] at hsplit
      obtain ⟨rfl, rfl⟩ := hsplit
      simp only [List.flatten_cons, List.cons_append, List.length_cons] at hp hx
      have hne : b ++ done.flatten ≠ [] := List.length_pos_iff.mp (by omega)
      rw [getLast_cons hne] at hx
      unfold behind
      split
      · rename_i hb
        subst hb
        exact ⟨done, rest, rfl, by simpa using hp, ⟨x, hx, hxd⟩, hy⟩
      · exact ⟨b :: done, rest, rfl, by simpa using hp, ⟨x, hx, hxd⟩, hy⟩
  · rintro ⟨done, rest, hsplit, hp, ⟨x, hx, hxd⟩, hy⟩
    have hne : done.flatten ≠ [] := List.length_pos_iff.mp (by omega)
    unfold behind at hsplit
    split at hsplit
    · rename_i hb
      subst hb hsplit
      refine ⟨[c] :: done, rest, rfl, by simp [← hp], ⟨x, ?_, hxd⟩, hy⟩
      rw [List.flatten_cons, List.singleton_append, getLast_cons hne]
      exact hx
    · cases done with
      | nil => simp at hne
      | cons block done =>
        rw [List.cons_append, List.cons.injEq] at hsplit
        obtain ⟨rfl, rfl⟩ := hsplit
        refine ⟨(c :: b) :: done, rest, rfl, by simpa using hp, ⟨x, ?_, hxd⟩, hy⟩
        rw [List.flatten_cons, List.cons_append, getLast_cons (by simpa using hne)]
        simpa using hx

theorem blocks_cons {c : α} {text : List α} {blocks : List (List α)} (hf : ∀ b ∈ blocks, b ≠ [])
    (h : blocks.flatten = c :: text) :
    ∃ b bs, blocks = (c :: b) :: bs ∧ (behind b bs).flatten = text ∧ ∀ b' ∈ behind b bs, b' ≠ [] := by
  cases blocks with
  | nil => simp at h
  | cons block bs =>
    cases block with
    | nil => exact absurd rfl (hf [] List.mem_cons_self)
    | cons x b =>
      simp only [List.flatten_cons, List.cons_append, List.cons.injEq] at h
      obtain ⟨rfl, h⟩ := h
      refine ⟨b, bs, rfl, ?_⟩
      unfold behind
      split
      · rename_i hb
        exact ⟨by simpa [hb] using h, fun b' hb' => hf b' (List.mem_cons_of_mem _ hb')⟩
      · rename_i hb
        refine ⟨h, fun b' hb' => ?_⟩
        rcases List.mem_cons.mp hb' with rfl | hb'
        · exact hb
        · exact hf b' (List.mem_cons_of_mem _ hb')

theorem innerCuts_iff (c c' : α) (b b' : List α) (bs bs' : List (List α)) :
    (∀ p, InnerCut d ((c :: b) :: bs) p ↔ InnerCut d ((c' :: b') :: bs') p) ↔
      (InnerCut d ((c :: b) :: bs) 1 ↔ InnerCut d ((c' :: b') :: bs') 1) ∧
      ∀ p, InnerCut d (behind b bs) p ↔ InnerCut d (behind b' bs') p := by
  constructor
  · intro h
    refine ⟨h 1, fun p => ?_⟩
    cases p with
    | zero => exact iff_of_false (not_innerCut_zero _) (not_innerCut_zero _)
    | succ p => rw [← innerCut_succ c b, ← innerCut_succ c' b', h]
  · rintro ⟨hone, hrest⟩ p
    rcases p with _ | _ | p
    · exact iff_of_false (not_innerCut_zero _) (not_innerCut_zero _)
    · exact hone
    · rw [innerCut_succ, innerCut_succ, hrest]

theorem head_behind {text b : List α} {bs : List (List α)} (h : (behind b bs).flatten = text) :
    ((∃ y ∈ b.head?, y ≠ d) ↔ b ≠ [] ∧ ∃ y ∈ text.head?, y ≠ d) ∧
    (b = [] → bs.flatten = text) := by
  subst h
  unfold behind
  cases b with
  | nil => simp
  | cons x b => simp

theorem modifyHead_cons_inj {c : α} {xs ys : List (List α)} :
    xs.modifyHead (c :: ·) = ys.modifyHead (c :: ·) ↔ xs = ys := by
  cases xs <;> cases ys <;> simp

theorem cons_ne_modifyHead {c : α} {xs ys : List (List α)} (h : ∀ seg ∈ ys, seg ≠ []) :
    [c] :: xs ≠ ys.modifyHead (c :: ·) := by
  cases ys with
  | nil => simp
  | cons y ys =>
    have := h y List.mem_cons_self
    simp [Ne.symm this]

end Cuts

theorem pieces_step_iff {c : α} {text b b' : List α} {bs bs' : List (List α)}
    (h : (behind b bs).flatten = text) (h' : (behind b' bs').flatten = text) :
    pieces d ((c :: b) :: bs) = pieces d ((c :: b') :: bs') ↔
      (InnerCut d ((c :: b) :: bs) 1 ↔ InnerCut d ((c :: b') :: bs') 1) ∧
      pieces d (behind b bs) = pieces d (behind b' bs') := by
  obtain ⟨hhead, hnext⟩ := head_behind (d := d) h
  obtain ⟨hhead', hnext'⟩ := head_behind (d := d) h'
  have hone : InnerCut d ((c :: b) :: bs) 1 ↔ b = [] ∧ c ≠ d ∧ ∃ y ∈ text.head?, y ≠ d := by
    rw [innerCut_one]
    exact and_congr_right fun hb => by rw [hnext hb]
  have hone' : InnerCut d ((c :: b') :: bs') 1 ↔ b' = [] ∧ c ≠ d ∧ ∃ y ∈ text.head?, y ≠ d := by
    rw [innerCut_one]
    exact and_congr_right fun hb => by rw [hnext' hb]
  have hlong : ∀ seg ∈ pieces d (behind b bs), seg ≠ [] := fun seg => pieces_ne_nil
  have hlong' : ∀ seg ∈ pieces d (behind b' bs'), seg ≠ [] := fun seg => pieces_ne_nil
  rw [pieces_step, pieces_step, hone, hone']
  generalize pieces d (behind b bs) = xs at hlong
  generalize pieces d (behind b' bs') = ys at hlong'
  by_cases hc : c = d
  · simp [hc]
  · rw [if_neg hc, if_neg hc]
    by_cases hy : ∃ y ∈ text.head?, y ≠ d
    · by_cases hb : b = [] <;> by_cases hb' : b' = []
      · rw [if_neg (fun h => (hhead.mp h).1 hb), if_neg (fun h => (hhead'.mp h).1 hb')]
        simp [hb, hb']
      · rw [if_neg (fun h => (hhead.mp h).1 hb), if_pos (hhead'.mpr ⟨hb', hy⟩)]
        exact iff_of_false (cons_ne_modifyHead hlong') fun h => hb' (h.1.mp ⟨hb, hc, hy⟩).1
      · rw [if_pos (hhead.mpr ⟨hb, hy⟩), if_neg (fun h => (hhead'.mp h).1 hb')]
        exact iff_of_false (Ne.symm (cons_ne_modifyHead hlong)) fun h => hb (h.1.mpr ⟨hb', hc, hy⟩).1
      · rw [if_pos (hhead.mpr ⟨hb, hy⟩), if_pos (hhead'.mpr ⟨hb', hy⟩), modifyHead_cons_inj]
        simp [hb, hb']
    · rw [if_neg (fun h => hy (hhead.mp h).2), if_neg (fun h => hy (hhead'.mp h).2), List.cons.injEq,
        and_iff_right rfl]
      refine (and_iff_right ?_).symm
      exact iff_of_false (fun h => hy h.2.2) fun h => hy h.2.2

/-- The pieces are the same exactly when the cuts that fall into lines are. -/
theorem pieces_eq_iff {text : List α} {blocks blocks' : List (List α)}
    (hf : ∀ b ∈ blocks, b ≠ []) (hf' : ∀ b ∈ blocks', b ≠ []) (h : blocks.flatten = text)
    (h' : blocks'.flatten = text) :
    pieces d blocks = pieces d blocks' ↔ ∀ p, InnerCut d blocks p ↔ InnerCut d blocks' p := by
  induction text generalizing blocks blocks' with
  | nil =>
    have hnil : ∀ bs : List (List α), (∀ b ∈ bs, b ≠ []) → bs.flatten = [] → bs = [] := by
      intro bs hbs hflat
      rw [List.flatten_eq_nil_iff] at hflat
      exact List.eq_nil_iff_forall_not_mem.mpr fun b hb => hbs b hb (hflat b hb)
    rw [hnil blocks hf h, hnil blocks' hf' h']
    simp
  | cons c text ih =>
    obtain ⟨b, bs, rfl, hrest, hfill⟩ := blocks_cons hf h
    obtain ⟨b', bs', rfl, hrest', hfill'⟩ := blocks_cons hf' h'
    rw [innerCuts_iff, ← ih hfill hfill' hrest hrest', pieces_step_iff hrest hrest']

end Omnipp.Lines
