import Omnipp.Utils.PoolRuns

/-!
# How large a pool gets

`next` makes a new object only when all others are in use. So `pool_overflow_` has as many objects as
were ever in use at once beyond those of `pool_`, and no more.
-/

open Omnipp.History

namespace Omnipp.Utils.PoolUse

variable {ρ : Type} [IsRequest ρ]

/-- The objects that hold an entry or wait for one. -/
def inUse (u : PoolUse ρ) : Nat := u.submitted.length + u.pool.sqeOverflow.length

/-- The objects that do not. -/
def idle (u : PoolUse ρ) : Nat := u.pool.freeList.length + u.pool.extraFree.length

/-- The most objects that were in use at once. -/
def peak (past : List (PoolUse ρ × PoolCall ρ)) (u : PoolUse ρ) : Nat :=
  past.foldr (fun x m => max x.1.inUse m) u.inUse

omit [IsRequest ρ] in
theorem peak_snoc (past : List (PoolUse ρ × PoolCall ρ)) (u u' : PoolUse ρ) (c : PoolCall ρ) :
    peak (past ++ [(u, c)]) u' = max (peak past u) u'.inUse := by
  unfold peak
  induction past with
  | nil => simp
  | cons x past ih => simp only [List.cons_append, List.foldr_cons, ih, Nat.max_assoc]

/-! ## One call -/

/-- `grab` takes an object that is idle, or makes one when there is none. -/
theorem grab_lengths (p : RequestPool ρ) :
    p.grab.2.sqeOverflow = p.sqeOverflow ∧
      ((p.grab.2.extras = p.extras ∧
          p.grab.2.freeList.length + p.grab.2.extraFree.length + 1 =
            p.freeList.length + p.extraFree.length) ∨
        (p.grab.2.extras = p.extras + 1 ∧ p.freeList.length + p.extraFree.length = 0 ∧
          p.grab.2.freeList.length + p.grab.2.extraFree.length = 0)) := by
  unfold RequestPool.grab
  split
  · next slot rest hfree =>
    refine ⟨rfl, .inl ⟨rfl, ?_⟩⟩
    simp only [hfree, List.length_cons]
    omega
  · next hfree =>
    split
    · next slot rest hextra =>
      refine ⟨rfl, .inl ⟨rfl, ?_⟩⟩
      simp only [hextra, List.length_cons]
      omega
    · next hextra => exact ⟨rfl, .inr ⟨rfl, by simp [hfree, hextra], by simp [hfree, hextra]⟩⟩

/-- Either no object is made and none goes missing, or all were in use, and the new one is too. -/
def Counts (u u' : PoolUse ρ) : Prop :=
  (u'.pool.extras = u.pool.extras ∧ u'.inUse + u'.idle = u.inUse + u.idle) ∨
    (u'.pool.extras = u.pool.extras + 1 ∧ u.idle = 0 ∧ u'.idle = 0 ∧ u'.inUse = u.inUse + 1)

theorem next_counts (u : PoolUse ρ) (r : Ring) (reset : ρ → ρ) (args : Prep) :
    Counts u (u.next r reset args) := by
  obtain ⟨hover, hgrab⟩ := grab_lengths u.pool
  have hone : (u.next r reset args).pool.extras = u.pool.grab.2.extras ∧
      (u.next r reset args).idle = u.pool.grab.2.freeList.length + u.pool.grab.2.extraFree.length ∧
      (u.next r reset args).inUse = u.inUse + 1 := by
    by_cases hr : r.HasSqe
    · rw [next_submits u hr reset args hover]
      refine ⟨rfl, rfl, ?_⟩
      simp only [inUse, grabbed, RequestPool.resetAt, hover, List.length_append, List.length_singleton]
      omega
    · rw [next_parks u hr reset args hover]
      refine ⟨rfl, rfl, ?_⟩
      simp only [inUse, List.length_append, List.length_singleton]
      omega
  obtain ⟨hextras, hidle, huse⟩ := hone
  unfold Counts
  rw [hextras, hidle, huse]
  unfold idle
  omega

theorem tryPopOverflow_counts (u : PoolUse ρ) (r : Ring) : Counts u (u.tryPopOverflow r) := by
  left
  cases hover : u.pool.sqeOverflow with
  | nil =>
    rw [tryPopOverflow_empty u (by rw [RequestPool.tryPopOverflow, hover])]
    exact ⟨rfl, rfl⟩
  | cons slot rest =>
    by_cases hr : r.HasSqe
    · rw [tryPopOverflow_pops u hover hr]
      refine ⟨rfl, ?_⟩
      simp only [inUse, idle, hover, List.length_append, List.length_cons, List.length_nil]
      omega
    · rw [tryPopOverflow_empty u (by rw [RequestPool.tryPopOverflow, hover]; exact if_neg hr)]
      exact ⟨rfl, rfl⟩

omit [IsRequest ρ] in
theorem free_counts (u : PoolUse ρ) (r : Ring) {slot : Slot} (h : slot ∈ u.submitted) :
    Counts u (u.free r slot) := by
  left
  have hlen := List.length_erase_of_mem h
  have hpos := List.length_pos_of_mem h
  unfold PoolUse.free inUse idle
  by_cases hown : u.pool.Owns slot
  · rw [free_own u.pool r hown]
    refine ⟨rfl, ?_⟩
    simp only [hlen, List.length_cons]
    omega
  · rw [free_extra u.pool r hown]
    refine ⟨rfl, ?_⟩
    simp only [hlen, List.length_cons]
    omega

theorem call_counts (u : PoolUse ρ) {c : PoolCall ρ} (h : u.Allowed c) : Counts u (u.call c) := by
  cases c with
  | next r reset args => exact next_counts u r reset args
  | tryPopOverflow r => exact tryPopOverflow_counts u r
  | free r slot => exact free_counts u r h

/-! ## Every run -/

structure Sized (size : Nat) (past : List (PoolUse ρ × PoolCall ρ)) (u : PoolUse ρ) : Prop where
  total : u.inUse + u.idle = size + u.pool.extras
  le : peak past u ≤ size + u.pool.extras
  reached : u.pool.extras = 0 ∨ size + u.pool.extras ≤ peak past u

omit [IsRequest ρ] in
theorem Sized.step {size : Nat} {past : List (PoolUse ρ × PoolCall ρ)} {u u' : PoolUse ρ}
    (h : Sized size past u) (c : PoolCall ρ) (hc : Counts u u') : Sized size (past ++ [(u, c)]) u' := by
  obtain ⟨htotal, hle, hreached⟩ := h
  have hpeak := peak_snoc past u u' c
  rcases hc with ⟨hextras, hsum⟩ | ⟨hextras, hidle, hidle', huse⟩
  · exact ⟨by omega, by omega, by omega⟩
  · exact ⟨by omega, by omega, .inr (by omega)⟩

/-- After any calls, there are as many objects beyond those of `pool_` as were in use beyond them when
most were. -/
theorem pool_grows_to_its_peak (op : Op) (size : Nat) (past : List (PoolUse ρ × PoolCall ρ))
    (u : PoolUse ρ) (h : Run (fun u c u' => u' = u.call c) Allowed (start op size) past u) :
    u.pool.extras = peak past u - size := by
  have hsized : Sized size past u := by
    refine h.invariant (Sized size) ?_ ?_
    · refine ⟨?_, ?_, .inl rfl⟩
      · simp [inUse, idle, start, RequestPool.make]
      · simp [peak, inUse, start, RequestPool.make]
    · rintro past t c _ _ ht hok rfl
      exact ht.step c (call_counts t hok)
  obtain ⟨-, hle, hreached⟩ := hsized
  omega

/-- A pool of one and two requests. The third takes the object that the first has given back. -/
theorem pool_grows_to_two : ∃ past, ∃ u : PoolUse CloseRequest,
    Run (fun u c u' => u' = u.call c) Allowed (start .close 1) past u ∧ u.inUse = 2 ∧
      peak past u = 2 ∧ u.pool.extras = 2 - 1 := by
  have hnext : ∀ (v : PoolUse CloseRequest) (r : Ring) (fd : Int),
      v.Allowed (.next r (fun _ => ⟨fd⟩) (.close fd)) := fun v r fd x => rfl
  have h : Run (fun u c u' => u' = u.call c) Allowed (start .close 1 : PoolUse CloseRequest) [] _ := .nil
  have h := h.snoc (hnext _ (emptyRing 2) 3) rfl
  have h := h.snoc (hnext _ (emptyRing 2) 4) rfl
  have h := h.snoc (a := .free (emptyRing 2) (.pool 0)) List.mem_cons_self rfl
  have h := h.snoc (hnext _ (emptyRing 2) 5) rfl
  exact ⟨_, _, h, rfl, rfl, pool_grows_to_its_peak .close 1 _ _ h⟩

end Omnipp.Utils.PoolUse
