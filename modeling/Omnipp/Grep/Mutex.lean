import Omnipp.Grep.Traversal

/-! # `mutex_`

Only the worker that has the mutex takes a directory from `queue_`, and there is one to take.
-/

open Omnipp.Threads

namespace Omnipp.Grep

variable {W : Type} [DecidableEq W] {main i : W} {sh sh' : Shared W} {k k' : Pc}

/-! ## One step -/

theorem moves_lock (h : Moves main i sh k sh' k') (hk : k.HasMutex → sh.mutex = some i) :
    LockStep Shared.mutex Pc.HasMutex i sh k sh' k' := by
  cases h with
  | spurious _ => exact .inl ⟨rfl, Iff.rfl⟩
  | work h =>
    cases h with
    | lock hm | wake _ hm | appendLock hm => exact .inr (.inl ⟨hm, rfl, trivial⟩)
    | sleep | stop _ | pop _ | append => exact .inr (.inr ⟨hk trivial, rfl, id⟩)
    | _ => exact .inl ⟨rfl, Iff.rfl⟩

theorem moves_queue (h : Moves main i sh k sh' k') (hk : k ≠ .pop) (hq : sh.queue ≠ []) :
    sh'.queue ≠ [] := by
  cases h with
  | spurious _ => exact hq
  | work h =>
    cases h with
    | pop _ => exact absurd rfl hk
    | append => exact fun hnil => hq (List.append_eq_nil_iff.mp hnil).1
    | _ => exact hq

theorem moves_to_recheck (h : Moves main i sh k sh' .recheck) :
    sh'.queue ≠ [] ∨ sh'.running = false := by
  cases h with
  | work h => cases h with
    | predTrue hpred => exact hpred

theorem moves_to_pop (h : Moves main i sh k sh' .pop) :
    sh' = sh ∧ k = .recheck ∧ sh.running = true := by
  cases h with
  | work h => cases h with
    | goOn hr => exact ⟨rfl, rfl, hr⟩

/-! ## Every run -/

/-- What a worker saw under the mutex is still so while it has the mutex. -/
structure Seen (c : Config W (Shared W) Pc) : Prop where
  mutex : Exclusive Shared.mutex Pc.HasMutex c
  recheck : ∀ i, c.pc i = .recheck → c.shared.queue ≠ [] ∨ c.shared.running = false
  pop : ∀ i, c.pc i = .pop → c.shared.queue ≠ []

omit [DecidableEq W] in
theorem seen_start (root : Dir) : Seen (start root : Config W (Shared W) Pc) where
  mutex i := by simp [start, Pc.HasMutex]
  recheck i h := by cases h
  pop i h := by cases h

theorem seen_step (c : Config W (Shared W) Pc) (i : W) (sh : Shared W) (k : Pc) (h : Seen c)
    (hm : Moves main i c.shared (c.pc i) sh k) : Seen (c.move i sh k) := by
  -- Another worker at the mutex keeps `i` from its own `pop`.
  have hother : ∀ j, j ≠ i → (c.pc j).HasMutex → c.shared.queue ≠ [] → sh.queue ≠ [] := by
    intro j hji hj
    refine moves_queue hm fun hpop => hji (h.mutex.unique hj ?_)
    rw [hpop]
    trivial
  refine ⟨h.mutex.move (moves_lock hm (h.mutex i).mp), ?_, ?_⟩
  · apply forall_move c (P := fun _ p => p = .recheck → sh.queue ≠ [] ∨ sh.running = false)
    · rintro rfl
      exact moves_to_recheck hm
    · intro j hji hj
      rcases h.recheck j hj with hq | hr
      · exact .inl (hother j hji (by rw [hj]; trivial) hq)
      · exact .inr (moves_running hm hr)
  · apply forall_move c (P := fun _ p => p = .pop → sh.queue ≠ [])
    · rintro rfl
      obtain ⟨rfl, hrecheck, hr⟩ := moves_to_pop hm
      rcases h.recheck i hrecheck with hq | hstop
      · exact hq
      · rw [hr] at hstop
        cases hstop
    · intro j hji hj
      exact hother j hji (by rw [hj]; trivial) (h.pop j hj)

theorem seen_run {root : Dir} {c : Config W (Shared W) Pc}
    (h : Reaches (Moves main) (start root) c) : Seen c :=
  Runs.invariant Seen (fun c i sh k hc _ hm => seen_step c i sh k hc hm) h (seen_start root)

/-- Two workers are never at the queue at once, and `front` is never called on an empty one. -/
theorem queue_is_safe {root : Dir} {c : Config W (Shared W) Pc}
    (h : Reaches (Moves main) (start root) c) :
    (∀ i j, (c.pc i).HasMutex → (c.pc j).HasMutex → i = j) ∧ ∀ i, c.pc i = .pop → c.shared.queue ≠ [] :=
  ⟨fun _ _ hi hj => (seen_run h).mutex.unique hi hj, (seen_run h).pop⟩

end Omnipp.Grep
