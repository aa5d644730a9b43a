import Omnipp.Grep.Mutex

/-! # Somebody is awake

A worker goes to sleep only when it sees `queue_` empty, and it has the mutex from there to its
sleep. So whoever goes to sleep last leaves no directory behind.
-/

open Omnipp.Threads

namespace Omnipp.Grep

section Step
variable {W : Type} [DecidableEq W] {main i : W} {sh sh' : Shared W} {k k' : Pc}

/-! ## One step -/

theorem moves_sleep_queue (h : Moves main i sh k sh' .sleep) : sh'.queue = [] := by
  cases h with
  | work h => cases h with
    | predFalse hq _ => exact hq

/-- Only a worker with the mutex changes the queue. -/
theorem moves_queue_eq (h : Moves main i sh k sh' k') (hk : ¬ k.HasMutex) : sh'.queue = sh.queue := by
  cases h with
  | spurious _ => rfl
  | work h =>
    cases h with
    | pop _ => exact absurd trivial hk
    | append => exact absurd trivial hk
    | _ => rfl

/-- A worker that moves is awake behind its step, or it has just gone to sleep. -/
theorem moves_awake (h : Moves main i sh k sh' k') (hs : i ∈ sh.sleepers → k = .waiting) :
    i ∉ sh'.sleepers ∨ k = .sleep := by
  cases h with
  | spurious _ => exact .inl (Finset.notMem_erase _ _)
  | work h =>
    cases h with
    | sleep => exact .inr rfl
    | wake hi _ => exact .inl hi
    | notifyOne _ =>
      refine .inl fun hi => ?_
      cases hs (Finset.mem_of_mem_erase hi)
    | notifyAll | dtorNotify => exact .inl (Finset.notMem_empty _)
    | _ =>
      refine .inl fun hi => ?_
      cases hs hi

theorem moves_sleepers_of_ne {j : W} (h : Moves main i sh k sh' k') (hj : j ≠ i)
    (hs : j ∈ sh'.sleepers) : j ∈ sh.sleepers := by
  cases h with
  | spurious _ => exact Finset.mem_of_mem_erase hs
  | work h =>
    cases h with
    | sleep => exact Finset.mem_of_mem_insert_of_ne hs hj
    | notifyOne _ => exact Finset.mem_of_mem_erase hs
    | notifyAll | dtorNotify => exact absurd hs (Finset.notMem_empty _)
    | _ => exact hs

theorem moves_from_sleep (h : Moves main i sh .sleep sh' k') : sh'.queue = sh.queue ∧ k' = .waiting := by
  cases h with
  | work h => cases h with
    | sleep => exact ⟨rfl, rfl⟩

end Step

/-! ## Every run -/

section Run
variable {W : Type} [DecidableEq W] {main : W}

structure Awake (c : Config W (Shared W) Pc) : Prop where
  seen : Seen c
  sleep : ∀ i, c.pc i = .sleep → c.shared.queue = []
  sleeper : ∀ i, i ∈ c.shared.sleepers → c.pc i = .waiting
  awake : c.shared.queue ≠ [] → ∃ i, i ∉ c.shared.sleepers

omit [DecidableEq W] in
theorem awake_start (main : W) (root : Dir) : Awake (start root : Config W (Shared W) Pc) where
  seen := seen_start root
  sleep i h := by cases h
  sleeper i h := absurd h (Finset.notMem_empty i)
  awake _ := ⟨main, Finset.notMem_empty main⟩

theorem awake_step (c : Config W (Shared W) Pc) (i : W) (sh : Shared W) (k : Pc) (h : Awake c)
    (hm : Moves main i c.shared (c.pc i) sh k) : Awake (c.move i sh k) := by
  have hmoved := moves_awake hm fun hi => h.sleeper i hi
  refine ⟨seen_step c i sh k h.seen hm, ?_, ?_, ?_⟩
  · apply forall_move c (P := fun _ p => p = .sleep → sh.queue = [])
    · rintro rfl
      exact moves_sleep_queue hm
    · intro j hji hj
      -- `j` has the mutex, so `i` has not touched the queue.
      rw [moves_queue_eq hm fun hi => hji (h.seen.mutex.unique (by rw [hj]; trivial) hi)]
      exact h.sleep j hj
  · apply forall_move c (P := fun j p => j ∈ sh.sleepers → p = .waiting)
    · intro hi
      rcases hmoved with hawake | hsleep
      · exact absurd hi hawake
      · rw [hsleep] at hm
        exact (moves_from_sleep hm).2
    · intro j hji hj
      exact h.sleeper j (moves_sleepers_of_ne hm hji hj)
  · intro hq
    rw [move_shared] at hq
    rcases hmoved with hawake | hsleep
    · exact ⟨i, hawake⟩
    · rw [hsleep] at hm
      rw [(moves_from_sleep hm).1] at hq
      exact absurd (h.sleep i hsleep) hq

theorem awake_run {root : Dir} {c : Config W (Shared W) Pc}
    (h : Reaches (Moves main) (start root) c) : Awake c :=
  Runs.invariant Awake (fun c i sh k hc _ hm => awake_step c i sh k hc hm) h (awake_start main root)

/-- While grep runs and a directory is pending, some worker is in its loop and not asleep. -/
theorem work_is_never_stranded [Fintype W] (root : Dir) (c : Config W (Shared W) Pc)
    (h : Reaches (Moves main) (start root) c) (hrun : c.shared.running = true)
    (hpending : 0 < c.shared.pending) : ∃ i, ¬ (c.pc i).Left ∧ i ∉ c.shared.sleepers := by
  have hinv := inv_run h
  have hawake := awake_run h
  obtain ⟨i, hi⟩ : ∃ i, i ∉ c.shared.sleepers := by
    by_contra hall
    simp only [not_exists, not_not] at hall
    have hidle : ∀ i, (c.pc i).held + (c.pc i).added = 0 := by
      intro i
      rw [hawake.sleeper i (hall i)]
      rfl
    have hlength : c.shared.pending = c.shared.queue.length := by
      rw [hinv.pending_eq, Finset.sum_eq_zero fun i _ => hidle i, Nat.add_zero]
    obtain ⟨i, hi⟩ := hawake.awake (List.length_pos_iff.mp (by omega))
    exact hi (hall i)
  refine ⟨i, fun hleft => ?_, hi⟩
  rw [hinv.left i hleft] at hrun
  cases hrun

/-- Worker 1 sleeps, and worker 0 has popped the root. -/
theorem work_is_never_stranded_with_a_sleeper : ∃ c : Config (Fin 2) (Shared (Fin 2)) Pc,
    Reaches (Moves 0) (start smallRoot) c ∧ 1 ∈ c.shared.sleepers ∧
      ∃ i, ¬ (c.pc i).Left ∧ i ∉ c.shared.sleepers := by
  have h : Reaches (Moves (0 : Fin 2)) (start smallRoot) (start smallRoot) := .refl
  have h := h.step 0 (.work (.testRunning rfl))
  have h := h.step 0 (.work (.lock rfl))
  have h := h.step 0 (.work (.predTrue (.inl (List.cons_ne_nil _ _))))
  have h := h.step 0 (.work (.goOn rfl))
  have h := h.step 0 (.work (.pop rfl))
  have h := h.step 1 (.work (.testRunning rfl))
  have h := h.step 1 (.work (.lock rfl))
  have h := h.step 1 (.work (.predFalse rfl rfl))
  have h := h.step 1 (.work .sleep)
  exact ⟨_, h, by decide, work_is_never_stranded smallRoot _ h rfl (by decide)⟩

end Run

end Omnipp.Grep
