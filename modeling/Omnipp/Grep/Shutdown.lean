import Omnipp.Grep.Traversal

/-!
# Shutdown

`running_ = false` and `notify_all` are done without the mutex. A worker that has just found
the predicate false, and still holds the mutex, joins the wait set after both. Nobody is
left to wake it.
-/

open Omnipp.Threads

namespace Omnipp.Grep

variable {W : Type} [DecidableEq W]

/-- Grep was told to stop, no thread can move, and a worker sleeps. -/
def Stuck (main : W) (c : Config W (Shared W) Pc) : Prop :=
  c.shared.running = false ∧ (∀ i sh k, ¬ Work main i c.shared (c.pc i) sh k) ∧
    ∃ i, c.pc i = .waiting ∧ i ∈ c.shared.sleepers

/-- The places of the two `notify_all` calls. -/
def Pc.notifies : Pc → Bool
  | .notifyAll | .dtorNotify => true
  | _ => false

/-- `notify_all` is called when no worker is between its predicate and its sleep. -/
def NotifyReady (i : W) (c : Config W (Shared W) Pc) : Prop :=
  (c.pc i).notifies = true → ∀ j, c.pc j ≠ .sleep

variable {main : W}

/-! ## One step -/

theorem moves_sleepers {i : W} {sh sh' : Shared W} {k k' : Pc} (h : Moves main i sh k sh' k')
    (hk : k ≠ .sleep) : sh'.sleepers ⊆ sh.sleepers := by
  cases h with
  | spurious _ => exact Finset.erase_subset _ _
  | work h =>
    cases h with
    | sleep => exact absurd rfl hk
    | notifyOne _ => exact Finset.erase_subset _ _
    | notifyAll | dtorNotify => exact Finset.empty_subset _
    | _ => exact Finset.Subset.refl _

theorem moves_to_sleep {i : W} {sh sh' : Shared W} {k : Pc} (h : Moves main i sh k sh' .sleep) :
    sh'.running = true := by
  cases h with
  | work h => cases h with
    | predFalse _ hr => exact hr

theorem moves_to_stop {i : W} {sh sh' : Shared W} {k k' : Pc} (h : Moves main i sh k sh' k')
    (hr : sh.running = true) (hr' : sh'.running = false) :
    k'.notifies = true := by
  cases h with
  | spurious _ => simp_all
  | work h =>
    cases h with
    | store | dtorStore => rfl
    | _ => simp_all

theorem moves_notified {i : W} {sh sh' : Shared W} {k k' : Pc} (h : Moves main i sh k sh' k')
    (hk : k.notifies = true) : sh'.sleepers = ∅ := by
  cases h with
  | spurious _ => simp [Pc.notifies] at hk
  | work h => cases h <;> first | rfl | simp [Pc.notifies] at hk

theorem notifier_works (main i : W) (sh : Shared W) {k : Pc} (hk : k.notifies = true) :
    ∃ sh' k', Work main i sh k sh' k' := by
  cases k with
  | notifyAll => exact ⟨_, _, .notifyAll⟩
  | dtorNotify => exact ⟨_, _, .dtorNotify⟩
  | _ => simp [Pc.notifies] at hk

theorem sleeper_waits {i : W} {sh sh' : Shared W} {k' : Pc} (hi : i ∈ sh.sleepers) :
    ¬ Work main i sh .waiting sh' k' := by
  rintro ⟨⟩
  contradiction

theorem done_stays {i : W} {sh sh' : Shared W} {k' : Pc} : ¬ Work main i sh .done sh' k' := by
  rintro ⟨⟩

/-! ## Every run -/

/-- After the stop, somebody is about to notify, or nobody sleeps or is about to. -/
def StopInv (c : Config W (Shared W) Pc) : Prop :=
  c.shared.running = false →
    (∃ i, (c.pc i).notifies = true) ∨ (c.shared.sleepers = ∅ ∧ ∀ i, c.pc i ≠ .sleep)

theorem stop_inv_step (c : Config W (Shared W) Pc) (i : W) (sh : Shared W) (k : Pc) (h : StopInv c)
    (hg : NotifyReady i c) (ha : Moves main i c.shared (c.pc i) sh k) : StopInv (c.move i sh k) := by
  intro hr
  rw [move_shared] at hr
  cases hrun : c.shared.running with
  | true => exact .inl ⟨i, by rw [move_pc_self]; exact moves_to_stop ha hrun hr⟩
  | false =>
    have hk : k ≠ .sleep := by
      rintro rfl
      simp [moves_to_sleep ha] at hr
    by_cases hi : (c.pc i).notifies = true
    · -- The notification itself: the guard leaves nobody on the way to sleep.
      exact .inr ⟨moves_notified ha hi, forall_move c (P := fun _ p => p ≠ .sleep) hk fun j _ => hg hi j⟩
    · rcases h hrun with ⟨j, hj⟩ | ⟨hs, hn⟩
      · refine .inl ⟨j, ?_⟩
        have hji : j ≠ i := by
          rintro rfl
          exact hi hj
        rwa [move_pc_of_ne c sh k hji]
      · refine .inr ⟨?_, forall_move c (P := fun _ p => p ≠ .sleep) hk fun j _ => hn j⟩
        exact Finset.subset_empty.mp (hs ▸ moves_sleepers ha (hn i))

theorem stop_inv_run {root : Dir} {c : Config W (Shared W) Pc}
    (h : Runs (Moves main) NotifyReady (start root) c) : StopInv c :=
  Runs.invariant StopInv (fun c i sh k hc hg ha => stop_inv_step c i sh k hc hg ha) h
    (by simp [StopInv, start])

/-- No run gets stuck when its notifications find nobody on the way to sleep. -/
theorem shutdown_wakes_everybody (root : Dir) (c : Config W (Shared W) Pc)
    (h : Runs (Moves main) NotifyReady (start root) c) : ¬ Stuck main c := by
  rintro ⟨hr, hno, i, -, hi⟩
  rcases stop_inv_run h hr with ⟨j, hj⟩ | ⟨hs, -⟩
  · obtain ⟨sh, k, hw⟩ := notifier_works main j c.shared hj
    exact hno j sh k hw
  · simp [hs] at hi

/-! ## Over an empty root -/

theorem run_quiet {root : Dir} {c : Config W (Shared W) Pc} (i : W) {sh : Shared W} {k : Pc}
    (h : Runs (Moves main) NotifyReady (start root) c) (hn : (c.pc i).notifies = false)
    (ha : Work main i c.shared (c.pc i) sh k) :
    Runs (Moves main) NotifyReady (start root) (c.move i sh k) :=
  h.step i (fun hs => absurd hs (by simp [hn])) (.work ha)

/-- The main thread is asleep when thread 1 notifies. -/
theorem shutdown_of_empty_root : ∃ c : Config (Fin 2) (Shared (Fin 2)) Pc,
    Runs (Moves 0) NotifyReady (start ⟨[], []⟩) c ∧ c.shared.running = false ∧ ¬ Stuck 0 c := by
  have h : Runs (Moves (0 : Fin 2)) NotifyReady (start ⟨[], []⟩) (start ⟨[], []⟩) := .refl
  have h := run_quiet 1 h rfl (.testRunning rfl)
  have h := run_quiet 1 h rfl (.lock rfl)
  have h := run_quiet 1 h rfl (.predTrue (.inl (List.cons_ne_nil _ _)))
  have h := run_quiet 1 h rfl (.goOn rfl)
  have h := run_quiet 1 h rfl (.pop rfl)
  have h := run_quiet 0 h rfl (.testRunning rfl)
  have h := run_quiet 0 h rfl (.lock rfl)
  have h := run_quiet 0 h rfl (.predFalse rfl rfl)
  have h := run_quiet 0 h rfl .sleep
  have h := run_quiet 1 h rfl .listed
  have h := run_quiet 1 h rfl .close
  have h := run_quiet 1 h rfl (.subLast rfl)
  have h := run_quiet 1 h rfl .store
  have h := h.step 1 (fun _ => Fin.forall_fin_two.mpr ⟨Pc.noConfusion, Pc.noConfusion⟩)
    (.work .notifyAll)
  exact ⟨_, h, rfl, shutdown_wakes_everybody _ _ h⟩

/-- Thread 1 stops grep while the main thread is between its predicate and its sleep. -/
theorem shutdown_can_get_stuck : ∃ c : Config (Fin 2) (Shared (Fin 2)) Pc,
    Reaches (Moves 0) (start ⟨[], []⟩) c ∧ Stuck 0 c := by
  have h : Reaches (Moves (0 : Fin 2)) (start ⟨[], []⟩) (start ⟨[], []⟩) := .refl
  have h := h.step 1 (.work (.testRunning rfl))
  have h := h.step 1 (.work (.lock rfl))
  have h := h.step 1 (.work (.predTrue (.inl (List.cons_ne_nil _ _))))
  have h := h.step 1 (.work (.goOn rfl))
  have h := h.step 1 (.work (.pop rfl))
  have h := h.step 0 (.work (.testRunning rfl))
  have h := h.step 0 (.work (.lock rfl))
  have h := h.step 0 (.work (.predFalse rfl rfl))
  have h := h.step 1 (.work .listed)
  have h := h.step 1 (.work .close)
  have h := h.step 1 (.work (.subLast rfl))
  have h := h.step 1 (.work .store)
  have h := h.step 1 (.work .notifyAll)
  have h := h.step 0 (.work .sleep)
  have h := h.step 1 (.work (.testStopped rfl))
  have h := h.step 1 (.work (.flush (by decide)))
  refine ⟨_, h, rfl, Fin.forall_fin_two.mpr ⟨?_, ?_⟩, 0, rfl, by decide⟩
  · exact fun _ _ => sleeper_waits (by decide)
  · exact fun _ _ => done_stays

end Omnipp.Grep
