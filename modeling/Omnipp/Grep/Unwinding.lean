import Omnipp.Grep.Halted

/-!
# An exception on the thread of `run`

`execute` throws when the pipeline fails. On a thread that `run` started this calls
`std::terminate`. On the thread of `run` itself the exception leaves `worker` and `run`, and
`~Processor` stops the other workers and joins them. The directory in the hands of that thread
stays in `pending_`.
-/

open Omnipp.Threads

namespace Omnipp.Grep

variable {W : Type} [DecidableEq W]

/-- A run in which the pipeline throws on the thread of `run`. `lost` is what that thread still had to
do, and no wakeup is lost. -/
inductive UnwoundRun (main : W) (root : Dir) : Multiset Event → Config W (Shared W) Pc → Prop
  | throws {c : Config W (Shared W) Pc} {file : Path} {d : Dir} {rest span : List Entry}
      {found : List Dir} (h : Runs (Moves main) NotifyReady (start root) c)
      (hpc : c.pc main = .execute file d rest span found) :
      UnwoundRun main root (c.pc main).todo (c.move main c.shared .dtorStore)
  | moves {lost : Multiset Event} {c : Config W (Shared W) Pc} (i : W) {sh : Shared W} {k : Pc}
      (h : UnwoundRun main root lost c) (hg : NotifyReady i c)
      (hm : Moves main i c.shared (c.pc i) sh k) : UnwoundRun main root lost (c.move i sh k)

/-- The thread of `run` is in `~Processor`, and behind its first line the others are stopped. -/
def InDtor (running : Bool) : Pc → Prop
  | .dtorStore => True
  | .dtorNotify | .joining => running = false
  | _ => False

variable {main : W}

theorem moves_inDtor {i : W} {sh sh' : Shared W} {k k' : Pc} (h : Moves main i sh k sh' k')
    (hk : InDtor sh.running k) : InDtor sh'.running k' := by
  cases h with
  | spurious _ => exact hk
  | work h =>
    cases h with
    | dtorStore => exact rfl
    | dtorNotify => exact hk
    | _ => exact absurd hk id

theorem InDtor.stays {running running' : Bool} {k : Pc} (h : InDtor running k)
    (hr : running = false → running' = false) : InDtor running' k := by
  cases k with
  | dtorStore => trivial
  | dtorNotify | joining => exact hr h
  | _ => exact h

/-- What holds from the exception on. -/
structure Unwound [Fintype W] (main : W) (c : Config W (Shared W) Pc) : Prop where
  -- The directory that was left is counted, and in no thread's hands.
  balance : Threads.Balanced Shared.pending (fun sh => sh.queue.length + 1) (fun k => k.held + k.added) c
  seen : Seen c
  stop : StopInv c
  dtor : InDtor c.shared.running (c.pc main)
  fits : ∀ i, (c.pc i).Fits main i

variable [Fintype W]

theorem unwound_throws {root : Dir} {c : Config W (Shared W) Pc} {file : Path} {d : Dir}
    {rest span : List Entry} {found : List Dir} (h : Runs (Moves main) NotifyReady (start root) c)
    (hpc : c.pc main = .execute file d rest span found) :
    Unwound main (c.move main c.shared .dtorStore) := by
  have hhalt := halting_run h.reaches
  have hseen := (awake_run h.reaches).seen
  refine ⟨?_, ⟨hseen.mutex.move (.inl ⟨rfl, by simp [hpc, Pc.HasMutex]⟩), ?_, ?_⟩, ?_, ?_, ?_⟩
  · have hsum := sum_move (fun k : Pc => k.held + k.added) c main c.shared .dtorStore
    have hheld : (c.pc main).held + (c.pc main).added = 1 := by rw [hpc]; rfl
    have hleft : Pc.held .dtorStore + Pc.added .dtorStore = 0 := rfl
    have hpending := hhalt.inv.pending_eq
    simp only [hheld, hleft] at hsum
    simp only [Threads.Balanced, move_shared]
    omega
  · exact fun j hj => hseen.recheck j (pc_of_move hj (by simp))
  · exact fun j hj => hseen.pop j (pc_of_move hj (by simp))
  · -- The thread still held its directory, so nobody has been stopped yet.
    intro hr
    have hzero := (hhalt.inv.empty (hhalt.inv.stopped hr)).2 main
    rw [hpc] at hzero
    cases hzero
  · rw [move_pc_self]
    trivial
  · apply forall_move c (P := fun j p => p.Fits main j)
    · exact rfl
    · exact fun j _ => hhalt.fits j

theorem unwound_step {c : Config W (Shared W) Pc} (i : W) {sh : Shared W} {k : Pc}
    (h : Unwound main c) (hg : NotifyReady i c) (hm : Moves main i c.shared (c.pc i) sh k) :
    Unwound main (c.move i sh k) := by
  refine ⟨?_, seen_step c i sh k h.seen hm, stop_inv_step c i sh k h.stop hg hm, ?_,
    forall_move c (P := fun j p => p.Fits main j) (moves_fits hm (h.fits i)) fun j _ => h.fits j⟩
  · have hbalance : c.shared.pending =
        c.shared.queue.length + 1 + ∑ j, ((c.pc j).held + (c.pc j).added) := h.balance
    have hheld : (c.pc i).held + (c.pc i).added ≤ ∑ j, ((c.pc j).held + (c.pc j).added) :=
      Finset.single_le_sum (f := fun j => (c.pc j).held + (c.pc j).added)
        (fun _ _ => Nat.zero_le _) (Finset.mem_univ i)
    have hstep := moves_pending hm (by omega)
    refine h.balance.move i sh k ?_
    omega
  · by_cases hi : main = i
    · subst hi
      rw [move_pc_self]
      exact moves_inDtor hm h.dtor
    · rw [move_pc_of_ne c sh k hi]
      exact h.dtor.stays fun hr => moves_running hm hr

theorem unwound_run {root : Dir} {lost : Multiset Event} {c : Config W (Shared W) Pc}
    (h : UnwoundRun main root lost c) : Unwound main c := by
  induction h with
  | throws h hpc => exact unwound_throws h hpc
  | moves i _ hg hm ih => exact unwound_step i ih hg hm

theorem unwound_todo {root : Dir} {lost : Multiset Event} {c : Config W (Shared W) Pc}
    (h : UnwoundRun main root lost c) :
    root.todo = lost + (books c.shared + ∑ i, (c.pc i).todo) := by
  induction h with
  | @throws c _ _ _ _ _ h hpc =>
    have hsum := sum_move Pc.todo c main c.shared .dtorStore
    have hnone : Pc.todo .dtorStore = 0 := rfl
    rw [hnone, add_zero] at hsum
    rw [todo_run h.reaches, ← hsum, move_shared]
    abel
  | moves i _ _ hm ih => rw [ih, move_shared, todo_step hm]

/-- After an exception on the thread of `run`, a run that cannot go on is over: the others have
returned. What was not visited is what the thread of `run` had in its hands and the directories
that are left in `queue_`, which stay open, and `pending_` counts them. -/
theorem unwound_grep_ends (root : Dir) (lost : Multiset Event) (c : Config W (Shared W) Pc)
    (h : UnwoundRun main root lost c)
    (hno : ∀ i, NotifyReady i c → ∀ sh k, ¬ Work main i c.shared (c.pc i) sh k) :
    c.pc main = .joining ∧ (∀ i, i ≠ main → c.pc i = .done) ∧
      c.shared.pending = c.shared.queue.length + 1 ∧
      root.todo = lost + ((c.shared.log : Multiset Event) + (c.shared.queue.map Dir.todo).sum) := by
  have hno := no_work_of_no_ready_work hno
  have hinv := unwound_run h
  have hrest := all_resting hinv.seen hno
  have hmain : c.pc main = .joining := by
    have hdtor := hinv.dtor
    rcases hrest main with hk | hk | ⟨hk, -⟩
    · exact hk
    · rw [hk] at hdtor
      exact absurd hdtor id
    · rw [hk] at hdtor
      exact absurd hdtor id
  have hstopped : c.shared.running = false := by
    have hdtor := hinv.dtor
    rwa [hmain] at hdtor
  have hawake : c.shared.sleepers = ∅ := by
    rcases hinv.stop hstopped with ⟨j, hj⟩ | ⟨hs, -⟩
    · obtain ⟨sh, k, hw⟩ := notifier_works main j c.shared hj
      exact absurd hw (hno j sh k)
    · exact hs
  refine ⟨hmain, (ends_of_resting hrest hawake hinv.fits).2, ?_, ?_⟩
  · have hbalance : c.shared.pending =
        c.shared.queue.length + 1 + ∑ j, ((c.pc j).held + (c.pc j).added) := hinv.balance
    rw [hbalance, Finset.sum_eq_zero fun i _ => (hrest i).held.1, Nat.add_zero]
  · rw [unwound_todo h, Finset.sum_eq_zero fun i _ => (hrest i).held.2.1, add_zero]
    rfl

omit [Fintype W] in
theorem UnwoundRun.quiet {root : Dir} {lost : Multiset Event} {c : Config W (Shared W) Pc} (i : W)
    {sh : Shared W} {k : Pc} (h : UnwoundRun main root lost c) (hn : (c.pc i).notifies = false)
    (ha : Work main i c.shared (c.pc i) sh k) : UnwoundRun main root lost (c.move i sh k) :=
  h.moves i (notifyReady_of_quiet hn) (.work ha)

/-- The pipeline of the main thread fails on the only file, and thread 1 has not popped anything. -/
theorem unwound_grep_ends_over_one_file : ∃ lost, ∃ c : Config (Fin 2) (Shared (Fin 2)) Pc,
    UnwoundRun 0 smallRoot lost c ∧ c.pc 0 = .joining ∧ c.pc 1 = .done ∧ c.shared.pending = 1 ∧
      smallRoot.todo = lost + {.popped []} := by
  have h : Runs (Moves (0 : Fin 2)) NotifyReady (start smallRoot) (start smallRoot) := .refl
  have h := run_quiet 0 h rfl (.testRunning rfl)
  have h := run_quiet 0 h rfl (.lock rfl)
  have h := run_quiet 0 h rfl (.predTrue (.inl (List.cons_ne_nil _ _)))
  have h := run_quiet 0 h rfl (.goOn rfl)
  have h := run_quiet 0 h rfl (.pop rfl)
  have h := run_quiet 0 h rfl (@Work.batch _ _ _ _ _ smallRoot smallRoot.entries [] (List.cons_ne_nil _ _))
  have h := run_quiet 0 h rfl (.skip rfl)
  have h := run_quiet 0 h rfl .openFile
  have h := UnwoundRun.throws h rfl
  have h := h.quiet 0 rfl .dtorStore
  have h := h.quiet 1 rfl (.testStopped rfl)
  have h := h.moves 0 (fun _ => Fin.forall_fin_two.mpr ⟨Pc.noConfusion, Pc.noConfusion⟩)
    (.work .dtorNotify)
  have h := h.quiet 1 rfl (.flush (by decide))
  obtain ⟨hmain, hothers, hpending, htodo⟩ := unwound_grep_ends _ _ _ h
    (Fin.forall_fin_two.mpr ⟨fun _ _ _ => joining_stays, fun _ _ _ => done_stays⟩)
  exact ⟨_, _, h, hmain, hothers 1 (by decide), hpending, htodo⟩

end Omnipp.Grep
