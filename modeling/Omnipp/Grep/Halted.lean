import Omnipp.Grep.Awake
import Omnipp.Grep.Shutdown

/-!
# Where the workers halt

A thread that is not asleep and has not returned can always move, or waits for a mutex whose owner
can. So when nothing moves any more the whole tree has been visited, also in the runs that
lose the last wakeup.
-/

open Omnipp.Threads

namespace Omnipp.Grep

variable {W : Type} [DecidableEq W] {main : W}

/-! ## One step -/

theorem scan_works (main i : W) (sh : Shared W) (d : Dir) (rest span : List Entry)
    (found : List Dir) : ∃ sh' k', Work main i sh (.scan d rest span found) sh' k' := by
  cases span with
  | nil => exact ⟨_, _, .scanned⟩
  | cons e span =>
    by_cases hs : e.skipped = true
    · exact ⟨_, _, .skip hs⟩
    · cases e with
      | reg name opens =>
        simp only [Entry.skipped, Bool.not_eq_true, Bool.not_eq_false'] at hs
        subst hs
        exact ⟨_, _, .openFile⟩
      | dir name opens entries =>
        simp only [Entry.skipped, Bool.not_eq_true, Bool.or_eq_false_iff, Bool.not_eq_false'] at hs
        obtain ⟨hdot, rfl⟩ := hs
        exact ⟨_, _, .openDir hdot⟩
      | other name => exact absurd rfl hs

/-- Where the mutex is held, the next step waits for nobody. -/
theorem owner_works (main i : W) (sh : Shared W) {k : Pc} (hk : k.HasMutex)
    (hpop : k = .pop → sh.queue ≠ []) : ∃ sh' k', Work main i sh k sh' k' := by
  cases k with
  | pred =>
    by_cases hq : sh.queue = []
    · cases hr : sh.running with
      | true => exact ⟨_, _, .predFalse hq hr⟩
      | false => exact ⟨_, _, .predTrue (.inr hr)⟩
    · exact ⟨_, _, .predTrue (.inl hq)⟩
  | sleep => exact ⟨_, _, .sleep⟩
  | recheck =>
    cases hr : sh.running with
    | true => exact ⟨_, _, .goOn hr⟩
    | false => exact ⟨_, _, .stop hr⟩
  | pop =>
    obtain ⟨d, q, hq⟩ := List.exists_cons_of_ne_nil (hpop rfl)
    exact ⟨_, _, .pop hq⟩
  | append d rest found => exact ⟨_, _, .append⟩
  | _ => exact absurd hk id

/-- The places where a thread has nothing to do any more, or nothing until somebody notifies. -/
def Resting (i : W) (sh : Shared W) (k : Pc) : Prop :=
  k = .joining ∨ k = .done ∨ (k = .waiting ∧ i ∈ sh.sleepers)

theorem free_works (main i : W) (sh : Shared W) {k : Pc} (hk : ¬ k.HasMutex)
    (hfree : sh.mutex = none) : Resting i sh k ∨ ∃ sh' k', Work main i sh k sh' k' := by
  cases k with
  | test =>
    cases hr : sh.running with
    | true => exact .inr ⟨_, _, .testRunning hr⟩
    | false => exact .inr ⟨_, _, .testStopped hr⟩
  | lock => exact .inr ⟨_, _, .lock hfree⟩
  | waiting =>
    by_cases hi : i ∈ sh.sleepers
    · exact .inl (.inr (.inr ⟨rfl, hi⟩))
    · exact .inr ⟨_, _, .wake hi hfree⟩
  | getdents d rest =>
    cases rest with
    | nil => exact .inr ⟨_, _, .listed⟩
    | cons e es =>
      have hbatch : Work main i sh (.getdents d (e :: es ++ [])) sh (.scan d [] (e :: es) []) :=
        .batch (List.cons_ne_nil e es)
      rw [List.append_nil] at hbatch
      exact .inr ⟨_, _, hbatch⟩
  | scan d rest span found => exact .inr (scan_works main i sh d rest span found)
  | execute file d rest span found => exact .inr ⟨_, _, .execute⟩
  | closeFile file d rest span found => exact .inr ⟨_, _, .closeFile⟩
  | add d rest found => exact .inr ⟨_, _, .add⟩
  | appendLock d rest found => exact .inr ⟨_, _, .appendLock hfree⟩
  | notifyOne d rest =>
    rcases Finset.eq_empty_or_nonempty sh.sleepers with hs | ⟨j, hj⟩
    · exact .inr ⟨_, _, .notifyNone hs⟩
    · exact .inr ⟨_, _, .notifyOne hj⟩
  | close d => exact .inr ⟨_, _, .close⟩
  | sub =>
    by_cases hp : sh.pending = 1
    · exact .inr ⟨_, _, .subLast hp⟩
    · exact .inr ⟨_, _, .sub hp⟩
  | store => exact .inr ⟨_, _, .store⟩
  | notifyAll => exact .inr ⟨_, _, .notifyAll⟩
  | flush =>
    by_cases hi : i = main
    · subst hi
      exact .inr ⟨_, _, .flushMain⟩
    · exact .inr ⟨_, _, .flush hi⟩
  | dtorStore => exact .inr ⟨_, _, .dtorStore⟩
  | dtorNotify => exact .inr ⟨_, _, .dtorNotify⟩
  | joining => exact .inl (.inl rfl)
  | done => exact .inl (.inr (.inl rfl))
  | _ => exact absurd trivial hk

theorem moves_last {i : W} {sh sh' : Shared W} {k k' : Pc} (h : Moves main i sh k sh' k')
    (hheld : k.held ≤ sh.pending) (hp : sh'.pending = 0) : sh.pending = 0 ∨ k' = .store := by
  cases h with
  | spurious _ => exact .inl hp
  | work h =>
    cases h with
    | subLast _ => exact .inr rfl
    | sub hne => simp only [Pc.held] at hheld hp; omega
    | add => simp only at hp; omega
    | _ => exact .inl hp

theorem moves_from_store {i : W} {sh sh' : Shared W} {k' : Pc}
    (h : Moves main i sh .store sh' k') : sh'.running = false := by
  cases h with
  | work h => cases h; rfl

/-- What `i` may be at the end: the thread of `run` joins, the others return. -/
def Pc.Fits (main i : W) : Pc → Prop
  | .dtorStore | .dtorNotify | .joining => i = main
  | .done => i ≠ main
  | _ => True

theorem moves_fits {i : W} {sh sh' : Shared W} {k k' : Pc} (h : Moves main i sh k sh' k')
    (hk : k.Fits main i) : k'.Fits main i := by
  cases h with
  | spurious _ => trivial
  | work h =>
    cases h with
    | flush hne => exact hne
    | flushMain => exact rfl
    | dtorStore | dtorNotify => exact hk
    | _ => trivial

/-! ## Every run -/

structure Halting [Fintype W] (main : W) (c : Config W (Shared W) Pc) : Prop where
  inv : Inv c
  -- Whoever brings `pending_` to 0 stops the others.
  stops : c.shared.pending = 0 → c.shared.running = false ∨ ∃ i, c.pc i = .store
  fits : ∀ i, (c.pc i).Fits main i

variable [Fintype W]

theorem halting_step (c : Config W (Shared W) Pc) (i : W) (sh : Shared W) (k : Pc)
    (h : Halting main c) (hm : Moves main i c.shared (c.pc i) sh k) : Halting main (c.move i sh k) := by
  refine ⟨inv_step c i sh k h.inv hm, ?_, ?_⟩
  · intro hp
    rw [move_shared] at hp ⊢
    have hheld := h.inv.held_le i
    rcases moves_last hm (by omega) hp with hp | rfl
    · rcases h.stops hp with hr | ⟨j, hj⟩
      · exact .inl (moves_running hm hr)
      · by_cases hji : j = i
        · subst hji
          rw [hj] at hm
          exact .inl (moves_from_store hm)
        · exact .inr ⟨j, by rw [move_pc_of_ne c sh k hji, hj]⟩
    · exact .inr ⟨i, move_pc_self c i sh _⟩
  · exact forall_move c (P := fun j p => p.Fits main j) (moves_fits hm (h.fits i))
      fun j _ => h.fits j

theorem halting_run {root : Dir} {c : Config W (Shared W) Pc}
    (h : Reaches (Moves main) (start root) c) : Halting main c := by
  refine Runs.invariant (Halting main) (fun c i sh k hc _ hm => halting_step c i sh k hc hm) h ?_
  exact ⟨inv_start root, by simp [start], fun _ => trivial⟩

/-- A step only moves work from what is to do to what is done. -/
theorem todo_step {c : Config W (Shared W) Pc} {i : W} {sh : Shared W} {k : Pc}
    (hm : Moves main i c.shared (c.pc i) sh k) :
    books sh + ∑ j, ((c.move i sh k).pc j).todo = books c.shared + ∑ j, (c.pc j).todo := by
  have hsum := sum_move Pc.todo c i sh k
  have hstep := moves_todo hm
  apply add_right_cancel (b := (c.pc i).todo)
  calc books sh + ∑ j, ((c.move i sh k).pc j).todo + (c.pc i).todo
      = books sh + k.todo + ∑ j, (c.pc j).todo := by rw [add_assoc, hsum]; abel
    _ = books c.shared + ∑ j, (c.pc j).todo + (c.pc i).todo := by rw [hstep]; abel

omit [Fintype W] in
theorem all_resting {c : Config W (Shared W) Pc} (h : Seen c)
    (hno : ∀ i sh k, ¬ Work main i c.shared (c.pc i) sh k) (i : W) :
    Resting i c.shared (c.pc i) := by
  have hnobody : ∀ j, ¬ (c.pc j).HasMutex := by
    intro j hj
    obtain ⟨sh, k, hw⟩ := owner_works main j c.shared hj (h.pop j)
    exact hno j sh k hw
  have hfree : c.shared.mutex = none := by
    cases ho : c.shared.mutex with
    | none => rfl
    | some j => exact absurd ((h.mutex j).mpr ho) (hnobody j)
  rcases free_works main i c.shared (hnobody i) hfree with hrest | ⟨sh, k, hw⟩
  · exact hrest
  · exact absurd hw (hno i sh k)

omit [DecidableEq W] [Fintype W] in
theorem Resting.held {i : W} {sh : Shared W} {k : Pc} (h : Resting i sh k) :
    k.held + k.added = 0 ∧ k.todo = 0 ∧ k ≠ .store := by
  rcases h with rfl | rfl | ⟨rfl, -⟩ <;> exact ⟨rfl, rfl, by simp⟩

omit [DecidableEq W] in
theorem stopped_of_resting {c : Config W (Shared W) Pc} (h : Halting main c) (ha : Awake c)
    (hrest : ∀ i, Resting i c.shared (c.pc i)) : c.shared.running = false := by
  have hpending : c.shared.pending = c.shared.queue.length := by
    rw [h.inv.pending_eq, Finset.sum_eq_zero fun i _ => (hrest i).held.1, Nat.add_zero]
  cases hr : c.shared.running with
  | false => rfl
  | true =>
    -- Nobody has left, so everybody sleeps, and there is nothing to do.
    have hall : ∀ i, i ∈ c.shared.sleepers := by
      intro i
      have hleft : ¬ (c.pc i).Left := fun hl => by simp [h.inv.left i hl] at hr
      rcases hrest i with hk | hk | ⟨-, hi⟩
      · exact absurd (hk ▸ trivial) hleft
      · exact absurd (hk ▸ trivial) hleft
      · exact hi
    have hq : c.shared.queue = [] := by
      by_contra hq
      obtain ⟨i, hi⟩ := ha.awake hq
      exact hi (hall i)
    rcases h.stops (by rw [hpending, hq]; rfl) with hr' | ⟨i, hi⟩
    · rw [hr] at hr'
      exact hr'
    · exact absurd hi (hrest i).held.2.2

theorem halted {root : Dir} {c : Config W (Shared W) Pc} (h : Reaches (Moves main) (start root) c)
    (hno : ∀ i sh k, ¬ Work main i c.shared (c.pc i) sh k) :
    c.shared.running = false ∧ (c.shared.log : Multiset Event) = eventsOf root.visits ∧
      ∀ i, Resting i c.shared (c.pc i) := by
  have hhalt := halting_run h
  have hawake := awake_run h
  have hrest := all_resting hawake.seen hno
  have hr := stopped_of_resting hhalt hawake hrest
  have hq := (hhalt.inv.empty (hhalt.inv.stopped hr)).1
  have htodo := todo_run h
  rw [Finset.sum_eq_zero fun i _ => (hrest i).held.2.1] at htodo
  exact ⟨hr, by simpa [books, hq, Dir.todo] using htodo.symm, hrest⟩

/-- A run that cannot go on has visited the whole tree, whatever wakeups were lost. Its threads
sleep or have returned, and the thread of `run` sleeps or waits for them. -/
theorem halted_run_is_complete (root : Dir) (c : Config W (Shared W) Pc)
    (h : Reaches (Moves main) (start root) c)
    (hno : ∀ i sh k, ¬ Work main i c.shared (c.pc i) sh k) :
    c.shared.running = false ∧ (c.shared.log : Multiset Event) = eventsOf root.visits ∧
      ∀ i, (i = main ∧ c.pc i = .joining) ∨ (i ≠ main ∧ c.pc i = .done) ∨
        (c.pc i = .waiting ∧ i ∈ c.shared.sleepers) := by
  obtain ⟨hr, hlog, hrest⟩ := halted h hno
  refine ⟨hr, hlog, fun i => ?_⟩
  have hfits := (halting_run h).fits i
  rcases hrest i with hk | hk | hk
  · rw [hk] at hfits
    exact .inl ⟨hfits, hk⟩
  · rw [hk] at hfits
    exact .inr (.inl ⟨hfits, hk⟩)
  · exact .inr (.inr hk)

/-- Thread 1 stops grep while the main thread is between its predicate and its sleep: grep hangs
with the root listed and closed. -/
theorem halted_run_of_a_lost_wakeup : ∃ c : Config (Fin 2) (Shared (Fin 2)) Pc,
    Reaches (Moves 0) (start ⟨[], []⟩) c ∧ (∀ i sh k, ¬ Work 0 i c.shared (c.pc i) sh k) ∧
      c.pc 0 = .waiting ∧ (c.shared.log : Multiset Event) = eventsOf [.dir []] := by
  have h : Reaches (Moves (0 : Fin 2)) (start ⟨[], []⟩) (start ⟨[], []⟩) := .refl
  have h := h.step 1 (.work (.testRunning rfl))
  have h := h.step 1 (.work (.lock rfl))
  have h := h.step 1 (.work (.predTrue (.inl (List.cons_ne_nil _ _))))
  have h := h.step 1 (.work (.goOn rfl))
  have h := h.step 1 (.work (.pop rfl))
  have h := h.step 0 (.work (.testRunning rfl))
  have h := h.step 0 (.work (.lock rfl))
  have h := h.step 0 (.work (.predFalse rfl rfl))
  have h := h.step 1 (.work .listed)
  have h := h.step 1 (.work .close)
  have h := h.step 1 (.work (.subLast rfl))
  have h := h.step 1 (.work .store)
  have h := h.step 1 (.work .notifyAll)
  have h := h.step 0 (.work .sleep)
  have h := h.step 1 (.work (.testStopped rfl))
  have h := h.step 1 (.work (.flush (by decide)))
  refine ⟨_, h, ?_⟩
  -- The main thread sleeps, and the other one has returned.
  refine ⟨Fin.forall_fin_two.mpr ⟨?_, ?_⟩, rfl, (halted_run_is_complete _ _ h ?_).2.1⟩
  · exact fun _ _ => sleeper_waits (by decide)
  · exact fun _ _ => done_stays
  · exact Fin.forall_fin_two.mpr ⟨fun _ _ => sleeper_waits (by decide), fun _ _ => done_stays⟩

/-! ## The files of a log -/

def Visit.files : Visit → List Path
  | .dir _ => []
  | .file p => [p]

def visitedFiles (vs : List Visit) : List Path := vs.flatMap Visit.files

def Event.ranFile : Event → Option Path
  | .ran p => some p
  | _ => none

/-- The files that the pipeline ran on, in this order. -/
def ranFiles (log : List Event) : List Path := log.filterMap Event.ranFile

theorem ranFiles_events (vs : List Visit) : ranFiles (vs.flatMap Visit.events) = visitedFiles vs := by
  induction vs with
  | nil => rfl
  | cons v vs ih =>
    rw [ranFiles, List.flatMap_cons, List.filterMap_append, ← ranFiles, ← ranFiles, ih]
    cases v <;> rfl

theorem ranFiles_perm {log : List Event} {vs : List Visit}
    (h : (log : Multiset Event) = eventsOf vs) : (ranFiles log).Perm (visitedFiles vs) := by
  have hperm : log.Perm (vs.flatMap Visit.events) := Multiset.coe_eq_coe.mp h
  rw [← ranFiles_events]
  exact hperm.filterMap _

/-! ## Without lost wakeups -/

omit [DecidableEq W] [Fintype W] in
theorem notifyReady_of_quiet {i : W} {c : Config W (Shared W) Pc} (h : (c.pc i).notifies = false) :
    NotifyReady i c := by
  intro hs
  simp [h] at hs

omit [Fintype W] in
/-- A thread that is about to notify is held back only by one that can go to sleep. -/
theorem no_work_of_no_ready_work {c : Config W (Shared W) Pc}
    (hno : ∀ i, NotifyReady i c → ∀ sh k, ¬ Work main i c.shared (c.pc i) sh k) :
    ∀ i sh k, ¬ Work main i c.shared (c.pc i) sh k := by
  have hsleep : ∀ j, c.pc j ≠ .sleep := by
    intro j hj
    refine hno j (notifyReady_of_quiet (by rw [hj]; rfl))
      { c.shared with mutex := none, sleepers := insert j c.shared.sleepers } .waiting ?_
    rw [hj]
    exact .sleep
  intro i sh k hw
  exact hno i (fun _ => hsleep) sh k hw

omit [Fintype W] in
theorem sleepers_of_halted {root : Dir} {c : Config W (Shared W) Pc}
    (h : Runs (Moves main) NotifyReady (start root) c) (hr : c.shared.running = false)
    (hno : ∀ i sh k, ¬ Work main i c.shared (c.pc i) sh k) : c.shared.sleepers = ∅ := by
  rcases stop_inv_run h hr with ⟨j, hj⟩ | ⟨hs, -⟩
  · obtain ⟨sh, k, hw⟩ := notifier_works main j c.shared hj
    exact absurd hw (hno j sh k)
  · exact hs

omit [DecidableEq W] [Fintype W] in
/-- Where everybody rests and nobody sleeps, everybody is at the end of its thread. -/
theorem ends_of_resting {c : Config W (Shared W) Pc} (hrest : ∀ i, Resting i c.shared (c.pc i))
    (hawake : c.shared.sleepers = ∅) (hfits : ∀ i, (c.pc i).Fits main i) :
    c.pc main = .joining ∧ ∀ i, i ≠ main → c.pc i = .done := by
  have hend : ∀ i, c.pc i = .joining ∨ c.pc i = .done := by
    intro i
    rcases hrest i with hk | hk | ⟨-, hi⟩
    · exact .inl hk
    · exact .inr hk
    · simp [hawake] at hi
  refine ⟨?_, fun i hi => ?_⟩
  · rcases hend main with hk | hk
    · exact hk
    · have hne := hfits main
      rw [hk] at hne
      exact absurd rfl hne
  · rcases hend i with hk | hk
    · have heq := hfits i
      rw [hk] at heq
      exact absurd heq hi
    · exact hk

/-- When no wakeup is lost, a run that cannot go on is over: the tree is visited, the threads have
returned, and the thread of `run` has nobody left to wait for. -/
theorem grep_ends_when_nobody_can_move (root : Dir) (c : Config W (Shared W) Pc)
    (h : Runs (Moves main) NotifyReady (start root) c)
    (hno : ∀ i, NotifyReady i c → ∀ sh k, ¬ Work main i c.shared (c.pc i) sh k) :
    (c.shared.log : Multiset Event) = eventsOf root.visits ∧ c.pc main = .joining ∧
      ∀ i, i ≠ main → c.pc i = .done := by
  have hno := no_work_of_no_ready_work hno
  obtain ⟨hr, hlog, hrest⟩ := halted h.reaches hno
  have hawake := sleepers_of_halted h hr hno
  exact ⟨hlog, ends_of_resting hrest hawake (halting_run h.reaches).fits⟩

omit [Fintype W] in
theorem joining_stays {i : W} {sh sh' : Shared W} {k' : Pc} : ¬ Work main i sh .joining sh' k' := by
  rintro ⟨⟩

/-- The main thread sleeps, thread 1 wakes it, and both leave. -/
theorem grep_ends_over_an_empty_root : ∃ c : Config (Fin 2) (Shared (Fin 2)) Pc,
    Runs (Moves 0) NotifyReady (start ⟨[], []⟩) c ∧
      (c.shared.log : Multiset Event) = eventsOf [.dir []] ∧ c.pc 0 = .joining ∧ c.pc 1 = .done := by
  have h : Runs (Moves (0 : Fin 2)) NotifyReady (start ⟨[], []⟩) (start ⟨[], []⟩) := .refl
  have h := run_quiet 1 h rfl (.testRunning rfl)
  have h := run_quiet 1 h rfl (.lock rfl)
  have h := run_quiet 1 h rfl (.predTrue (.inl (List.cons_ne_nil _ _)))
  have h := run_quiet 1 h rfl (.goOn rfl)
  have h := run_quiet 1 h rfl (.pop rfl)
  have h := run_quiet 0 h rfl (.testRunning rfl)
  have h := run_quiet 0 h rfl (.lock rfl)
  have h := run_quiet 0 h rfl (.predFalse rfl rfl)
  have h := run_quiet 0 h rfl .sleep
  have h := run_quiet 1 h rfl .listed
  have h := run_quiet 1 h rfl .close
  have h := run_quiet 1 h rfl (.subLast rfl)
  have h := run_quiet 1 h rfl .store
  have h := h.step 1 (fun _ => Fin.forall_fin_two.mpr ⟨Pc.noConfusion, Pc.noConfusion⟩)
    (.work .notifyAll)
  have h := run_quiet 1 h rfl (.testStopped rfl)
  have h := run_quiet 1 h rfl (.flush (by decide))
  have h := run_quiet 0 h rfl (.wake (Finset.notMem_empty 0) rfl)
  have h := run_quiet 0 h rfl (.predTrue (.inr rfl))
  have h := run_quiet 0 h rfl (.stop rfl)
  have h := run_quiet 0 h rfl .flushMain
  have h := run_quiet 0 h rfl .dtorStore
  have h := h.step 0 (fun _ => Fin.forall_fin_two.mpr ⟨Pc.noConfusion, Pc.noConfusion⟩)
    (.work .dtorNotify)
  obtain ⟨hlog, hmain, hothers⟩ := grep_ends_when_nobody_can_move _ _ h
    (Fin.forall_fin_two.mpr ⟨fun _ _ _ => joining_stays, fun _ _ _ => done_stays⟩)
  exact ⟨_, h, hlog, hmain, hothers 1 (by decide)⟩

end Omnipp.Grep
