import Omnipp.Grep.Processor
import Mathlib.Algebra.Order.BigOperators.Group.Finset

/-!
# The traversal visits everything once

`pending_` counts the directories that are still somewhere between `openat` and the
`fetch_sub` of their worker, so it is 0 only at the end. What is left to do for the
directories in `queue_` and in the workers' hands, and what the log says was done, is
together the work for the whole tree.
-/

open Omnipp.Threads

namespace Omnipp.Grep

variable {W : Type}

/-! ## The books -/

/-- What was done and what waits in the queue. -/
def books (sh : Shared W) : Multiset Event := ↑sh.log + (sh.queue.map Dir.todo).sum

theorem books_log (sh : Shared W) (e : Event) :
    books { sh with log := sh.log ++ [e] } = {e} + books sh := by
  simp only [books, ← Multiset.coe_add, Multiset.coe_singleton]
  abel

section Step
variable [DecidableEq W] {main : W}

/-! ## One step -/

theorem moves_pending {i : W} {sh sh' : Shared W} {k k' : Pc} (h : Moves main i sh k sh' k')
    (hsub : k.held ≤ sh.pending) :
    sh'.pending + (sh.queue.length + (k.held + k.added)) =
      sh.pending + (sh'.queue.length + (k'.held + k'.added)) := by
  cases h with
  | spurious _ => rfl
  | work h =>
    cases h with
    | pop hq => simp [hq, Pc.held, Pc.added, add_comm]
    | add => simp only [Pc.held, Pc.added]; omega
    | append => simp only [Pc.held, Pc.added, List.length_append]; omega
    | subLast hp => simp only [Pc.held, Pc.added] at *; omega
    | sub hp => simp only [Pc.held, Pc.added] at *; omega
    | _ => simp [Pc.held, Pc.added]

theorem moves_pending_of_idle {i : W} {sh sh' : Shared W} {k k' : Pc}
    (h : Moves main i sh k sh' k') (hk : k.held = 0) : sh'.pending = sh.pending := by
  cases h with
  | spurious _ => rfl
  | work h => cases h <;> first | rfl | simp [Pc.held] at hk

theorem moves_running {i : W} {sh sh' : Shared W} {k k' : Pc} (h : Moves main i sh k sh' k')
    (hr : sh.running = false) : sh'.running = false := by
  cases h with
  | spurious _ => exact hr
  | work h => cases h <;> first | exact hr | rfl

theorem moves_stops {i : W} {sh sh' : Shared W} {k k' : Pc} (h : Moves main i sh k sh' k')
    (hr : sh'.running = false) : sh.running = false ∨ k = .store ∨ k = .dtorStore := by
  cases h with
  | spurious _ => exact .inl hr
  | work h => cases h <;> simp_all

theorem moves_store {i : W} {sh sh' : Shared W} {k : Pc} (h : Moves main i sh k sh' .store) :
    sh'.pending = 0 := by
  cases h with
  | work h => cases h; rfl

theorem moves_left {i : W} {sh sh' : Shared W} {k k' : Pc} (h : Moves main i sh k sh' k')
    (hk : k'.Left) : sh.running = false ∨ k.Left := by
  cases h with
  | spurious _ => exact .inr hk
  | work h => cases h <;> simp_all [Pc.Left]

theorem child_visits (d : Dir) (name : Name) (entries : List Entry) (h : isDot name = false) :
    (Entry.dir name true entries).visits d.path = (d.child name entries).visits := by
  simp [Entry.visits, Dir.visits, Dir.child, h]

theorem skipped_visits (p : Path) (e : Entry) (h : e.skipped = true) : e.visits p = [] := by
  cases e with
  | reg name opens => simp_all [Entry.skipped, Entry.visits]
  | dir name opens entries =>
    simp only [Entry.skipped, Bool.or_eq_true, Bool.not_eq_true'] at h
    rcases h with h | h <;> simp [Entry.visits, h]
  | other name => rfl

theorem moves_todo {i : W} {sh sh' : Shared W} {k k' : Pc} (h : Moves main i sh k sh' k') :
    books sh' + k'.todo = books sh + k.todo := by
  cases h with
  | spurious _ => rfl
  | work h =>
    cases h with
    | pop hq =>
      simp only [books, hq, Pc.todo, List.map_cons, List.sum_cons, Dir.todo_eq, ← Multiset.coe_add,
        Multiset.coe_singleton]
      abel
    | batch _ => simp only [Pc.todo, todoOf_append, List.map_nil, List.sum_nil]; abel
    | listed => rw [books_log]; simp only [Pc.todo, todoOf_nil]; abel
    | skip hs => simp only [Pc.todo, todoOf_cons, skipped_visits _ _ hs, eventsOf_nil, zero_add]
    | openDir hd =>
      simp only [Pc.todo, todoOf_cons, child_visits _ _ _ hd, List.map_append, List.sum_append,
        List.map_cons, List.map_nil, List.sum_cons, List.sum_nil, Dir.todo]
      abel
    | @openFile _ _ d _ name _ _ =>
      have : eventsOf ((Entry.reg name true).visits d.path) =
          {.ran (d.path ++ [name])} + {.closedFile (d.path ++ [name])} := rfl
      simp only [Pc.todo, todoOf_cons, this]
      abel
    | execute => rw [books_log]; simp only [Pc.todo]; abel
    | closeFile => rw [books_log]; simp only [Pc.todo]; abel
    | scanned => simp only [Pc.todo, todoOf_nil]; abel
    | append => simp only [books, Pc.todo, List.map_append, List.sum_append]; abel
    | close => rw [books_log]; simp only [Pc.todo]; abel
    | _ => rfl

end Step

/-! ## Every run -/

section Run
variable [Fintype W]

/-- `pending_` is exact, and it is 0 from the moment somebody is about to stop the others. -/
structure Inv (c : Config W (Shared W) Pc) : Prop where
  balance : Balanced Shared.pending (fun sh => sh.queue.length) (fun k => k.held + k.added) c
  stopped : c.shared.running = false → c.shared.pending = 0
  store : ∀ i, c.pc i = .store → c.shared.pending = 0
  left : ∀ i, (c.pc i).Left → c.shared.running = false

theorem Inv.pending_eq {c : Config W (Shared W) Pc} (h : Inv c) :
    c.shared.pending = c.shared.queue.length + ∑ i, ((c.pc i).held + (c.pc i).added) := h.balance

theorem Inv.held_le {c : Config W (Shared W) Pc} (h : Inv c) (i : W) :
    (c.pc i).held + (c.pc i).added ≤ c.shared.pending := by
  have hle : (c.pc i).held + (c.pc i).added ≤ ∑ j, ((c.pc j).held + (c.pc j).added) :=
    Finset.single_le_sum (f := fun j => (c.pc j).held + (c.pc j).added)
      (fun _ _ => Nat.zero_le _) (Finset.mem_univ i)
  have hb := h.pending_eq
  omega

theorem Inv.empty {c : Config W (Shared W) Pc} (h : Inv c) (hp : c.shared.pending = 0) :
    c.shared.queue = [] ∧ ∀ i, (c.pc i).held = 0 := by
  have hb := h.pending_eq
  refine ⟨List.eq_nil_of_length_eq_zero (by omega), fun i => ?_⟩
  have := h.held_le i
  omega

theorem inv_start (root : Dir) : Inv (start root : Config W (Shared W) Pc) where
  balance := by simp [Threads.Balanced, start, Pc.held, Pc.added]
  stopped := by simp [start]
  store := by simp [start]
  left := by simp [start, Pc.Left]

variable [DecidableEq W] {main : W}

theorem inv_step (c : Config W (Shared W) Pc) (i : W) (sh : Shared W) (k : Pc) (h : Inv c)
    (ha : Moves main i c.shared (c.pc i) sh k) : Inv (c.move i sh k) := by
  have hkeep : c.shared.pending = 0 → sh.pending = 0 := fun hp => by
    rw [moves_pending_of_idle ha ((h.empty hp).2 i), hp]
  have hstop : sh.running = false → sh.pending = 0 := by
    intro hr
    rcases moves_stops ha hr with hr | hk | hk
    · exact hkeep (h.stopped hr)
    · exact hkeep (h.store i hk)
    · exact hkeep (h.stopped (h.left i (by rw [hk]; trivial)))
  refine ⟨h.balance.move i sh k (moves_pending ha ?_), hstop, ?_, ?_⟩
  · have := h.held_le i
    omega
  · apply forall_move c (P := fun _ p => p = .store → sh.pending = 0)
    · rintro rfl
      exact moves_store ha
    · intro j _ hj
      exact hkeep (h.store j hj)
  · apply forall_move c (P := fun _ p => p.Left → sh.running = false)
    · intro hk
      apply moves_running ha
      rcases moves_left ha hk with hr | hk
      · exact hr
      · exact h.left i hk
    · intro j _ hj
      exact moves_running ha (h.left j hj)

theorem inv_run {root : Dir} {c : Config W (Shared W) Pc} (h : Reaches (Moves main) (start root) c) :
    Inv c :=
  Runs.invariant Inv (fun c i sh k hc _ ha => inv_step c i sh k hc ha) h (inv_start root)

theorem todo_run {root : Dir} {c : Config W (Shared W) Pc} (h : Reaches (Moves main) (start root) c) :
    root.todo = books c.shared + ∑ i, (c.pc i).todo := by
  refine Runs.conserved root.todo books Pc.todo (fun _ _ _ _ _ => moves_todo) h ?_
  simp [books, start, Pc.todo]

theorem found_of_held {k : Pc} (h : k.held = 0) : k.found = [] := by
  cases k <;> simp_all [Pc.held, Pc.found]

theorem todo_of_left {k : Pc} (h : k.Left) : k.todo = 0 := by
  cases k <;> simp_all [Pc.Left, Pc.todo]

theorem log_of_left {root : Dir} {c : Config W (Shared W) Pc}
    (h : Reaches (Moves main) (start root) c) (hleft : ∀ i, (c.pc i).Left) :
    (c.shared.log : Multiset Event) = eventsOf root.visits := by
  have hinv := inv_run h
  have hq := (hinv.empty (hinv.stopped (hinv.left main (hleft main)))).1
  have ht := todo_run h
  rw [books, hq, Finset.sum_eq_zero (fun i _ => todo_of_left (hleft i))] at ht
  simpa [Dir.todo] using ht.symm

/-- Every run of any number of workers, over any tree. -/
theorem traversal_exactly_once (root : Dir) (hroot : DistinctNames root.entries)
    (c : Config W (Shared W) Pc) (h : Reaches (Moves main) (start root) c) :
    c.shared.pending =
      c.shared.queue.length + ∑ i, (c.pc i).held + ∑ i, (c.pc i).added ∧
    (∀ i, c.pc i = .store ∨ c.pc i = .dtorStore →
      c.shared.queue = [] ∧ ∀ j, (c.pc j).held = 0 ∧ (c.pc j).found = []) ∧
    ((∀ i, (c.pc i).Left) →
      (∀ p, .dir p ∈ root.visits → c.shared.log.count (.popped p) = 1 ∧
        c.shared.log.count (.listed p) = 1 ∧ c.shared.log.count (.closed p) = 1) ∧
      (∀ p, .file p ∈ root.visits → c.shared.log.count (.ran p) = 1 ∧
        c.shared.log.count (.closedFile p) = 1) ∧
      ∀ e ∈ c.shared.log, e.visit ∈ root.visits) := by
  have hinv := inv_run h
  refine ⟨?_, ?_, ?_⟩
  · rw [hinv.pending_eq, Finset.sum_add_distrib, add_assoc]
  · intro i hi
    have hp : c.shared.pending = 0 := by
      rcases hi with hi | hi
      · exact hinv.store i hi
      · exact hinv.stopped (hinv.left i (by rw [hi]; trivial))
    obtain ⟨hq, hheld⟩ := hinv.empty hp
    exact ⟨hq, fun j => ⟨hheld j, found_of_held (hheld j)⟩⟩
  · intro hleft
    have hcount : ∀ e, c.shared.log.count e = root.visits.count e.visit := by
      intro e
      rw [← count_eventsOf, ← log_of_left h hleft, Multiset.coe_count]
    have hone : ∀ v ∈ root.visits, root.visits.count v = 1 := fun v hv =>
      List.count_eq_one_of_mem (root.visits_nodup hroot) hv
    refine ⟨fun p hp => ?_, fun p hp => ?_, fun e he => ?_⟩
    · exact ⟨(hcount _).trans (hone _ hp), (hcount _).trans (hone _ hp), (hcount _).trans (hone _ hp)⟩
    · exact ⟨(hcount _).trans (hone _ hp), (hcount _).trans (hone _ hp)⟩
    · rw [← List.count_pos_iff, ← hcount]
      exact List.count_pos_iff.mpr he

end Run

def smallRoot : Dir := ⟨[], [.dir [46] true [], .reg [97] true]⟩

/-- Two workers, to the end: one finds the file, the other finds the work done. -/
theorem traversal_of_small_root : ∃ c : Config (Fin 2) (Shared (Fin 2)) Pc,
    Reaches (Moves 0) (start smallRoot) c ∧ (∀ i, (c.pc i).Left) ∧
      c.shared.log.count (.ran [[97]]) = 1 := by
  have h : Reaches (Moves (0 : Fin 2)) (start smallRoot) (start smallRoot) := .refl
  have h := h.step 0 (.work (.testRunning rfl))
  have h := h.step 0 (.work (.lock rfl))
  have h := h.step 0 (.work (.predTrue (.inl (List.cons_ne_nil _ _))))
  have h := h.step 0 (.work (.goOn rfl))
  have h := h.step 0 (.work (.pop rfl))
  have h := h.step 0 (.work (@Work.batch _ _ _ _ _ smallRoot smallRoot.entries [] (List.cons_ne_nil _ _)))
  have h := h.step 0 (.work (.skip rfl))
  have h := h.step 0 (.work .openFile)
  have h := h.step 0 (.work .execute)
  have h := h.step 0 (.work .closeFile)
  have h := h.step 0 (.work .scanned)
  have h := h.step 0 (.work .add)
  have h := h.step 0 (.work (.appendLock rfl))
  have h := h.step 0 (.work .append)
  have h := h.step 0 (.work (.notifyNone rfl))
  have h := h.step 0 (.work .listed)
  have h := h.step 0 (.work .close)
  have h := h.step 0 (.work (.subLast rfl))
  have h := h.step 0 (.work .store)
  have h := h.step 0 (.work .notifyAll)
  have h := h.step 0 (.work (.testStopped rfl))
  have h := h.step 1 (.work (.testStopped rfl))
  have hroot : DistinctNames smallRoot.entries := by
    simp [smallRoot, DistinctNames, Entry.Distinct, Entry.name]
  refine ⟨_, h, Fin.forall_fin_two.mpr ⟨trivial, trivial⟩, ?_⟩
  refine (((traversal_exactly_once smallRoot hroot _ h).2.2 ?_).2.1 [[97]] ?_).1
  · exact Fin.forall_fin_two.mpr ⟨trivial, trivial⟩
  · decide

end Omnipp.Grep
