import Mathlib.Algebra.Order.Group.Multiset
import Mathlib.Data.Fintype.Option
import Omnipp.Lib.Threads

/-! # `RegexHandler`

`operator()`, `worker` and the destructor, cut at every access to `to_process`, `mutex`, `cv` and
`running`. The thread `none` owns the handler: it makes the calls and destroys it. The matching of one
buffer is one step.
-/

open Omnipp.Threads Function

namespace Omnipp.Utils.RegexHandler

variable {W ρ : Type}

/-- The members of `RegexHandler`, and what has happened: the requests that `operator()` was called
with, those whose buffer was matched, and those given to `ev.free_read_request`. -/
structure Members (W ρ : Type) where
  toProcess : List ρ
  mutex : Option (Option W)
  -- The wait set of `cv`.
  sleepers : Finset (Option W)
  running : Bool
  handed : List ρ
  scanned : List ρ
  freed : List ρ

inductive Pc (ρ : Type) where
  -- The owner, between two calls
  | idle
  -- `unique_lock(mutex)` in `operator()`
  | enter (req : ρ)
  -- `to_process.push_back(req)`, with the mutex
  | push (req : ρ)
  -- `cv.notify_one()`, with the mutex
  | notifyOne
  -- `return 1zu`, with the mutex
  | leave
  -- `cv.notify_all()` in `~RegexHandler`
  | dtorNotify
  -- `~RegexHandler` joins the threads
  | joining
  -- `while (running)`
  | test
  -- `unique_lock(mutex)` before the wait
  | lock
  -- in `cv.wait`, with the mutex, about to evaluate the predicate
  | pred
  -- the predicate was false: about to release the mutex and join the wait set
  | sleep
  -- in the wait set, or notified and about to take the mutex again
  | waiting
  -- `if (!running)`, with the mutex
  | recheck
  -- `to_process.front()`, `to_process.pop_front()`, with the mutex
  | pop
  -- `hs_scan`
  | scan (req : ρ)
  -- `ev.free_read_request(req)`
  | free (req : ρ)
  -- `hs_scan` did not succeed
  | threw (req : ρ)
  -- the thread function has returned
  | done

variable [DecidableEq W]

/-- One step of thread `i`. -/
inductive Work : Act (Option W) (Members W ρ) (Pc ρ)
  | call {sh} (req : ρ) : Work none sh .idle { sh with handed := sh.handed ++ [req] } (.enter req)
  | enter {sh req} (h : sh.mutex = none) :
      Work none sh (.enter req) { sh with mutex := some none } (.push req)
  | push {sh req} :
      Work none sh (.push req) { sh with toProcess := sh.toProcess ++ [req] } .notifyOne
  | notifyOne {sh j} (h : j ∈ sh.sleepers) :
      Work none sh .notifyOne { sh with sleepers := sh.sleepers.erase j } .leave
  | notifyNone {sh} (h : sh.sleepers = ∅) : Work none sh .notifyOne sh .leave
  | leave {sh} : Work none sh .leave { sh with mutex := none } .idle
  | dtorStore {sh} : Work none sh .idle { sh with running := false } .dtorNotify
  | dtorNotify {sh} : Work none sh .dtorNotify { sh with sleepers := ∅ } .joining
  | testRunning {i sh} (h : sh.running = true) : Work i sh .test sh .lock
  | testStopped {i sh} (h : sh.running = false) : Work i sh .test sh .done
  | lock {i sh} (h : sh.mutex = none) : Work i sh .lock { sh with mutex := some i } .pred
  | predTrue {i sh} (h : sh.running = false ∨ sh.toProcess ≠ []) : Work i sh .pred sh .recheck
  | predFalse {i sh} (hr : sh.running = true) (hq : sh.toProcess = []) : Work i sh .pred sh .sleep
  | sleep {i sh} :
      Work i sh .sleep { sh with mutex := none, sleepers := insert i sh.sleepers } .waiting
  | wake {i sh} (hi : i ∉ sh.sleepers) (h : sh.mutex = none) :
      Work i sh .waiting { sh with mutex := some i } .pred
  | stop {i sh} (h : sh.running = false) : Work i sh .recheck { sh with mutex := none } .done
  | goOn {i sh} (h : sh.running = true) : Work i sh .recheck sh .pop
  | pop {i sh req rest} (h : sh.toProcess = req :: rest) :
      Work i sh .pop { sh with toProcess := rest, mutex := none } (.scan req)
  | scan {i sh req} : Work i sh (.scan req) { sh with scanned := sh.scanned ++ [req] } (.free req)
  -- The exception leaves the thread function.
  | scanFails {i sh req} : Work i sh (.scan req) sh (.threw req)
  | free {i sh req} : Work i sh (.free req) { sh with freed := sh.freed ++ [req] } .test

/-- What may happen to a thread: a step of its own, or a wakeup that nobody sent. -/
inductive Moves : Act (Option W) (Members W ρ) (Pc ρ)
  | work {i sh k sh' k'} (h : Work i sh k sh' k') : Moves i sh k sh' k'
  | spurious {i sh} (h : i ∈ sh.sleepers) :
      Moves i sh .waiting { sh with sleepers := sh.sleepers.erase i } .waiting

/-- The constructor has started the threads. -/
def start : Config (Option W) (Members W ρ) (Pc ρ) where
  shared := { toProcess := [], mutex := none, sleepers := ∅, running := true
              handed := [], scanned := [], freed := [] }
  pc := fun i => i.elim .idle fun _ => .test

/-! ## Where the requests are -/

namespace Pc

/-- The request that the thread has. -/
def held : Pc ρ → Multiset ρ
  | .enter req | .push req | .scan req | .free req | .threw req => {req}
  | _ => 0

/-- The request that was matched and not freed yet. -/
def matched : Pc ρ → Multiset ρ
  | .free req => {req}
  | _ => 0

/-- The thread has found `running` and is about to take a request. -/
def pops : Pc ρ → Nat
  | .pop => 1
  | _ => 0

end Pc

omit [DecidableEq W] in
theorem coe_snoc (l : List ρ) (req : ρ) : (↑(l ++ [req]) : Multiset ρ) = ↑l + {req} :=
  (Multiset.coe_add l [req]).symm

variable [Fintype W]

/-- Every request handed over is in the queue, with a thread, or freed. -/
abbrev Kept : Config (Option W) (Members W ρ) (Pc ρ) → Prop :=
  Balanced (fun sh => (↑sh.handed : Multiset ρ)) (fun sh => ↑sh.toProcess + ↑sh.freed) Pc.held

abbrev Matched : Config (Option W) (Members W ρ) (Pc ρ) → Prop :=
  Balanced (fun sh => (↑sh.scanned : Multiset ρ)) (fun sh => ↑sh.freed) Pc.matched

theorem kept_step {c : Config (Option W) (Members W ρ) (Pc ρ)} {i : Option W} {sh : Members W ρ}
    {k : Pc ρ} (h : Kept c) (ha : Moves i c.shared (c.pc i) sh k) : Kept (c.move i sh k) := by
  refine h.move i sh k ?_
  generalize c.pc i = k₀ at ha
  generalize c.shared = sh₀ at ha
  cases ha with
  | spurious h => rfl
  | work h =>
    cases h with
    | call req =>
      simp only [Pc.held, coe_snoc]
      abel
    | push =>
      simp only [Pc.held, coe_snoc]
      abel
    | pop hq =>
      simp only [Pc.held, hq, ← Multiset.cons_coe, ← Multiset.singleton_add]
      abel
    | free =>
      simp only [Pc.held, coe_snoc]
      abel
    | _ => rfl

theorem matched_step {c : Config (Option W) (Members W ρ) (Pc ρ)} {i : Option W} {sh : Members W ρ}
    {k : Pc ρ} (h : Matched c) (ha : Moves i c.shared (c.pc i) sh k) : Matched (c.move i sh k) := by
  refine h.move i sh k ?_
  generalize c.pc i = k₀ at ha
  generalize c.shared = sh₀ at ha
  cases ha with
  | spurious h => rfl
  | work h =>
    cases h with
    | scan =>
      simp only [Pc.matched, coe_snoc]
      abel
    | free =>
      simp only [Pc.matched, coe_snoc]
      abel
    | _ => rfl

omit [DecidableEq W] in
theorem kept_start : Kept (start : Config (Option W) (Members W ρ) (Pc ρ)) := by
  have hzero : ∑ i : Option W, Pc.held ((start : Config (Option W) (Members W ρ) (Pc ρ)).pc i) = 0 := by
    apply Finset.sum_eq_zero
    rintro (_ | w) - <;> rfl
  rw [Kept, Threads.Balanced, hzero]
  rfl

omit [DecidableEq W] in
theorem matched_start : Matched (start : Config (Option W) (Members W ρ) (Pc ρ)) := by
  have hzero : ∑ i : Option W, Pc.matched ((start : Config (Option W) (Members W ρ) (Pc ρ)).pc i) = 0 := by
    apply Finset.sum_eq_zero
    rintro (_ | w) - <;> rfl
  rw [Matched, Threads.Balanced, hzero]
  rfl

/-! ## After `running = false` -/

/-- The handler is being destroyed. What is in the queue, and not about to be taken, stays there. -/
structure Stopped (c d : Config (Option W) (Members W ρ) (Pc ρ)) : Prop where
  running : d.shared.running = false
  owner : d.pc none = .dtorNotify ∨ d.pc none = .joining
  left : Balanced (fun sh => sh.toProcess.length + ∑ i, (c.pc i).pops)
    (fun _ => c.shared.toProcess.length) Pc.pops d

theorem stopped_store {c : Config (Option W) (Members W ρ) (Pc ρ)} (hidle : c.pc none = .idle) :
    Stopped c (c.move none { c.shared with running := false } .dtorNotify) := by
  refine ⟨rfl, .inl (move_pc_self _ _ _ _), ?_⟩
  have hsame : Balanced (fun sh => sh.toProcess.length + ∑ i, (c.pc i).pops)
      (fun _ => c.shared.toProcess.length) Pc.pops c := rfl
  refine hsame.move _ _ _ ?_
  rw [hidle]
  rfl

theorem stopped_step {c d : Config (Option W) (Members W ρ) (Pc ρ)} (h : Stopped c d) (i : Option W)
    {sh : Members W ρ} {k : Pc ρ} (ha : Moves i d.shared (d.pc i) sh k) : Stopped c (d.move i sh k) := by
  obtain ⟨hrun, howner, hleft⟩ := h
  have hnone : i = none → d.pc i = .dtorNotify ∨ d.pc i = .joining := by
    rintro rfl
    exact howner
  have hothers (hi : i ≠ none) : (d.move i sh k).pc none = .dtorNotify ∨ (d.move i sh k).pc none = .joining := by
    rw [move_pc_of_ne d sh k (Ne.symm hi)]
    exact howner
  have hbalance := hleft.move i sh k
  refine ⟨?_, ?_, hbalance ?_⟩
  · rw [move_shared]
    clear hnone hothers hbalance hleft howner
    generalize d.pc i = k₀ at ha
    generalize d.shared = sh₀ at ha hrun
    cases ha with
    | spurious h => exact hrun
    | work h => cases h <;> first | exact hrun | rfl
  · by_cases hi : i = none
    · subst hi
      rw [move_pc_self]
      generalize d.shared = sh₀ at ha
      rcases howner with hpc | hpc
      · rw [hpc] at ha
        cases ha with
        | work h =>
          cases h
          exact .inr rfl
      · rw [hpc] at ha
        cases ha with
        | work h => cases h
    · exact hothers hi
  · clear hbalance hothers hleft howner
    generalize d.pc i = k₀ at ha hnone
    generalize d.shared = sh₀ at ha hrun
    cases ha with
    | spurious h => rfl
    | work h =>
      cases h with
      | push => rcases hnone rfl with hpc | hpc <;> cases hpc
      | goOn hr =>
        rw [hrun] at hr
        cases hr
      | pop hq =>
        simp only [Pc.pops, hq, List.length_cons]
        omega
      | _ => rfl

/-- The queue holds no more than the workers that found `running` are about to take. There is at most one
of these, as it has the mutex. -/
def Ready (c : Config (Option W) (Members W ρ) (Pc ρ)) : Prop :=
  c.shared.toProcess.length = ∑ i, (c.pc i).pops

/-- The destructor starts in `c`, between two calls, and in `d` all workers have ended. -/
theorem every_request_is_scanned_iff {c d : Config (Option W) (Members W ρ) (Pc ρ)}
    (hc : Reaches Moves start c) (hidle : c.pc none = .idle)
    (hd : Reaches Moves (c.move none { c.shared with running := false } .dtorNotify) d)
    (hend : ∀ w, d.pc (some w) = .done) :
    d.shared.scanned.Perm d.shared.handed ∧ d.shared.freed.Perm d.shared.handed ↔ Ready c := by
  have hstore : Moves none c.shared (c.pc none) { c.shared with running := false } .dtorNotify := by
    rw [hidle]
    exact .work .dtorStore
  have hrun : Reaches Moves start d := (Reaches.step none hc hstore).trans hd
  have hstopped : Stopped c d :=
    Runs.invariant (Stopped c) (fun _ i _ _ hs _ ha => stopped_step hs i ha) hd (stopped_store hidle)
  have hsum {M : Type} [AddCommMonoid M] (share : Pc ρ → M) (hdone : share .done = 0)
      (hnotify : share .dtorNotify = 0) (hjoin : share .joining = 0) : ∑ i, share (d.pc i) = 0 := by
    apply Finset.sum_eq_zero
    rintro (_ | w) -
    · rcases hstopped.owner with hpc | hpc
      · rw [hpc, hnotify]
      · rw [hpc, hjoin]
    · rw [hend w, hdone]
  have hkept := Runs.invariant Kept (fun _ _ _ _ hs _ ha => kept_step hs ha) hrun kept_start
  have hmatched := Runs.invariant Matched (fun _ _ _ _ hs _ ha => matched_step hs ha) hrun matched_start
  have hleft := hstopped.left
  rw [Kept, Threads.Balanced, hsum Pc.held rfl rfl rfl, add_zero] at hkept
  rw [Matched, Threads.Balanced, hsum Pc.matched rfl rfl rfl, add_zero] at hmatched
  rw [Threads.Balanced, hsum Pc.pops rfl rfl rfl, Nat.add_zero] at hleft
  have hempty : d.shared.toProcess = [] ↔ Ready c := by
    rw [← List.length_eq_zero_iff, Ready]
    omega
  rw [← hempty, ← Multiset.coe_eq_coe, ← Multiset.coe_eq_coe, hmatched, and_self, hkept]
  constructor
  · intro heq
    have hcard := congrArg Multiset.card heq
    rw [Multiset.card_add, Multiset.coe_card, Multiset.coe_card] at hcard
    exact List.length_eq_zero_iff.mp (by omega)
  · intro hnil
    rw [hnil]
    exact (zero_add _).symm

/-! ## Four workers and one request -/

/-- The handler is destroyed when all workers are about to test `running`. -/
theorem destroyed {c : Config (Option (Fin 4)) (Members (Fin 4) Nat) (Pc Nat)}
    (_ : Reaches Moves start c) (hpc : ∀ w, c.pc (some w) = .test) :
    ∃ d, Reaches Moves (c.move none { c.shared with running := false } .dtorNotify) d ∧
      d.shared = { c.shared with running := false } ∧ ∀ w, d.pc (some w) = .done := by
  have stop {b d : Config (Option (Fin 4)) (Members (Fin 4) Nat) (Pc Nat)} (w : Fin 4)
      (h : Reaches Moves b d) (hd : d.shared.running = false) (hw : d.pc (some w) = .test) :
      Reaches Moves b (d.move (some w) d.shared .done) := by
    refine h.step (some w) (.work ?_)
    rw [hw]
    exact .testStopped hd
  have h := stop 0 (b := c.move none { c.shared with running := false } .dtorNotify) .refl rfl (hpc 0)
  have h := stop 1 h rfl (hpc 1)
  have h := stop 2 h rfl (hpc 2)
  have h := stop 3 h rfl (hpc 3)
  refine ⟨_, h, rfl, fun w => ?_⟩
  match w with
  | 0 | 1 | 2 | 3 => rfl

/-- Worker 0 has matched and freed the request when the destructor starts. -/
theorem every_request_is_scanned_by_a_worker :
    ∃ c d : Config (Option (Fin 4)) (Members (Fin 4) Nat) (Pc Nat),
      Reaches Moves start c ∧ c.pc none = .idle ∧ Ready c ∧
      Reaches Moves (c.move none { c.shared with running := false } .dtorNotify) d ∧
      (∀ w, d.pc (some w) = .done) ∧ d.shared.handed = [7] ∧
      d.shared.scanned.Perm d.shared.handed ∧ d.shared.freed.Perm d.shared.handed := by
  have h : Reaches Moves start (start : Config (Option (Fin 4)) (Members (Fin 4) Nat) (Pc Nat)) := .refl
  have h := h.step none (.work (.call 7))
  have h := h.step none (.work (.enter rfl))
  have h := h.step none (.work .push)
  have h := h.step none (.work (.notifyNone rfl))
  have h := h.step none (.work .leave)
  have h := h.step (some 0) (.work (.testRunning rfl))
  have h := h.step (some 0) (.work (.lock rfl))
  have h := h.step (some 0) (.work (.predTrue (.inr (List.cons_ne_nil _ _))))
  have h := h.step (some 0) (.work (.goOn rfl))
  have h := h.step (some 0) (.work (.pop rfl))
  have h := h.step (some 0) (.work .scan)
  have h := h.step (some 0) (.work .free)
  obtain ⟨d, hd, hshared, hend⟩ := destroyed h fun w => match w with | 0 | 1 | 2 | 3 => rfl
  refine ⟨_, d, h, rfl, ?_, hd, hend, by rw [hshared]; rfl,
    (every_request_is_scanned_iff h rfl hd hend).mpr ?_⟩
  · exact (Finset.sum_eq_zero (by decide)).symm
  · exact (Finset.sum_eq_zero (by decide)).symm

/-- The destructor starts when the request is in the queue, and all workers leave it there. -/
theorem queued_request_is_abandoned :
    ∃ c d : Config (Option (Fin 4)) (Members (Fin 4) Nat) (Pc Nat),
      Reaches Moves start c ∧ c.pc none = .idle ∧
      Reaches Moves (c.move none { c.shared with running := false } .dtorNotify) d ∧
      (∀ w, d.pc (some w) = .done) ∧ d.shared.handed = [7] ∧ d.shared.scanned = [] ∧
      d.shared.freed = [] ∧
      ¬ (d.shared.scanned.Perm d.shared.handed ∧ d.shared.freed.Perm d.shared.handed) := by
  have h : Reaches Moves start (start : Config (Option (Fin 4)) (Members (Fin 4) Nat) (Pc Nat)) := .refl
  have h := h.step none (.work (.call 7))
  have h := h.step none (.work (.enter rfl))
  have h := h.step none (.work .push)
  have h := h.step none (.work (.notifyNone rfl))
  have h := h.step none (.work .leave)
  obtain ⟨d, hd, hshared, hend⟩ := destroyed h fun w => rfl
  refine ⟨_, d, h, rfl, hd, hend, by rw [hshared]; rfl, by rw [hshared]; rfl, by rw [hshared]; rfl, ?_⟩
  rw [hshared]
  rintro ⟨hscanned, -⟩
  exact absurd hscanned.length_eq (by decide)

end Omnipp.Utils.RegexHandler
