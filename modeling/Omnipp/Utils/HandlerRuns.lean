import Omnipp.Lib.Potential
import Omnipp.Utils.RegexHandler

/-!
# No request is left behind

`operator()` puts a request into the queue and notifies under the mutex, and a worker goes to sleep
with it only when the queue is empty. So whenever the workers have come to rest, all requests are
done. Only the destructor notifies without the mutex.
-/

open Omnipp.Threads

namespace Omnipp.Utils.RegexHandler

variable {W ρ : Type} [DecidableEq W]

namespace Pc

def HasMutex : Pc ρ → Prop
  | .push _ | .notifyOne | .leave | .pred | .sleep | .recheck | .pop => True
  | _ => False

/-- The places of the thread that owns the handler. -/
def OfOwner : Pc ρ → Prop
  | .idle | .enter _ | .push _ | .notifyOne | .leave | .dtorNotify | .joining => True
  | _ => False

end Pc

section Step
variable {i : Option W} {sh sh' : Members W ρ} {k k' : Pc ρ}

/-! ## One step -/

theorem moves_ofOwner (h : Moves i sh k sh' k') (hk : k.OfOwner ↔ i = none) :
    k'.OfOwner ↔ i = none := by
  cases h with
  | spurious _ => exact hk
  | work h => cases h <;> first | exact iff_of_true trivial rfl | exact hk

theorem moves_lock (h : Moves i sh k sh' k') (hk : k.HasMutex → sh.mutex = some i) :
    LockStep Members.mutex Pc.HasMutex i sh k sh' k' := by
  cases h with
  | spurious _ => exact .inl ⟨rfl, Iff.rfl⟩
  | work h =>
    cases h with
    | enter hm | lock hm | wake _ hm => exact .inr (.inl ⟨hm, rfl, trivial⟩)
    | leave | sleep | stop _ | pop _ => exact .inr (.inr ⟨hk trivial, rfl, id⟩)
    | _ => exact .inl ⟨rfl, Iff.rfl⟩

theorem moves_running (h : Moves i sh k sh' k') (hr : sh.running = false) : sh'.running = false := by
  cases h with
  | spurious _ => exact hr
  | work h => cases h <;> first | exact hr | rfl

theorem moves_queue (h : Moves i sh k sh' k') (hk : k ≠ .pop) (hq : sh.toProcess ≠ []) :
    sh'.toProcess ≠ [] := by
  cases h with
  | spurious _ => exact hq
  | work h =>
    cases h with
    | pop _ => exact absurd rfl hk
    | push => exact List.append_ne_nil_of_left_ne_nil hq _
    | _ => exact hq

/-- Only a thread with the mutex changes the queue. -/
theorem moves_queue_eq (h : Moves i sh k sh' k') (hk : ¬ k.HasMutex) :
    sh'.toProcess = sh.toProcess := by
  cases h with
  | spurious _ => rfl
  | work h =>
    cases h with
    | pop _ => exact absurd trivial hk
    | push => exact absurd trivial hk
    | _ => rfl

theorem moves_to_recheck (h : Moves i sh k sh' .recheck) :
    sh'.running = false ∨ sh'.toProcess ≠ [] := by
  cases h with
  | work h => cases h with
    | predTrue hpred => exact hpred

theorem moves_to_pop (h : Moves i sh k sh' .pop) : sh' = sh ∧ k = .recheck ∧ sh.running = true := by
  cases h with
  | work h => cases h with
    | goOn hr => exact ⟨rfl, rfl, hr⟩

theorem moves_to_sleep (h : Moves i sh k sh' .sleep) :
    sh'.toProcess = [] ∧ sh'.running = true := by
  cases h with
  | work h => cases h with
    | predFalse hr hq => exact ⟨hq, hr⟩

theorem moves_from_sleep (h : Moves i sh .sleep sh' k') :
    sh'.toProcess = sh.toProcess ∧ k' = .waiting := by
  cases h with
  | work h => cases h with
    | sleep => exact ⟨rfl, rfl⟩

theorem moves_to_done (h : Moves i sh k sh' .done) : sh'.running = false := by
  cases h with
  | work h =>
    cases h with
    | testStopped hr => exact hr
    | stop hr => exact hr

theorem moves_sleepers (h : Moves i sh k sh' k') (hk : k ≠ .sleep) : sh'.sleepers ⊆ sh.sleepers := by
  cases h with
  | spurious _ => exact Finset.erase_subset _ _
  | work h =>
    cases h with
    | sleep => exact absurd rfl hk
    | notifyOne _ => exact Finset.erase_subset _ _
    | dtorNotify => exact Finset.empty_subset _
    | _ => exact Finset.Subset.refl _

theorem moves_sleepers_of_ne {j : Option W} (h : Moves i sh k sh' k') (hj : j ≠ i)
    (hs : j ∈ sh'.sleepers) : j ∈ sh.sleepers := by
  by_cases hk : k = .sleep
  · subst hk
    cases h with
    | work h => cases h with
      | sleep => exact Finset.mem_of_mem_insert_of_ne hs hj
  · exact moves_sleepers h hk hs

/-- A thread that moves is awake behind its step, or it has just gone to sleep. -/
theorem moves_awake (h : Moves i sh k sh' k') (hs : i ∈ sh.sleepers → k = .waiting) :
    i ∉ sh'.sleepers ∨ k = .sleep := by
  cases h with
  | spurious _ => exact .inl (Finset.notMem_erase _ _)
  | work h =>
    cases h with
    | sleep => exact .inr rfl
    | wake hi _ => exact .inl hi
    | notifyOne _ =>
      refine .inl fun hi => ?_
      cases hs (Finset.mem_of_mem_erase hi)
    | dtorNotify => exact .inl (Finset.notMem_empty _)
    | _ =>
      refine .inl fun hi => ?_
      cases hs hi

/-- What a call puts into the queue is notified, and nothing else of the owner's matters to the
workers that are awake. -/
theorem moves_owner_awake [Nonempty W] (h : Moves none sh k sh' k') (hk : k.OfOwner)
    (hs : none ∉ sh.sleepers) (ha : sh.toProcess ≠ [] → (∃ w, some w ∉ sh.sleepers) ∨ k = .notifyOne)
    (hq : sh'.toProcess ≠ []) : (∃ w, some w ∉ sh'.sleepers) ∨ k' = .notifyOne := by
  cases h with
  | spurious _ => exact absurd hk id
  | work h =>
    cases h with
    | push => exact .inr rfl
    | @notifyOne _ j hj =>
      cases j with
      | none => exact absurd hj hs
      | some w => exact .inl ⟨w, Finset.notMem_erase _ _⟩
    | notifyNone hempty => exact .inl ⟨Classical.arbitrary W, by rw [hempty]; exact Finset.notMem_empty _⟩
    | dtorNotify => exact .inl ⟨Classical.arbitrary W, Finset.notMem_empty _⟩
    | call req | enter _ | leave | dtorStore =>
      rcases ha hq with hw | hn
      · exact .inl hw
      · cases hn
    | _ => exact absurd hk id

end Step

/-! ## Every run -/

/-- What a thread saw under the mutex is still so while it has the mutex, and a request in the queue
has a worker that is awake, or the owner is about to wake one. -/
structure Awake (c : Config (Option W) (Members W ρ) (Pc ρ)) : Prop where
  owner : ∀ i, (c.pc i).OfOwner ↔ i = none
  mutex : Exclusive Members.mutex Pc.HasMutex c
  recheck : ∀ i, c.pc i = .recheck → c.shared.running = false ∨ c.shared.toProcess ≠ []
  pop : ∀ i, c.pc i = .pop → c.shared.toProcess ≠ []
  sleep : ∀ i, c.pc i = .sleep → c.shared.toProcess = []
  sleeper : ∀ i, i ∈ c.shared.sleepers → c.pc i = .waiting
  done : ∀ i, c.pc i = .done → c.shared.running = false
  awake : c.shared.toProcess ≠ [] → (∃ w, some w ∉ c.shared.sleepers) ∨ c.pc none = .notifyOne

omit [DecidableEq W] in
theorem awake_start : Awake (start : Config (Option W) (Members W ρ) (Pc ρ)) where
  owner i := by cases i <;> simp [start, Pc.OfOwner]
  mutex i := by cases i <;> simp [start, Pc.HasMutex]
  recheck i h := by cases i <;> cases h
  pop i h := by cases i <;> cases h
  sleep i h := by cases i <;> cases h
  sleeper i h := absurd h (Finset.notMem_empty i)
  done i h := by cases i <;> cases h
  awake h := absurd rfl h

theorem awake_step [Nonempty W] (c : Config (Option W) (Members W ρ) (Pc ρ)) (i : Option W)
    (sh : Members W ρ) (k : Pc ρ) (h : Awake c) (hm : Moves i c.shared (c.pc i) sh k) :
    Awake (c.move i sh k) := by
  have hmoved := moves_awake hm (h.sleeper i)
  -- Another thread at the mutex keeps `i` from the queue.
  have hqueue : ∀ j, j ≠ i → (c.pc j).HasMutex → sh.toProcess = c.shared.toProcess :=
    fun j hji hj => moves_queue_eq hm fun hi => hji (h.mutex.unique hj hi)
  refine ⟨?_, h.mutex.move (moves_lock hm (h.mutex i).mp), ?_, ?_, ?_, ?_, ?_, ?_⟩
  · exact forall_move c (P := fun j p => p.OfOwner ↔ j = none) (moves_ofOwner hm (h.owner i))
      fun j _ => h.owner j
  · apply forall_move c (P := fun _ p => p = .recheck → sh.running = false ∨ sh.toProcess ≠ [])
    · rintro rfl
      exact moves_to_recheck hm
    · intro j hji hj
      rw [hqueue j hji (by rw [hj]; trivial)]
      rcases h.recheck j hj with hr | hq
      · exact .inl (moves_running hm hr)
      · exact .inr hq
  · apply forall_move c (P := fun _ p => p = .pop → sh.toProcess ≠ [])
    · rintro rfl
      obtain ⟨rfl, hrecheck, hr⟩ := moves_to_pop hm
      rcases h.recheck i hrecheck with hstop | hq
      · rw [hr] at hstop
        cases hstop
      · exact hq
    · intro j hji hj
      rw [hqueue j hji (by rw [hj]; trivial)]
      exact h.pop j hj
  · apply forall_move c (P := fun _ p => p = .sleep → sh.toProcess = [])
    · rintro rfl
      exact (moves_to_sleep hm).1
    · intro j hji hj
      rw [hqueue j hji (by rw [hj]; trivial)]
      exact h.sleep j hj
  · apply forall_move c (P := fun j p => j ∈ sh.sleepers → p = .waiting)
    · intro hi
      rcases hmoved with hawake | hsleep
      · exact absurd hi hawake
      · rw [hsleep] at hm
        exact (moves_from_sleep hm).2
    · intro j hji hj
      exact h.sleeper j (moves_sleepers_of_ne hm hji hj)
  · apply forall_move c (P := fun _ p => p = .done → sh.running = false)
    · rintro rfl
      exact moves_to_done hm
    · intro j _ hj
      exact moves_running hm (h.done j hj)
  · intro hq
    rw [move_shared] at hq
    cases i with
    | none =>
      rw [move_pc_self, move_shared]
      refine moves_owner_awake hm ((h.owner none).mpr rfl) ?_ h.awake hq
      intro hn
      have howner := (h.owner none).mpr rfl
      rw [h.sleeper none hn] at howner
      exact howner
    | some w =>
      rcases hmoved with hawake | hsleep
      · exact .inl ⟨w, hawake⟩
      · rw [hsleep] at hm
        rw [(moves_from_sleep hm).1] at hq
        exact absurd (h.sleep _ hsleep) hq

theorem awake_run [Nonempty W] {c : Config (Option W) (Members W ρ) (Pc ρ)}
    (h : Reaches Moves start c) : Awake c :=
  Runs.invariant Awake (fun c i sh k hc _ hm => awake_step c i sh k hc hm) h awake_start

/-! ## Who can move -/

theorem mutex_works (i : Option W) (sh : Members W ρ) {k : Pc ρ} (hk : k.HasMutex)
    (howner : k.OfOwner → i = none) (hpop : k = .pop → sh.toProcess ≠ []) :
    ∃ sh' k', Work i sh k sh' k' := by
  cases k with
  | push req =>
    rw [howner trivial]
    exact ⟨_, _, .push⟩
  | notifyOne =>
    rw [howner trivial]
    rcases Finset.eq_empty_or_nonempty sh.sleepers with hs | ⟨j, hj⟩
    · exact ⟨_, _, .notifyNone hs⟩
    · exact ⟨_, _, .notifyOne hj⟩
  | leave =>
    rw [howner trivial]
    exact ⟨_, _, .leave⟩
  | pred =>
    by_cases hq : sh.toProcess = []
    · cases hr : sh.running with
      | true => exact ⟨_, _, .predFalse hr hq⟩
      | false => exact ⟨_, _, .predTrue (.inl hr)⟩
    · exact ⟨_, _, .predTrue (.inr hq)⟩
  | sleep => exact ⟨_, _, .sleep⟩
  | recheck =>
    cases hr : sh.running with
    | true => exact ⟨_, _, .goOn hr⟩
    | false => exact ⟨_, _, .stop hr⟩
  | pop =>
    obtain ⟨req, rest, hq⟩ := List.exists_cons_of_ne_nil (hpop rfl)
    exact ⟨_, _, .pop hq⟩
  | _ => exact absurd hk id

/-- The places where a worker stays until it is notified, or for good. -/
def Resting (i : Option W) (sh : Members W ρ) (k : Pc ρ) : Prop :=
  k = .done ∨ (∃ req, k = .threw req) ∨ (k = .waiting ∧ i ∈ sh.sleepers)

theorem worker_works (i : Option W) (sh : Members W ρ) {k : Pc ρ} (hk : ¬ k.HasMutex)
    (howner : ¬ k.OfOwner) (hfree : sh.mutex = none) :
    Resting i sh k ∨ ∃ sh' k', Work i sh k sh' k' := by
  cases k with
  | test =>
    cases hr : sh.running with
    | true => exact .inr ⟨_, _, .testRunning hr⟩
    | false => exact .inr ⟨_, _, .testStopped hr⟩
  | lock => exact .inr ⟨_, _, .lock hfree⟩
  | waiting =>
    by_cases hi : i ∈ sh.sleepers
    · exact .inl (.inr (.inr ⟨rfl, hi⟩))
    · exact .inr ⟨_, _, .wake hi hfree⟩
  | scan req => exact .inr ⟨_, _, .scan⟩
  | free req => exact .inr ⟨_, _, .free⟩
  | threw req => exact .inl (.inr (.inl ⟨req, rfl⟩))
  | done => exact .inl (.inl rfl)
  | idle | enter _ | dtorNotify | joining => exact absurd trivial howner
  | _ => exact absurd trivial hk

theorem workers_rest {c : Config (Option W) (Members W ρ) (Pc ρ)} (h : Awake c)
    (hno : ∀ w sh k, ¬ Work (some w) c.shared (c.pc (some w)) sh k) (howner : ¬ (c.pc none).HasMutex)
    (w : W) : Resting (some w) c.shared (c.pc (some w)) := by
  have hworker : ∀ v, ¬ (c.pc (some v)).OfOwner := fun v hv => by cases (h.owner _).mp hv
  have hnobody : ∀ v, ¬ (c.pc (some v)).HasMutex := by
    intro v hv
    obtain ⟨sh, k, hw⟩ := mutex_works (some v) c.shared hv (fun ho => absurd ho (hworker v)) (h.pop _)
    exact hno v sh k hw
  have hfree : c.shared.mutex = none := by
    cases ho : c.shared.mutex with
    | none => rfl
    | some i =>
      have hi := (h.mutex i).mpr ho
      cases i with
      | none => exact absurd hi howner
      | some v => exact absurd hi (hnobody v)
  rcases worker_works (some w) c.shared (hnobody w) (hworker w) hfree with hrest | ⟨sh, k, hw⟩
  · exact hrest
  · exact absurd hw (hno w sh k)

/-! ## At rest -/

variable [Fintype W]

/-- When the workers of a running handler have nothing left that they can do, every request of the
calls so far is matched and freed. -/
theorem handler_at_rest_is_done [Nonempty W] (c : Config (Option W) (Members W ρ) (Pc ρ))
    (h : Reaches Moves start c) (hidle : c.pc none = .idle) (hrun : c.shared.running = true)
    (hno : ∀ w sh k, ¬ Work (some w) c.shared (c.pc (some w)) sh k)
    (hthrew : ∀ w req, c.pc (some w) ≠ .threw req) :
    c.shared.toProcess = [] ∧ c.shared.scanned.Perm c.shared.handed ∧
      c.shared.freed.Perm c.shared.handed ∧ ∀ w, c.pc (some w) = .waiting ∧ some w ∈ c.shared.sleepers := by
  have hawake := awake_run h
  have hsleep : ∀ w, c.pc (some w) = .waiting ∧ some w ∈ c.shared.sleepers := by
    intro w
    rcases workers_rest hawake hno (by rw [hidle]; exact id) w with hdone | ⟨req, hreq⟩ | hwait
    · rw [hawake.done _ hdone] at hrun
      cases hrun
    · exact absurd hreq (hthrew w req)
    · exact hwait
  have hempty : c.shared.toProcess = [] := by
    by_contra hq
    rcases hawake.awake hq with ⟨w, hw⟩ | hn
    · exact hw (hsleep w).2
    · rw [hidle] at hn
      cases hn
  have hsum {M : Type} [AddCommMonoid M] (share : Pc ρ → M) (hi : share .idle = 0)
      (hw : share .waiting = 0) : ∑ i, share (c.pc i) = 0 := by
    apply Finset.sum_eq_zero
    rintro (_ | w) -
    · rw [hidle, hi]
    · rw [(hsleep w).1, hw]
  have hkept := Runs.invariant Kept (fun _ _ _ _ hs _ ha => kept_step hs ha) h kept_start
  have hmatched := Runs.invariant Matched (fun _ _ _ _ hs _ ha => matched_step hs ha) h matched_start
  rw [Kept, Threads.Balanced, hsum Pc.held rfl rfl, hempty, add_zero, Multiset.coe_nil, zero_add] at hkept
  rw [Matched, Threads.Balanced, hsum Pc.matched rfl rfl, add_zero] at hmatched
  refine ⟨hempty, Multiset.coe_eq_coe.mp (hmatched.trans hkept.symm), ?_, hsleep⟩
  exact Multiset.coe_eq_coe.mp hkept.symm

end Omnipp.Utils.RegexHandler
