import Mathlib.Algebra.BigOperators.Fin
import Omnipp.Utils.HandlerRuns

/-!
# How a handler ends

The destructor stores `running` and notifies without the mutex. When no worker is on its way to sleep
at that moment, all workers leave, and until then the handler makes a bounded number of steps for
each call.
-/

open Omnipp.Threads

namespace Omnipp.Utils.RegexHandler

variable {W ρ : Type} [DecidableEq W]

/-- `~RegexHandler` calls `notify_all` when no worker is between its predicate and its sleep. -/
def NotifyReady (i : Option W) (c : Config (Option W) (Members W ρ) (Pc ρ)) : Prop :=
  c.pc i = .dtorNotify → ∀ j, c.pc j ≠ .sleep

section Step
variable {i : Option W} {sh sh' : Members W ρ} {k k' : Pc ρ}

/-! ## One step -/

theorem moves_to_stop (h : Moves i sh k sh' k') (hr : sh.running = true) (hr' : sh'.running = false) :
    i = none ∧ k' = .dtorNotify := by
  cases h with
  | spurious _ => simp_all
  | work h =>
    cases h with
    | dtorStore => exact ⟨rfl, rfl⟩
    | _ => simp_all

theorem moves_from_dtorNotify (h : Moves i sh .dtorNotify sh' k') : sh'.sleepers = ∅ := by
  cases h with
  | work h => cases h with
    | dtorNotify => rfl

/-- The destructor does not come back. -/
theorem moves_destroying (h : Moves i sh k sh' k') (hk : k' = .dtorNotify ∨ k' = .joining) :
    sh'.running = false ∨ k = .dtorNotify := by
  cases h with
  | spurious _ => rcases hk with hk | hk <;> cases hk
  | work h =>
    cases h with
    | dtorStore => exact .inl rfl
    | dtorNotify => exact .inr rfl
    | _ => rcases hk with hk | hk <;> cases hk

end Step

/-! ## Every run -/

/-- The owner has told the workers to stop. -/
def Destroying (c : Config (Option W) (Members W ρ) (Pc ρ)) : Prop :=
  c.pc none = .dtorNotify ∨ c.pc none = .joining → c.shared.running = false

theorem destroying_step (c : Config (Option W) (Members W ρ) (Pc ρ)) (i : Option W)
    (sh : Members W ρ) (k : Pc ρ) (h : Destroying c) (hm : Moves i c.shared (c.pc i) sh k) :
    Destroying (c.move i sh k) := by
  intro hpc
  rw [move_shared]
  by_cases hi : i = none
  · subst hi
    rw [move_pc_self] at hpc
    rcases moves_destroying hm hpc with hr | hk
    · exact hr
    · exact moves_running hm (h (.inl hk))
  · rw [move_pc_of_ne c sh k (Ne.symm hi)] at hpc
    exact moves_running hm (h hpc)

theorem destroying_run {c : Config (Option W) (Members W ρ) (Pc ρ)} (h : Reaches Moves start c) :
    Destroying c :=
  Runs.invariant Destroying (fun c i sh k hc _ hm => destroying_step c i sh k hc hm) h
    (by simp [Destroying, start])

/-- After the stop, the owner is about to notify, or nobody sleeps or is about to. -/
def StopInv (c : Config (Option W) (Members W ρ) (Pc ρ)) : Prop :=
  c.shared.running = false →
    c.pc none = .dtorNotify ∨ (c.shared.sleepers = ∅ ∧ ∀ i, c.pc i ≠ .sleep)

theorem stop_inv_step (c : Config (Option W) (Members W ρ) (Pc ρ)) (i : Option W) (sh : Members W ρ)
    (k : Pc ρ) (h : StopInv c) (hg : NotifyReady i c) (hm : Moves i c.shared (c.pc i) sh k) :
    StopInv (c.move i sh k) := by
  intro hr
  rw [move_shared] at hr ⊢
  cases hrun : c.shared.running with
  | true =>
    obtain ⟨rfl, rfl⟩ := moves_to_stop hm hrun hr
    exact .inl (move_pc_self _ _ _ _)
  | false =>
    have hk : k ≠ .sleep := by
      rintro rfl
      simp [(moves_to_sleep hm).2] at hr
    by_cases hi : c.pc i = .dtorNotify
    · -- The notification itself: the guard leaves nobody on the way to sleep.
      refine .inr ⟨?_, forall_move c (P := fun _ p => p ≠ .sleep) hk fun j _ => hg hi j⟩
      rw [hi] at hm
      exact moves_from_dtorNotify hm
    · rcases h hrun with hpc | ⟨hs, hn⟩
      · have hne : none ≠ i := by
          rintro rfl
          exact hi hpc
        exact .inl (by rw [move_pc_of_ne c sh k hne, hpc])
      · refine .inr ⟨?_, forall_move c (P := fun _ p => p ≠ .sleep) hk fun j _ => hn j⟩
        exact Finset.subset_empty.mp (hs ▸ moves_sleepers hm (hn i))

theorem stop_inv_run {c : Config (Option W) (Members W ρ) (Pc ρ)}
    (h : Runs Moves NotifyReady start c) : StopInv c :=
  Runs.invariant StopInv (fun c i sh k hc hg hm => stop_inv_step c i sh k hc hg hm) h
    (by simp [StopInv, start])

/-! ## The end -/

theorem owner_works (sh : Members W ρ) {k : Pc ρ} (hk : k.OfOwner) (hmutex : ¬ k.HasMutex)
    (hfree : sh.mutex = none) : k = .joining ∨ ∃ sh' k', Work none sh k sh' k' := by
  cases k with
  | idle => exact .inr ⟨_, _, .dtorStore⟩
  | enter req => exact .inr ⟨_, _, .enter hfree⟩
  | dtorNotify => exact .inr ⟨_, _, .dtorNotify⟩
  | joining => exact .inl rfl
  | _ => first | exact absurd hk id | exact absurd trivial hmutex

theorem halted_owner {c : Config (Option W) (Members W ρ) (Pc ρ)} (h : Awake c)
    (hno : ∀ i sh k, ¬ Work i c.shared (c.pc i) sh k) : c.pc none = .joining := by
  have hnobody : ∀ i, ¬ (c.pc i).HasMutex := by
    intro i hi
    obtain ⟨sh, k, hw⟩ := mutex_works i c.shared hi (h.owner i).mp (h.pop i)
    exact hno i sh k hw
  have hfree : c.shared.mutex = none := by
    cases ho : c.shared.mutex with
    | none => rfl
    | some i => exact absurd ((h.mutex i).mpr ho) (hnobody i)
  rcases owner_works c.shared ((h.owner none).mpr rfl) (hnobody none) hfree with hj | ⟨sh, k, hw⟩
  · exact hj
  · exact absurd hw (hno none sh k)

/-- A thread that is about to notify is held back only by one that can go to sleep. -/
theorem no_work_of_no_ready_work {c : Config (Option W) (Members W ρ) (Pc ρ)}
    (hno : ∀ i, NotifyReady i c → ∀ sh k, ¬ Work i c.shared (c.pc i) sh k) :
    ∀ i sh k, ¬ Work i c.shared (c.pc i) sh k := by
  have hsleep : ∀ j, c.pc j ≠ .sleep := by
    intro j hj
    have hready : NotifyReady j c := fun hn => by
      rw [hj] at hn
      cases hn
    refine hno j hready { c.shared with mutex := none, sleepers := insert j c.shared.sleepers } .waiting ?_
    rw [hj]
    exact .sleep
  intro i sh k hw
  exact hno i (fun _ => hsleep) sh k hw

/-- When no wakeup is lost, a handler that cannot move any more is destroyed: every worker has
returned or thrown, the owner has nobody left to wait for, and what was matched is freed. -/
theorem destructor_ends_when_nobody_can_move [Fintype W] [Nonempty W]
    (c : Config (Option W) (Members W ρ) (Pc ρ)) (h : Runs Moves NotifyReady start c)
    (hno : ∀ i, NotifyReady i c → ∀ sh k, ¬ Work i c.shared (c.pc i) sh k) :
    c.pc none = .joining ∧ c.shared.scanned.Perm c.shared.freed ∧
      ∀ w, c.pc (some w) = .done ∨ ∃ req, c.pc (some w) = .threw req := by
  have hno := no_work_of_no_ready_work hno
  have hawake := awake_run h.reaches
  have hjoin := halted_owner hawake hno
  have hnosleep : c.shared.sleepers = ∅ := by
    rcases stop_inv_run h (destroying_run h.reaches (.inr hjoin)) with hn | ⟨hs, -⟩
    · rw [hjoin] at hn
      cases hn
    · exact hs
  have hend : ∀ w, c.pc (some w) = .done ∨ ∃ req, c.pc (some w) = .threw req := by
    intro w
    rcases workers_rest hawake (fun w => hno (some w)) (by rw [hjoin]; exact id) w with
      hd | ht | ⟨-, hs⟩
    · exact .inl hd
    · exact .inr ht
    · rw [hnosleep] at hs
      exact absurd hs (Finset.notMem_empty _)
  have hmatched := Runs.invariant Matched (fun _ _ _ _ hs _ ha => matched_step hs ha) h.reaches
    matched_start
  have hzero : ∑ i, (c.pc i).matched = 0 := by
    apply Finset.sum_eq_zero
    rintro (_ | w) -
    · rw [hjoin]
      rfl
    · rcases hend w with hd | ⟨req, ht⟩
      · rw [hd]
        rfl
      · rw [ht]
        rfl
  rw [Matched, Threads.Balanced, hzero, add_zero] at hmatched
  exact ⟨hjoin, Multiset.coe_eq_coe.mp hmatched, hend⟩

/-! ## How long it takes -/

/-- What a thread may do from here, without a further call. A worker sleeps on credit, and a request
in the queue is worth 7. There are `w` threads. -/
def Pc.fuel (w : Nat) : Pc ρ → Nat
  | .idle => 3 * w + 2
  | .enter _ => 3 * w + 16
  | .push _ => 3 * w + 15
  | .notifyOne => 3 * w + 7
  | .leave => 3 * w + 3
  | .dtorNotify => 3 * w + 1
  | .joining | .pop | .threw _ | .done => 0
  | .sleep | .recheck => 1
  | .pred => 2
  | .lock | .waiting => 3
  | .test => 4
  | .free _ => 5
  | .scan _ => 6

/-- A step that is not the start of a call. -/
def Busy : Act (Option W) (Members W ρ) (Pc ρ) :=
  fun i sh k sh' k' => Work i sh k sh' k' ∧ ∀ req, k' ≠ .enter req

/-- What nobody pays for: the start of a call, and a wakeup that nobody sent. -/
inductive Given : Act (Option W) (Members W ρ) (Pc ρ)
  | call {sh} (req : ρ) : Given none sh .idle { sh with handed := sh.handed ++ [req] } (.enter req)
  | spurious {i sh} (h : i ∈ sh.sleepers) :
      Given i sh .waiting { sh with sleepers := sh.sleepers.erase i } .waiting

theorem Busy.moves {i : Option W} {sh sh' : Members W ρ} {k k' : Pc ρ} (h : Busy i sh k sh' k') :
    Moves i sh k sh' k' := .work h.1

theorem Given.moves {i : Option W} {sh sh' : Members W ρ} {k k' : Pc ρ} (h : Given i sh k sh' k') :
    Moves i sh k sh' k' := by
  cases h with
  | call req => exact .work (.call req)
  | spurious hi => exact .spurious hi

theorem moves_busy_or_given {i : Option W} {sh sh' : Members W ρ} {k k' : Pc ρ}
    (h : Moves i sh k sh' k') : Busy i sh k sh' k' ∨ Given i sh k sh' k' := by
  cases h with
  | spurious hi => exact .inr (.spurious hi)
  | work h =>
    cases h with
    | call req => exact .inr (.call req)
    | _ => exact .inl ⟨by constructor <;> assumption, by rintro _ ⟨⟩⟩

theorem given_pays {w : Nat} {i : Option W} {sh sh' : Members W ρ} {k k' : Pc ρ}
    (h : Given i sh k sh' k') :
    7 * sh'.toProcess.length + k'.fuel w + 3 * sh.sleepers.card ≤
      7 * sh.toProcess.length + k.fuel w + 3 * sh'.sleepers.card + 14 := by
  cases h with
  | call req => simp only [Pc.fuel]; omega
  | spurious hi =>
    have hless := Finset.card_erase_add_one hi
    dsimp only
    omega

variable [Fintype W]

theorem busy_pays {w : Nat} {i : Option W} {sh sh' : Members W ρ} {k k' : Pc ρ}
    (h : Busy i sh k sh' k') (hw : Fintype.card (Option W) = w)
    (hs : i ∈ sh.sleepers → k = .waiting) :
    7 * sh'.toProcess.length + k'.fuel w + 1 + 3 * sh.sleepers.card ≤
      7 * sh.toProcess.length + k.fuel w + 3 * sh'.sleepers.card := by
  have hcard : sh.sleepers.card ≤ w := hw ▸ Finset.card_le_univ sh.sleepers
  obtain ⟨h, hne⟩ := h
  cases h with
  | call req => exact absurd rfl (hne req)
  | push => simp only [Pc.fuel, List.length_append, List.length_singleton]; omega
  | notifyOne hj =>
    have hless := Finset.card_erase_add_one hj
    simp only [Pc.fuel]
    omega
  | dtorNotify => simp only [Pc.fuel, Finset.card_empty]; omega
  | sleep =>
    have hi : i ∉ sh.sleepers := fun hi => by cases hs hi
    simp only [Pc.fuel, Finset.card_insert_of_notMem hi]
    omega
  | pop hq => simp only [hq, Pc.fuel, List.length_cons]; omega
  | _ => simp only [Pc.fuel]; omega

def runFuel (c : Config (Option W) (Members W ρ) (Pc ρ)) : Nat :=
  7 * c.shared.toProcess.length + ∑ i, (c.pc i).fuel (Fintype.card (Option W))

omit [DecidableEq W] in
theorem runFuel_start :
    runFuel (start : Config (Option W) (Members W ρ) (Pc ρ)) = 7 * Fintype.card W + 5 := by
  simp only [runFuel, start, Fintype.sum_option, Option.elim_none, Option.elim_some, Pc.fuel,
    List.length_nil, Finset.sum_const, Finset.card_univ, Fintype.card_option, smul_eq_mul]
  omega

theorem runFuel_move (c : Config (Option W) (Members W ρ) (Pc ρ)) (i : Option W) (sh : Members W ρ)
    (k : Pc ρ) :
    runFuel (c.move i sh k) +
        (7 * c.shared.toProcess.length + (c.pc i).fuel (Fintype.card (Option W))) =
      runFuel c + (7 * sh.toProcess.length + k.fuel (Fintype.card (Option W))) := by
  have hsum := sum_move (Pc.fuel (Fintype.card (Option W))) c i sh k
  simp only [runFuel, move_shared]
  omega

/-- However the threads are scheduled, a handler with `w` workers, `q` calls and wakeups that nobody
sent makes no more than `10 * w + 8 + 14 * q` other steps. -/
theorem handler_comes_to_rest [Nonempty W] (c : Config (Option W) (Members W ρ) (Pc ρ))
    (h : Reaches Moves start c) :
    (∃ n q, Counted Busy Given start n q c) ∧
      ∀ n q, Counted Busy Given start n q c → n ≤ 10 * Fintype.card W + 8 + 14 * q := by
  refine ⟨h.counted fun _ _ _ _ _ => moves_busy_or_given, ?_⟩
  intro n q hcount
  have hspent := Counted.spent Awake runFuel (fun c => 3 * c.shared.sleepers.card) 14 ?_ ?_ hcount
    awake_start
  · have hcard : c.shared.sleepers.card ≤ Fintype.card (Option W) := Finset.card_le_univ _
    have hstart : (start : Config (Option W) (Members W ρ) (Pc ρ)).shared.sleepers.card = 0 := rfl
    rw [runFuel_start, hstart] at hspent
    rw [Fintype.card_option] at hcard
    omega
  · intro c i sh k hc ha
    have hpay := busy_pays ha rfl (hc.sleeper i)
    have hmove := runFuel_move c i sh k
    refine ⟨awake_step c i sh k hc ha.moves, ?_⟩
    rw [move_shared]
    omega
  · intro c i sh k hc ha
    have hpay := given_pays (w := Fintype.card (Option W)) ha
    have hmove := runFuel_move c i sh k
    refine ⟨awake_step c i sh k hc ha.moves, ?_⟩
    rw [move_shared]
    omega

/-! ## One worker and one request -/

omit [Fintype W] in
theorem run_quiet {c : Config (Option W) (Members W ρ) (Pc ρ)} (i : Option W) {sh : Members W ρ}
    {k : Pc ρ} (h : Runs Moves NotifyReady start c) (hn : c.pc i ≠ .dtorNotify)
    (ha : Work i c.shared (c.pc i) sh k) : Runs Moves NotifyReady start (c.move i sh k) :=
  h.step i (fun hs => absurd hs hn) (.work ha)

omit [Fintype W] in
theorem sleeper_stays {i : Option W} {sh sh' : Members W ρ} {k' : Pc ρ} (hi : i ∈ sh.sleepers) :
    ¬ Work i sh .waiting sh' k' := by
  rintro ⟨⟩
  contradiction

/-- The worker has matched the request and sleeps. -/
theorem one_request_run : ∃ c : Config (Option (Fin 1)) (Members (Fin 1) Nat) (Pc Nat),
    Runs Moves NotifyReady start c ∧ c.pc none = .idle ∧ c.shared.running = true ∧
      c.shared.handed = [7] ∧ c.shared.mutex = none ∧ c.shared.sleepers = {some 0} ∧
      ∀ w, c.pc (some w) = .waiting := by
  have h : Runs Moves NotifyReady start
    (start : Config (Option (Fin 1)) (Members (Fin 1) Nat) (Pc Nat)) := .refl
  have h := run_quiet none h (by rintro ⟨⟩) (.call 7)
  have h := run_quiet none h (by rintro ⟨⟩) (.enter rfl)
  have h := run_quiet none h (by rintro ⟨⟩) .push
  have h := run_quiet none h (by rintro ⟨⟩) (.notifyNone rfl)
  have h := run_quiet none h (by rintro ⟨⟩) .leave
  have h := run_quiet (some 0) h (by rintro ⟨⟩) (.testRunning rfl)
  have h := run_quiet (some 0) h (by rintro ⟨⟩) (.lock rfl)
  have h := run_quiet (some 0) h (by rintro ⟨⟩) (.predTrue (.inr (List.cons_ne_nil _ _)))
  have h := run_quiet (some 0) h (by rintro ⟨⟩) (.goOn rfl)
  have h := run_quiet (some 0) h (by rintro ⟨⟩) (.pop rfl)
  have h := run_quiet (some 0) h (by rintro ⟨⟩) .scan
  have h := run_quiet (some 0) h (by rintro ⟨⟩) .free
  have h := run_quiet (some 0) h (by rintro ⟨⟩) (.testRunning rfl)
  have h := run_quiet (some 0) h (by rintro ⟨⟩) (.lock rfl)
  have h := run_quiet (some 0) h (by rintro ⟨⟩) (.predFalse rfl rfl)
  have h := run_quiet (some 0) h (by rintro ⟨⟩) .sleep
  exact ⟨_, h, rfl, rfl, rfl, rfl, rfl, Fin.forall_fin_one.mpr rfl⟩

theorem handler_at_rest_with_one_request :
    ∃ c : Config (Option (Fin 1)) (Members (Fin 1) Nat) (Pc Nat),
      Reaches Moves start c ∧ c.shared.handed = [7] ∧ c.shared.scanned.Perm c.shared.handed := by
  obtain ⟨c, h, hidle, hrun, hhanded, -, hsleepers, hwait⟩ := one_request_run
  refine ⟨c, h.reaches, hhanded, (handler_at_rest_is_done c h.reaches hidle hrun ?_ ?_).2.1⟩
  · intro w sh k
    rw [hwait w]
    exact sleeper_stays (by rw [hsleepers, Subsingleton.elim w 0]; exact Finset.mem_singleton_self _)
  · intro w req
    rw [hwait w]
    rintro ⟨⟩

theorem handler_comes_to_rest_after_one_request :
    ∃ c : Config (Option (Fin 1)) (Members (Fin 1) Nat) (Pc Nat),
      Reaches Moves start c ∧ c.shared.handed = [7] ∧
        ∀ n q, Counted Busy Given start n q c → n ≤ 18 + 14 * q := by
  obtain ⟨c, h, -, -, hhanded, -⟩ := one_request_run
  exact ⟨c, h.reaches, hhanded, (handler_comes_to_rest c h.reaches).2⟩

/-- The owner destroys the handler while the worker sleeps. -/
theorem destructor_ends_after_one_request :
    ∃ c : Config (Option (Fin 1)) (Members (Fin 1) Nat) (Pc Nat),
      Runs Moves NotifyReady start c ∧ c.pc none = .joining ∧ c.pc (some 0) = .done := by
  obtain ⟨c, h, hidle, hrun, -, hmutex, hsleepers, hwait⟩ := one_request_run
  have h := run_quiet none h (by rw [hidle]; rintro ⟨⟩) (by rw [hidle]; exact .dtorStore)
  have h := h.step none (fun _ => Option.forall.mpr ⟨by simp, by simp [move_pc_of_ne, hwait]⟩)
    (by rw [move_pc_self]; exact .work .dtorNotify)
  have h := run_quiet (some 0) h (by simp [move_pc_of_ne, hwait])
    (by simp only [move_pc_of_ne, hwait, ne_eq, reduceCtorEq, not_false_eq_true]
        exact .wake (Finset.notMem_empty _) hmutex)
  have h := run_quiet (some 0) h (by simp) (by rw [move_pc_self]; exact .predTrue (.inl rfl))
  have h := run_quiet (some 0) h (by simp) (by rw [move_pc_self]; exact .stop rfl)
  have hend := destructor_ends_when_nobody_can_move _ h ?_
  · exact ⟨_, h, hend.1, move_pc_self _ _ _ _⟩
  · refine Option.forall.mpr ⟨?_, Fin.forall_fin_one.mpr ?_⟩
    · intro _ sh k
      simp only [move_pc_of_ne, move_pc_self, ne_eq, reduceCtorEq, not_false_eq_true]
      rintro ⟨⟩
    · intro _ sh k
      rw [move_pc_self]
      rintro ⟨⟩

end Omnipp.Utils.RegexHandler
