import Omnipp.Utils.Fine

/-! # The loop as a program

What the thread in `pump` does next is fixed by where it stands, so a run is given by what the others
do: the calls, the completions and the frees.
-/

open Omnipp.History Function

namespace Omnipp.Utils

inductive Move where
  -- The next step of `pump`. In a handler, it returns.
  | pump
  | call (c : EventLoop.Call)
  | fail (error : String)
  | submitFail (errno : Nat)
  -- The kernel completes its request number `i`.
  | complete (i : Nat) (res : Int)
  | free (slot : Slot)

instance (spot : Spot) : Decidable spot.UserCode :=
  match spot with
  | .phase (.outside _) | .phase (.inListing _ _) | .aborted _ _ => .isTrue trivial
  | .handling _ _ res op => inferInstanceAs (Decidable (op.Handles res))
  | .phase .top | .phase (.listing _) | .phase .overflow | .phase (.drain _) | .phase .check
  | .phase .submit | .phase .peek | .phase .wait | .phase (.reap _) => .isFalse id

/-- The next step of the thread in `pump`. -/
def Moment.pump (s : Moment) : Option (Act × Moment) :=
  match s.spot with
  | .phase (.outside _) | .aborted _ _ => some (.enter, { s with spot := .phase .top })
  | .phase .top =>
    some (.swap, { s with ev := { s.ev with getdentsQueue := [] }
                          spot := .phase (.listing s.ev.getdentsQueue) })
  | .phase (.listing []) => some (.listedAll, { s with spot := .phase .overflow })
  | .phase (.listing (fd :: todo)) =>
    some (.list fd, { s with ev := { s.ev with dirRefCount := update s.ev.dirRefCount fd (some 1) }
                             spot := .phase (.inListing fd todo) })
  | .phase (.inListing fd todo) =>
    (s.ev.decreaseDirRef fd).map fun ev => (.listed fd, { s with ev, spot := .phase (.listing todo) })
  | .phase .overflow =>
    match s.ev.popOverflow with
    | (true, ev) => some (.pop, { s with ev })
    | (false, ev) =>
      some (.popped, { s with ev := { ev with readFreeQueue := [] }
                              spot := .phase (.drain ev.readFreeQueue) })
  | .phase (.drain []) => some (.drained, { s with spot := .phase .check })
  | .phase (.drain (slot :: todo)) =>
    some (.drain slot, { s with ev := s.ev.drainRead slot, spot := .phase (.drain todo) })
  | .phase .check =>
    if s.ev.ring.inFlight = 0 then some (.exit, { s with spot := .phase (.outside (.ok ())) })
    else some (.goOn, { s with spot := .phase .submit })
  | .phase .submit =>
    some (.submit, { s with ev := { s.ev with ring := s.ev.ring.submitted }, spot := .phase .peek })
  | .phase .peek =>
    match s.ev.ring.cq with
    | [] => some (.sleep, { s with spot := .phase .wait })
    | _ :: _ => some (.peek, { s with spot := .phase (.reap 0) })
  | .phase .wait =>
    match s.ev.ring.cq with
    | [] => none
    | _ :: _ => some (.wake, { s with spot := .phase (.reap 0) })
  | .phase (.reap count) =>
    match s.ev.ring.cq[count]? with
    | none =>
      some (.advance, { s with ev := { s.ev with ring := { s.ev.ring with cq := s.ev.ring.cq.drop count } }
                               spot := .phase .top })
    | some (sqe, res) =>
      some (.handle sqe res,
        { ev := s.ev.before (s.ev.opOf sqe.data) sqe.data.slot res
          spot := .handling count sqe res (s.ev.opOf sqe.data)
          handed := s.handed ++ s.ev.handedBy sqe.data res })
  | .handling count sqe res op =>
    (s.ev.behind op sqe.data.slot res).map fun ev =>
      (.handled sqe res, { s with ev, spot := .phase (.reap (count + 1)) })

/-- What the others do. -/
def Moment.play (s : Moment) : Move → Option (Act × Moment)
  | .pump => s.pump
  | .call c => if s.spot.UserCode then (s.ev.call c).map fun ev => (.call c, { s with ev }) else none
  | .fail error =>
    match s.spot with
    | .handling count _ res .read =>
      if 0 < res then some (.handlerFails error, { s with spot := .aborted (count + 1) error }) else none
    | _ => none
  | .submitFail errno =>
    match s.spot with
    | .phase .submit =>
      some (.submitFails errno,
        { s with spot := .phase (.outside (.error s!"failed to submit pending requests: {errno}")) })
    | _ => none
  | .complete i res =>
    match s.ev.ring.kernel.drop i with
    | [] => none
    | sqe :: behind =>
      some (.complete sqe res, { s with ev := { s.ev with ring := { s.ev.ring with
        kernel := s.ev.ring.kernel.take i ++ behind, cq := s.ev.ring.cq ++ [(sqe, res)] } } })
  | .free slot =>
    if slot ∈ s.handed then
      some (.freeRead slot, { s with ev := { s.ev with readFreeQueue := s.ev.readFreeQueue ++ [slot] }
                                     handed := s.handed.erase slot })
    else none

theorem Moment.pump_does {s t : Moment} {a : Act} (h : s.pump = some (a, t)) : Does s a t := by
  unfold Moment.pump at h
  split at h
  · rename_i hp
    cases h
    exact .enter (by rw [hp]; trivial)
  · rename_i hp
    cases h
    exact .enter (by rw [hp]; trivial)
  · rename_i hp
    cases h
    exact .swap hp
  · rename_i hp
    cases h
    exact .listedAll hp
  · rename_i hp
    cases h
    exact .list hp
  · rename_i hp
    simp only [Option.map_eq_some_iff, Prod.mk.injEq] at h
    obtain ⟨ev, hc, rfl, rfl⟩ := h
    exact .listed hp hc
  · rename_i hp
    split at h
    · rename_i hc
      cases h
      exact .pop hp hc
    · rename_i hc
      cases h
      exact .popped hp hc
  · rename_i hp
    cases h
    exact .drained hp
  · rename_i hp
    cases h
    exact .drain hp
  · rename_i hp
    split at h
    · rename_i hzero
      cases h
      exact .exit hp hzero
    · rename_i hne
      cases h
      exact .goOn hp hne
  · rename_i hp
    cases h
    exact .submit hp
  · rename_i hp
    split at h
    · rename_i hnil
      cases h
      exact .sleep hp hnil
    · rename_i hcons
      cases h
      exact .peek hp (by rw [hcons]; exact List.cons_ne_nil _ _)
  · rename_i hp
    split at h
    · cases h
    · rename_i hcons
      cases h
      exact .wake hp (by rw [hcons]; exact List.cons_ne_nil _ _)
  · rename_i hp
    split at h
    · rename_i hend
      cases h
      exact .advance hp hend
    · rename_i hcq
      cases h
      exact .handle hp hcq
  · rename_i hp
    simp only [Option.map_eq_some_iff, Prod.mk.injEq] at h
    obtain ⟨ev, hc, rfl, rfl⟩ := h
    exact .handled hp hc

theorem Moment.play_does {s t : Moment} {m : Move} {a : Act} (h : s.play m = some (a, t)) : Does s a t := by
  cases m with
  | pump => exact Moment.pump_does h
  | call c =>
    simp only [Moment.play] at h
    split at h
    · rename_i huser
      simp only [Option.map_eq_some_iff, Prod.mk.injEq] at h
      obtain ⟨ev, hc, rfl, rfl⟩ := h
      exact .call c huser hc
    · cases h
  | fail error =>
    simp only [Moment.play] at h
    split at h
    · rename_i hp
      split at h
      · rename_i hpos
        cases h
        exact .handlerFails error hp hpos
      · cases h
    · cases h
  | submitFail errno =>
    simp only [Moment.play] at h
    split at h
    · rename_i hp
      cases h
      exact .submitFails errno hp
    · cases h
  | complete i res =>
    simp only [Moment.play] at h
    split at h
    · cases h
    · rename_i sqe behind hdrop
      cases h
      exact .complete res (by rw [← hdrop, List.take_append_drop])
  | free slot =>
    simp only [Moment.play] at h
    split at h
    · rename_i hslot
      cases h
      exact .freeRead slot hslot
    · cases h

/-- A run, with its history. -/
def Moment.playAll (s : Moment) : List Move → Option (List (Moment × Act) × Moment)
  | [] => some ([], s)
  | m :: moves =>
    match s.play m with
    | none => none
    | some (a, t) => (t.playAll moves).map fun r => ((s, a) :: r.1, r.2)

theorem Moment.playAll_run {ok : Moment → Act → Prop} {s t : Moment} {moves : List Move}
    {past : List (Moment × Act)} (h : s.playAll moves = some (past, t))
    (hok : ∀ x ∈ past, ok x.1 x.2) : Run Does ok s past t := by
  induction moves generalizing s past with
  | nil =>
    cases h
    exact .nil
  | cons m moves ih =>
    simp only [Moment.playAll] at h
    split at h
    · cases h
    · rename_i a u hplay
      simp only [Option.map_eq_some_iff, Prod.mk.injEq] at h
      obtain ⟨⟨rest, v⟩, hrest, rfl, rfl⟩ := h
      have hfirst : Run Does ok s [(s, a)] u :=
        Run.snoc .nil (hok _ List.mem_cons_self) (Moment.play_does hplay)
      exact hfirst.trans (ih hrest fun x hx => hok x (List.mem_cons_of_mem _ hx))

/-- A run that was computed, and what was found of it. -/
theorem Moment.run_of_play (ok : Moment → Act → Prop) {s : Moment} {moves : List Move}
    {P : List (Moment × Act) × Moment → Prop} (h : ∃ r ∈ s.playAll moves, P r)
    (hok : ∀ r, P r → ∀ x ∈ r.1, ok x.1 x.2) : ∃ past t, Run Does ok s past t ∧ P (past, t) := by
  obtain ⟨⟨past, t⟩, hplay, hP⟩ := h
  exact ⟨past, t, Moment.playAll_run hplay (hok _ hP), hP⟩

end Omnipp.Utils
