import Omnipp.Utils.Owners
import Omnipp.Utils.Play

/-! # How often a completion is handled

The completions are numbered in the order in which the kernel posts them. The number of the one at
place `i` of the completion queue is `i` more than the number of those that
`io_uring_cq_advance` has passed.
-/

open Omnipp.History

namespace Omnipp.Utils

/-- The completions passed by `io_uring_cq_advance`, and the numbers of those that were handled. -/
structure Served where
  passed : Nat
  handled : List Nat

def Served.tick (v : Served) (x : Moment × Act) : Served :=
  match x.2, x.1.spot with
  | .handle _ _, .phase (.reap count) => { v with handled := v.handled ++ [v.passed + count] }
  | .advance, .phase (.reap count) => { v with passed := v.passed + count }
  | _, _ => v

def served (past : List (Moment × Act)) : Served := past.foldl Served.tick ⟨0, []⟩

/-- No completion is handled twice. Outside `pump`, those that were handled are consumed from the ring.
No object is free twice. -/
structure AtMostOnce (past : List (Moment × Act)) (s : Moment) : Prop where
  nodup : (served past).handled.Nodup
  consumed : s.spot.Outside → ∀ i ∈ (served past).handled, i < (served past).passed
  openats : (s.ev.openats.freeList ++ s.ev.openats.extraFree).Nodup
  closes : (s.ev.closes.freeList ++ s.ev.closes.extraFree).Nodup
  reads : (s.ev.reads.freeList ++ s.ev.reads.extraFree).Nodup
  writes : (s.ev.writes.freeList ++ s.ev.writes.extraFree).Nodup

/-- `read_handler_` fails. -/
def Act.Fails (a : Act) : Prop := ∃ error, a = .handlerFails error

theorem served_snoc (past : List (Moment × Act)) (x : Moment × Act) :
    served (past ++ [x]) = (served past).tick x := by
  simp [served]

/-! ## Inside a batch -/

/-- The completions of the batch that were handled already. -/
def Spot.begun : Spot → Nat
  | .phase p => p.handled
  | .handling count _ _ _ => count + 1
  | .aborted count _ => count

theorem begun_of_outside {spot : Spot} (h : spot.Outside) :
    spot.begun = 0 ∨ ∃ count e, spot = .aborted count e := by
  rcases h.split with ⟨last, rfl⟩ | habort
  · exact .inl rfl
  · exact .inr habort

/-- What one step does to the numbers. -/
theorem served_step (past : List (Moment × Act)) {s t : Moment} {a : Act} (hd : Does s a t)
    (hre : ¬ Reenters s a) :
    (∃ count, s.spot.begun = count ∧ t.spot.begun = count + 1 ∧
        served (past ++ [(s, a)]) =
          { served past with handled := (served past).handled ++ [(served past).passed + count] }) ∨
      (t.spot.begun = 0 ∧ served (past ++ [(s, a)]) =
        { served past with passed := (served past).passed + s.spot.begun }) ∨
      (t.spot.begun = s.spot.begun ∧ served (past ++ [(s, a)]) = served past) := by
  rw [served_snoc]
  cases hd with
  | @handle count sqe res hp hcq =>
    refine .inl ⟨count, by rw [hp]; rfl, rfl, ?_⟩
    simp only [Served.tick, hp]
  | @advance count hp hend =>
    refine .inr (.inl ⟨rfl, ?_⟩)
    simp only [Served.tick, hp]
    rfl
  | enter hp =>
    refine .inr (.inr ⟨?_, rfl⟩)
    rcases begun_of_outside hp with h0 | habort
    · exact h0.symm
    · exact absurd ⟨rfl, habort⟩ hre
  | call c hp hc | pop hp hc | complete res hk | freeRead slot hslot =>
    exact .inr (.inr ⟨rfl, rfl⟩)
  | handlerFails error hp hpos | handled hp hc | swap hp | list hp | listed hp hc | listedAll hp
  | popped hp hc | drain hp | drained hp | exit hp hzero | goOn hp hne | submitFails errno hp
  | submit hp | peek hp hne | sleep hp hnil | wake hp hne =>
    exact .inr (.inr ⟨by rw [hp]; rfl, rfl⟩)

/-- The numbers so far are below that of the next completion of the batch. -/
def InOrder (past : List (Moment × Act)) (s : Moment) : Prop :=
  (served past).handled.Nodup ∧
    ∀ i ∈ (served past).handled, i < (served past).passed + s.spot.begun

theorem inOrder_step {past : List (Moment × Act)} {s t : Moment} {a : Act} (h : InOrder past s)
    (hd : Does s a t) (hre : ¬ Reenters s a) : InOrder (past ++ [(s, a)]) t := by
  obtain ⟨hnodup, hlt⟩ := h
  rcases served_step past hd hre with ⟨count, hs, ht, hserved⟩ | ⟨ht, hserved⟩ | ⟨ht, hserved⟩
  · rw [InOrder, hserved, ht]
    rw [hs] at hlt
    refine ⟨List.nodup_append.mpr ⟨hnodup, List.nodup_singleton _, ?_⟩, ?_⟩
    · intro i hi j hj
      rw [List.mem_singleton.mp hj]
      exact Nat.ne_of_lt (hlt i hi)
    · intro i hi
      rcases List.mem_append.mp hi with hi | hi
      · exact Nat.lt_succ_of_lt (hlt i hi)
      · rw [List.mem_singleton.mp hi]
        exact Nat.lt_succ_self _
  · rw [InOrder, hserved, ht]
    exact ⟨hnodup, hlt⟩
  · rw [InOrder, hserved, ht]
    exact ⟨hnodup, hlt⟩

/-! ## Who is in a handler -/

/-- A step that ends in a handler began there, or begins it. -/
theorem handling_step (past : List (Moment × Act)) {s t : Moment} {a : Act} (hd : Does s a t)
    {count : Nat} {sqe : Sqe} {res : Int} {op : Op} (ht : t.spot = .handling count sqe res op) :
    (s.spot = .handling count sqe res op ∧ served (past ++ [(s, a)]) = served past) ∨
      served (past ++ [(s, a)]) =
        { served past with handled := (served past).handled ++ [(served past).passed + count] } := by
  rw [served_snoc]
  cases hd with
  | handle hp hcq =>
    cases ht
    right
    simp only [Served.tick, hp]
  | call c hp hc | pop hp hc | complete res hk | freeRead slot hslot =>
    exact .inl ⟨ht, rfl⟩
  | _ => cases ht

theorem begun_of_run {ok : Moment → Act → Prop} {a s : Moment} {past : List (Moment × Act)}
    (h : Run Does ok a past s) (ha : ∀ count sqe res op, a.spot ≠ .handling count sqe res op)
    {count : Nat} {sqe : Sqe} {res : Int} {op : Op} (hs : s.spot = .handling count sqe res op) :
    (served past).passed + count ∈ (served past).handled := by
  induction h with
  | nil => exact absurd hs (ha _ _ _ _)
  | snoc _ _ hd ih =>
    rcases handling_step _ hd hs with ⟨hsame, hserved⟩ | hserved
    · rw [hserved]
      exact ih hsame
    · rw [hserved]
      simp

theorem aborted_step {s t : Moment} {a : Act} (hd : Does s a t) {count : Nat} {e : String}
    (ht : t.spot = .aborted count e) : s.spot = .aborted count e ∨ a.Fails := by
  cases hd with
  | handlerFails error hp hpos => exact .inr ⟨error, rfl⟩
  | call c hp hc | pop hp hc | complete res hk | freeRead slot hslot =>
    exact .inl ht
  | _ => cases ht

theorem not_aborted_of_run {ok : Moment → Act → Prop} {a s : Moment} {past : List (Moment × Act)}
    (h : Run Does ok a past s) (hok : ∀ s a, ok s a → ¬ a.Fails)
    (ha : ∀ count e, a.spot ≠ .aborted count e) (count : Nat) (e : String) :
    s.spot ≠ .aborted count e := by
  refine h.keeps (fun s => ∀ count e, s.spot ≠ .aborted count e) ha ?_ count e
  intro s a t hs hallowed hd count e ht
  rcases aborted_step hd ht with habort | hfails
  · exact hs count e habort
  · exact hok s a hallowed hfails

theorem run_without_reentry {ok : Moment → Act → Prop} {entries size : Nat}
    {past : List (Moment × Act)} {s : Moment} (h : Run Does ok (Moment.fresh entries size) past s)
    (hok : ∀ s a, ok s a → ¬ a.Fails) :
    Run Does (fun s a => ¬ Reenters s a) (Moment.fresh entries size) past s := by
  induction h with
  | nil => exact .nil
  | snoc h ha hd ih =>
    refine .snoc ih ?_ hd
    rintro ⟨-, count, e, habort⟩
    exact not_aborted_of_run h hok (a := Moment.fresh entries size) nofun count e habort

/-! ## The result -/

theorem RequestPool.Owned.free_nodup {ρ : Type} {p : RequestPool ρ} {op : Op} {out : Slot → Nat}
    (h : p.Owned op out) : (p.freeList ++ p.extraFree).Nodup := by
  rw [List.nodup_iff_count_le_one]
  intro slot
  have hle := h.stored_le slot
  rw [List.count_append]
  unfold RequestPool.stored at hle
  omega

/-- While `read_handler_` does not fail, no completion is handled twice and no request freed twice. When
it fails, the completions before it in the batch, and its own, stay in the ring. -/
theorem completions_are_handled_at_most_once (entries size : Nat) :
    (∀ past s, Run Does (fun _ a => ¬ a.Fails) (Moment.fresh entries size) past s → AtMostOnce past s) ∧
    ∀ past s error t, Run Does (fun _ _ => True) (Moment.fresh entries size) past s →
      Does s (.handlerFails error) t → ¬ AtMostOnce (past ++ [(s, .handlerFails error)]) t := by
  constructor
  · intro past s h
    have hno := not_aborted_of_run h (fun _ _ => id) (a := Moment.fresh entries size) nofun
    have hrun := run_without_reentry h fun _ _ => id
    have horder : InOrder past s :=
      hrun.invariant InOrder ⟨List.nodup_nil, nofun⟩ fun _ _ _ _ _ hin hre hd => inOrder_step hin hd hre
    obtain ⟨lost, hsound⟩ := (Moment.owns_of_run hrun fun _ _ => id).sound
    refine ⟨horder.1, fun hout i hi => ?_, hsound.openats.owned.free_nodup,
      hsound.closes.owned.free_nodup, hsound.reads.owned.free_nodup, hsound.writes.owned.free_nodup⟩
    have hlt := horder.2 i hi
    rcases begun_of_outside hout with h0 | ⟨count, e, habort⟩
    · rwa [h0] at hlt
    · exact absurd habort (hno count e)
  · intro past s error t h hd honce
    cases hd with
    | handlerFails _ hp hpos =>
      have hmem := begun_of_run h nofun hp
      have hserved : served (past ++ [(s, .handlerFails error)]) = served past := by
        rw [served_snoc]
        rfl
      have hconsumed := honce.consumed trivial
      rw [hserved] at hconsumed
      exact absurd (hconsumed _ hmem) (by omega)

/-- `queue_close(9)`, `queue_read(4)`, `queue_read(3)` and `pump`, in which the close and the first read
complete. The close is handled. -/
def closeThenRead : List Move :=
  [.call (.close 9), .call (.read 4 0), .call (.read 3 0)] ++ List.replicate 7 Move.pump ++
    [.complete 0 0, .complete 0 10] ++ List.replicate 4 Move.pump

instance (a : Act) : Decidable a.Fails :=
  match a with
  | .handlerFails error => .isTrue ⟨error, rfl⟩
  | .call _ | .enter | .swap | .list _ | .listed _ | .listedAll | .pop | .popped | .drain _ | .drained
  | .exit | .goOn | .submitFails _ | .submit | .peek | .sleep | .wake | .handle _ _ | .handled _ _
  | .advance | .complete _ _ | .freeRead _ => .isFalse fun ⟨_, h⟩ => Act.noConfusion h

/-- Both completions are handled, and `read_handler_` is about to return. -/
theorem completions_are_handled_at_most_once_in_a_batch :
    ∃ past s, Run Does (fun _ a => ¬ a.Fails) (Moment.fresh 4096 4096) past s ∧
      (served past).handled = [0, 1] ∧ AtMostOnce past s := by
  have hplay : ∃ r ∈ (Moment.fresh 4096 4096).playAll closeThenRead,
      (served r.1).handled = [0, 1] ∧ ∀ x ∈ r.1, ¬ x.2.Fails := by
    decide +kernel
  obtain ⟨past, s, hrun, hserved, -⟩ :=
    Moment.run_of_play (fun _ a => ¬ a.Fails) hplay fun r hr => hr.2
  exact ⟨past, s, hrun, hserved, (completions_are_handled_at_most_once 4096 4096).1 past s hrun⟩

/-- Now `read_handler_` fails, and `pump` is called again. It handles the close once more, and the
close request is free twice. -/
theorem failed_handler_repeats_a_completion :
    ∃ past s, Run Does (fun _ _ => True) (Moment.fresh 4096 4096) past s ∧
      (served past).handled = [0, 1, 0] ∧ s.ev.closes.freeList.count (.pool 4095) = 2 ∧
      ¬ AtMostOnce past s := by
  have hplay : ∃ r ∈ (Moment.fresh 4096 4096).playAll
      (closeThenRead ++ [.fail "disk full"] ++ List.replicate 10 Move.pump),
      (served r.1).handled = [0, 1, 0] ∧ r.2.ev.closes.freeList.count (.pool 4095) = 2 := by
    decide +kernel
  obtain ⟨past, s, hrun, hserved, hfree⟩ :=
    Moment.run_of_play (fun _ _ => True) hplay fun _ _ _ _ => trivial
  refine ⟨past, s, hrun, hserved, hfree, fun honce => ?_⟩
  have := honce.nodup
  rw [hserved] at this
  exact absurd this (by decide)

end Omnipp.Utils
