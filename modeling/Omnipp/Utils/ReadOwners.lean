import Omnipp.Utils.Completions
import Omnipp.Utils.RegexHandler

/-! # Who has a read buffer

The loop, with a `RegexHandler` as its `read_handler_`. A request goes from `pump` to `to_process`, to
one of the workers, to `read_free_queue_` and back to the pool.
-/

open Function Omnipp.History Omnipp.Threads

namespace Omnipp.Utils

/-! ## A request that is out -/

section Steps
variable {s t : Moment} {a : Act}

theorem EventLoop.handRead_objects (ev : EventLoop) {slot x : Slot} (res : Int) (h : x ≠ slot) :
    (ev.handRead slot res).reads.objects x = ev.reads.objects x := update_of_ne h _ _

/-- A request in the ring is not out at the same time. -/
theorem Moment.Owns.outside_eq_zero (h : s.Owns) {e : Sqe} (he : e ∈ s.ev.ring.entriesWith s.held)
    (hread : e.data.home = .read) : s.outside e.data.slot = 0 := by
  obtain ⟨lost, hsound⟩ := h.sound
  have hle := hsound.reads.owned.stored_le e.data.slot
  have hpos := tally_pos he
  rw [hread] at hpos
  omega

/-- `pump` writes to the request of a completion only, before it calls the handler. -/
theorem Moment.Owns.before_objects (h : s.Owns) {count : Nat} {sqe : Sqe} {res : Int}
    (hp : s.spot = .phase (.reap count)) (hcq : s.ev.ring.cq[count]? = some (sqe, res)) {slot : Slot}
    (hout : 0 < s.outside slot) :
    (s.ev.before (s.ev.opOf sqe.data) sqe.data.slot res).reads.objects slot =
      s.ev.reads.objects slot := by
  have hgone := Moment.gone_reap hp
  unfold EventLoop.before
  split
  · rename_i hread
    refine EventLoop.handRead_objects _ _ fun heq => ?_
    have hmem := Moment.mem_entries_of_cqe hgone hcq
    have hzero := h.outside_eq_zero hmem ((h.opOf hgone hcq).symm.trans hread.1)
    rw [← heq] at hzero
    omega
  · rfl

/-- Behind the handler, a request that is out stays out. -/
theorem Moment.Owns.behind_objects (h : s.Owns) {count : Nat} {sqe : Sqe} {res : Int} {op : Op}
    {ev : EventLoop} (hp : s.spot = .handling count sqe res op)
    (hc : s.ev.behind op sqe.data.slot res = some ev) {slot : Slot} (hout : 0 < s.outside slot) :
    ev.readFreeQueue = s.ev.readFreeQueue ∧ ev.reads.objects slot = s.ev.reads.objects slot := by
  obtain ⟨lost, hsound⟩ := h.sound
  have haway : 0 < s.outside slot + lost slot := Nat.add_pos_left hout _
  obtain ⟨hcq, rfl⟩ := h.cqe _ _ _ _ hp
  by_cases hread : sqe.data.home = .read ∧ 0 < res
  · rw [hread.1] at hc
    have hq := hsound.behind_handed hread.2 hc
    exact ⟨hq.frees, hq.reads slot haway⟩
  · have hheld : s.held = ↑((s.ev.ring.cq.drop (count + 1)).map Prod.fst) + {sqe} := by
      simp only [Moment.held, hp, Spot.gone, if_neg hread]
      exact Moment.held_of_cqe hcq
    rw [hheld] at hsound
    have hq := hsound.behind hread hc
    refine ⟨hq.frees, hq.reads slot ?_⟩
    split
    · exact Nat.add_pos_left haway _
    · exact haway

/-- While a request is out, nothing is done to it, until `pump` takes it from the free queue. -/
theorem outside_step (h : s.Owns) (hd : Does s a t) {slot : Slot} (hout : 0 < s.outside slot)
    (ha : a ≠ .drain slot) :
    0 < t.outside slot ∧ t.ev.reads.objects slot = s.ev.reads.objects slot := by
  obtain ⟨lost, hsound⟩ := h.sound
  have haway : 0 < s.outside slot + lost slot := Nat.add_pos_left hout _
  -- Nothing was done to the lists that hold it.
  have same (hhanded : t.handed = s.handed) (hfrees : t.ev.readFreeQueue = s.ev.readFreeQueue)
      (htodo : t.spot.todo = s.spot.todo) (hobj : t.ev.reads.objects slot = s.ev.reads.objects slot) :
      0 < t.outside slot ∧ t.ev.reads.objects slot = s.ev.reads.objects slot := by
    rw [Moment.outside, hhanded, hfrees, htodo]
    exact ⟨hout, hobj⟩
  cases hd with
  | call c hp hc =>
    have hq := hsound.call hc
    exact same rfl hq.frees rfl (hq.reads slot haway)
  | enter hp =>
    exact same rfl rfl hp.todo_nil.symm rfl
  | swap hp => exact same rfl rfl (by rw [hp]; rfl) rfl
  | list hp => exact same rfl rfl (by rw [hp]; rfl) rfl
  | listed hp hc =>
    have hq := hsound.decreaseDirRef hc
    exact same rfl hq.frees (by rw [hp]; rfl) (hq.reads slot haway)
  | listedAll hp => exact same rfl rfl (by rw [hp]; rfl) rfl
  | pop hp hc =>
    have hq := hsound.popOverflow hc
    exact same rfl hq.frees rfl (hq.reads slot haway)
  | popped hp hc =>
    have hq := hsound.popOverflow hc
    refine ⟨?_, hq.reads slot haway⟩
    rw [Moment.outside, hp] at hout
    rw [Moment.outside]
    simp only [Spot.todo, hq.frees, List.count_nil] at hout ⊢
    omega
  | @drain x todo hp =>
    have hne : x ≠ slot := fun heq => ha (by rw [heq])
    refine ⟨?_, ?_⟩
    · rw [Moment.outside, hp] at hout
      rw [Moment.outside]
      simp only [Spot.todo, RequestPool.count_cons_eq, if_neg hne.symm] at hout ⊢
      exact hout
    · simp only [EventLoop.drainRead, RequestPool.free_objects]
  | drained hp | exit hp hzero | goOn hp hne | submitFails errno hp | submit hp | peek hp hne
  | sleep hp hnil | wake hp hne =>
    exact same rfl rfl (by rw [hp]; rfl) rfl
  | handle hp hcq =>
    refine ⟨?_, h.before_objects hp hcq hout⟩
    rw [Moment.outside, hp] at hout
    rw [Moment.outside]
    simp only [Spot.todo, List.count_append, EventLoop.before_readFreeQueue] at hout ⊢
    omega
  | handled hp hc =>
    obtain ⟨hfrees, hobj⟩ := h.behind_objects hp hc hout
    exact same rfl hfrees (by rw [hp]; rfl) hobj
  | handlerFails error hp hpos => exact same rfl rfl (by rw [hp]; rfl) rfl
  | advance hp hend => exact same rfl rfl (by rw [hp]; rfl) rfl
  | complete res hk => exact same rfl rfl rfl rfl
  | freeRead x hx =>
    refine ⟨?_, rfl⟩
    have hperm := (List.perm_cons_erase hx).count_eq slot
    rw [RequestPool.count_cons_eq] at hperm
    rw [Moment.outside] at hout ⊢
    simp only [List.count_append, RequestPool.count_cons_eq, List.count_nil]
    omega

/-- What `read_handler_` is called with. -/
theorem handed_step {sqe : Sqe} {res : Int} (h : s.Owns) (hd : Does s (.handle sqe res) t) (ht : t.Owns)
    (hread : sqe.data.home = .read) (hpos : 0 < res) :
    0 < t.outside sqe.data.slot ∧ (t.ev.reads.objects sqe.data.slot).fields.res = res ∧
      sqe.prep = IsRequest.prep (t.ev.reads.objects sqe.data.slot).fields := by
  cases hd with
  | @handle count _ _ hp hcq =>
    have hgone := Moment.gone_reap hp
    have hop := (h.opOf hgone hcq).trans hread
    obtain ⟨hout, hprep⟩ := ht.hand count sqe res (by rw [hop]) hpos
    refine ⟨hout, ?_, hprep⟩
    simp only [EventLoop.before, hop, hpos, and_self, if_true, EventLoop.handRead, update_self]

end Steps

/-! ## The loop and its handler -/

/-- The loop, and the handler whose `operator()` is its `read_handler_`. -/
structure Joint (W : Type) where
  loop : Moment
  handler : Config (Option W) (RegexHandler.Members W Slot) (RegexHandler.Pc Slot)

/-- The loop and the handler before anything was called. -/
def Joint.fresh (W : Type) (entries size : Nat) : Joint W :=
  ⟨Moment.fresh entries size, RegexHandler.start⟩

section Places
variable {W : Type} [Fintype W] {s : Joint W}

/-- In how many places a read request is: in the free lists, parked, in the ring, in `to_process`, with a
thread of the handler, in `read_free_queue_`, in the copy of it that `pump` drains. -/
def Joint.places (s : Joint W) (slot : Slot) : Nat :=
  s.loop.ev.reads.freeList.count slot + s.loop.ev.reads.extraFree.count slot +
    s.loop.ev.reads.sqeOverflow.count slot + tally (s.loop.ev.ring.entriesWith s.loop.held) .read slot +
    s.handler.shared.toProcess.count slot + (∑ i, (s.handler.pc i).held.count slot) +
    s.loop.ev.readFreeQueue.count slot + s.loop.spot.todo.count slot

structure Joint.Shared (s : Joint W) : Prop where
  owns : s.loop.Owns
  aborted : ∀ count e, s.loop.spot ≠ .aborted count e
  kept : RegexHandler.Kept s.handler
  handed : (↑s.loop.handed : Multiset Slot) + ↑s.handler.shared.freed = ↑s.handler.shared.handed

theorem Joint.shared_fresh (entries size : Nat) : (Joint.fresh W entries size).Shared where
  owns := Moment.owns_start entries size
  aborted := nofun
  kept := RegexHandler.kept_start
  handed := rfl

/-- What was handed over and not freed is in the queue or with a thread of the handler. -/
theorem Joint.Shared.handed_eq (h : s.Shared) : (↑s.loop.handed : Multiset Slot) =
    ↑s.handler.shared.toProcess + ∑ i, (s.handler.pc i).held := by
  have hkept : (↑s.handler.shared.handed : Multiset Slot) =
      ↑s.handler.shared.toProcess + ↑s.handler.shared.freed + ∑ i, (s.handler.pc i).held := h.kept
  rw [← h.handed, add_right_comm] at hkept
  exact add_right_cancel hkept

theorem Joint.Shared.places_le (h : s.Shared) (slot : Slot) : s.places slot ≤ 1 := by
  obtain ⟨lost, hsound⟩ := h.owns.sound
  have hle := hsound.reads.owned.stored_le slot
  have hhanded := congrArg (Multiset.count slot) h.handed_eq
  rw [Multiset.count_add, Multiset.count_sum', Multiset.coe_count, Multiset.coe_count] at hhanded
  rw [RequestPool.stored, Moment.outside] at hle
  rw [Joint.places]
  omega

/-- A worker that frees a request has it. -/
theorem Joint.Shared.mem_handed (h : s.Shared) {i : Option W} {slot : Slot}
    (hpc : s.handler.pc i = .free slot) : slot ∈ s.loop.handed := by
  have hmem : slot ∈ ∑ j, (s.handler.pc j).held := by
    refine Multiset.mem_sum.mpr ⟨i, Finset.mem_univ i, ?_⟩
    rw [hpc]
    exact Multiset.mem_singleton_self slot
  rw [← Multiset.mem_coe, h.handed_eq]
  exact Multiset.mem_add.mpr (.inr hmem)

end Places

/-! ## The turns -/

/-- `free_read_request(req)`. -/
def Moment.giveBack (s : Moment) (slot : Slot) : Moment :=
  { s with ev := { s.ev with readFreeQueue := s.ev.readFreeQueue ++ [slot] }
           handed := s.handed.erase slot }

inductive Turn (W : Type) where
  | loop (a : Act)
  | thread (i : Option W)
  | free (i : Option W) (slot : Slot)

variable {W : Type} [DecidableEq W]

inductive Takes : Joint W → Turn W → Joint W → Prop
  -- `pump`, the other handlers, the kernel. `operator()` does not return an error.
  | loop {s : Joint W} {a : Act} {t : Moment} (hd : Does s.loop a t) (hhanded : t.handed = s.loop.handed)
      (hfails : ¬ a.Fails)
      (hreturned : ∀ sqe res, a = .handled sqe res → s.handler.pc none = .idle) :
      Takes s (.loop a) { s with loop := t }
  -- `read_handler_(*this, req)`
  | hand {s : Joint W} {sqe : Sqe} {res : Int} {t : Moment} {sh : RegexHandler.Members W Slot}
      (hd : Does s.loop (.handle sqe res) t) (hhanded : t.handed = s.loop.handed ++ [sqe.data.slot])
      (ha : RegexHandler.Work none s.handler.shared (s.handler.pc none) sh (.enter sqe.data.slot)) :
      Takes s (.loop (.handle sqe res)) ⟨t, s.handler.move none sh (.enter sqe.data.slot)⟩
  -- A thread of the handler, or the rest of `operator()`.
  | thread {s : Joint W} (i : Option W) {sh : RegexHandler.Members W Slot} {k : RegexHandler.Pc Slot}
      (ha : RegexHandler.Moves i s.handler.shared (s.handler.pc i) sh k) (hcall : ∀ req, k ≠ .enter req)
      (hfree : ∀ req, s.handler.pc i ≠ .free req) :
      Takes s (.thread i) { s with handler := s.handler.move i sh k }
  -- `ev.free_read_request(req)` in a worker.
  | free {s : Joint W} (i : Option W) {slot : Slot} {sh : RegexHandler.Members W Slot}
      (hpc : s.handler.pc i = .free slot)
      (ha : RegexHandler.Work i s.handler.shared (.free slot) sh .test) :
      Takes s (.free i slot) ⟨s.loop.giveBack slot, s.handler.move i sh .test⟩

theorem RegexHandler.Moves.history {i : Option W} {sh sh' : Members W Slot} {k k' : Pc Slot}
    (h : Moves i sh k sh' k') (hcall : ∀ req, k' ≠ .enter req) (hfree : ∀ req, k ≠ .free req) :
    sh'.handed = sh.handed ∧ sh'.freed = sh.freed := by
  cases h with
  | spurious h => exact ⟨rfl, rfl⟩
  | work h =>
    cases h with
    | call req => exact absurd rfl (hcall req)
    | free => exact absurd rfl (hfree _)
    | _ => exact ⟨rfl, rfl⟩

variable [Fintype W]

section Steps
variable {s t : Joint W} {x : Turn W}

/-- What a turn is for the loop. -/
theorem takes_does (h : s.Shared) (hx : Takes s x t) :
    (∃ a, Does s.loop a t.loop ∧ ¬ a.Fails ∧ ∀ slot, a = .drain slot → x = .loop (.drain slot)) ∨
      t.loop = s.loop := by
  cases hx with
  | loop hd _ hfails => exact .inl ⟨_, hd, hfails, fun slot ha => by rw [ha]⟩
  | hand hd =>
    refine .inl ⟨_, hd, ?_, fun _ => Act.noConfusion⟩
    rintro ⟨_, he⟩
    cases he
  | thread => exact .inr rfl
  | free i hpc =>
    refine .inl ⟨_, .freeRead _ (h.mem_handed hpc), ?_, fun _ => Act.noConfusion⟩
    rintro ⟨_, he⟩
    cases he

theorem Joint.shared_step (h : s.Shared) (hx : Takes s x t) : t.Shared := by
  have hloop : t.loop.Owns ∧ ∀ count e, t.loop.spot ≠ .aborted count e := by
    rcases takes_does h hx with ⟨a, hd, hfails, -⟩ | hsame
    · refine ⟨(Moment.owns_step h.owns hd ?_).1, fun count e ht => ?_⟩
      · rintro ⟨-, count, e, habort⟩
        exact h.aborted count e habort
      · rcases aborted_step hd ht with habort | hfail
        · exact h.aborted count e habort
        · exact hfails hfail
    · rw [hsame]
      exact ⟨h.owns, h.aborted⟩
  refine ⟨hloop.1, hloop.2, ?_, ?_⟩
  · cases hx with
    | loop => exact h.kept
    | hand hd hhanded ha => exact RegexHandler.kept_step h.kept (.work ha)
    | thread i ha => exact RegexHandler.kept_step h.kept ha
    | free i hpc ha =>
      refine RegexHandler.kept_step h.kept (.work ?_)
      rw [hpc]
      exact ha
  · have hhistory := h.handed
    cases hx with
    | loop hd hhanded =>
      rw [hhanded]
      exact hhistory
    | hand hd hhanded ha =>
      rw [hhanded]
      generalize s.handler.pc none = k at ha
      cases ha with
      | call req =>
        simp only [move_shared, RegexHandler.coe_snoc, ← hhistory]
        abel
    | thread i ha hcall hfree =>
      obtain ⟨hsame, hfreed⟩ := ha.history hcall hfree
      rw [move_shared, hsame, hfreed]
      exact hhistory
    | free i hpc ha =>
      cases ha with
      | free =>
        have herase := List.perm_cons_erase (h.mem_handed hpc)
        rw [← Multiset.coe_eq_coe, ← Multiset.cons_coe, ← Multiset.singleton_add] at herase
        simp only [move_shared, Moment.giveBack, RegexHandler.coe_snoc]
        rw [← hhistory, herase]
        abel

/-- The request is out, and nothing was done to it since it was `object`. -/
def Joint.Untouched (s : Joint W) (slot : Slot) (object : Request ReadRequest) : Prop :=
  0 < s.loop.outside slot ∧ s.loop.ev.reads.objects slot = object

theorem Joint.untouched_step {slot : Slot} {object : Request ReadRequest} (h : s.Shared)
    (hx : Takes s x t) (hs : s.Untouched slot object) (hne : x ≠ .loop (.drain slot)) :
    t.Untouched slot object := by
  rcases takes_does h hx with ⟨a, hd, -, hdrain⟩ | hsame
  · obtain ⟨hout, hobj⟩ := outside_step h.owns hd hs.1 fun ha => hne (hdrain slot ha)
    exact ⟨hout, hobj.trans hs.2⟩
  · rw [Joint.Untouched, hsame]
    exact hs

end Steps

/-! ## Every interleaving -/

theorem Joint.shared_of_run {entries size : Nat} {past : List (Joint W × Turn W)} {s : Joint W}
    {ok : Joint W → Turn W → Prop} (h : Run Takes ok (Joint.fresh W entries size) past s) : s.Shared :=
  h.keeps Joint.Shared (Joint.shared_fresh entries size) fun _ _ _ hs _ hx => Joint.shared_step hs hx

theorem Joint.untouched_of_run {s t : Joint W} {more : List (Joint W × Turn W)} {slot : Slot}
    {object : Request ReadRequest} (hs : s.Shared) (hobject : s.Untouched slot object)
    (h : Run Takes (fun _ x => x ≠ .loop (.drain slot)) s more t) :
    t.Shared ∧ t.Untouched slot object := by
  refine h.keeps (fun t => t.Shared ∧ t.Untouched slot object) ⟨hs, hobject⟩ ?_
  intro t x u ht hne hx
  exact ⟨Joint.shared_step ht.1 hx, Joint.untouched_step ht.1 hx ht.2 hne⟩

theorem Joint.Shared.untouched_of_hand {s t : Joint W} {sqe : Sqe} {res : Int} (h : s.Shared)
    (hx : Takes s (.loop (.handle sqe res)) t) (hread : sqe.data.home = .read) (hpos : 0 < res) :
    ∃ object, t.Untouched sqe.data.slot object ∧ object.fields.res = res ∧
      IsRequest.prep object.fields = sqe.prep := by
  have howns := (Joint.shared_step h hx).owns
  have hd : Does s.loop (.handle sqe res) t.loop := by
    cases hx with
    | loop hd => exact hd
    | hand hd => exact hd
  obtain ⟨hout, hres, hprep⟩ := handed_step h.owns hd howns hread hpos
  exact ⟨_, ⟨hout, rfl⟩, hres, hprep.symm⟩

/-- A read request is in at most one place. Between the moment it is passed to `read_handler_` and the
moment `pump` drains it, its fields are what they were, and it is not in the ring or in the pool. -/
theorem read_buffers_have_one_owner (entries size : Nat) :
    (∀ past (s : Joint W), Run Takes (fun _ _ => True) (Joint.fresh W entries size) past s →
      ∀ slot, s.places slot ≤ 1) ∧
    (∀ past (s t : Joint W) sqe res, Run Takes (fun _ _ => True) (Joint.fresh W entries size) past s →
      sqe.data.home = .read → 0 < res → Takes s (.loop (.handle sqe res)) t →
      ∃ object, t.Untouched sqe.data.slot object ∧ object.fields.res = res ∧
        IsRequest.prep object.fields = sqe.prep) ∧
    ∀ past (s t : Joint W) more slot object,
      Run Takes (fun _ _ => True) (Joint.fresh W entries size) past s → s.Untouched slot object →
      Run Takes (fun _ x => x ≠ .loop (.drain slot)) s more t →
      t.Untouched slot object ∧ tally (t.loop.ev.ring.entriesWith t.loop.held) .read slot = 0 ∧
        t.loop.ev.reads.stored slot = 0 := by
  refine ⟨?_, ?_, ?_⟩
  · intro past s h slot
    exact (Joint.shared_of_run h).places_le slot
  · intro past s t sqe res h hread hpos hx
    exact (Joint.shared_of_run h).untouched_of_hand hx hread hpos
  · intro past s t more slot object h hobject hmore
    obtain ⟨hshared, hsame⟩ := Joint.untouched_of_run (Joint.shared_of_run h) hobject hmore
    obtain ⟨lost, hsound⟩ := hshared.owns.sound
    have hle := hsound.reads.owned.stored_le slot
    have hout := hsame.1
    exact ⟨hsame, by omega, by omega⟩

/-! ## One block -/

/-- The loop moves alone, and hands nothing over. -/
def Act.alone : Act → Bool
  | .handle _ _ | .handled _ _ | .freeRead _ | .handlerFails _ => false
  | _ => true

omit [Fintype W] in
theorem takes_of_alone {s t : Moment} {a : Act} (hd : Does s a t) (ha : a.alone = true)
    (handler : Config (Option W) (RegexHandler.Members W Slot) (RegexHandler.Pc Slot)) :
    Takes ⟨s, handler⟩ (.loop a) ⟨t, handler⟩ := by
  refine Takes.loop (s := ⟨s, handler⟩) hd ?_ ?_ ?_
  · cases hd with
    | handle => cases ha
    | freeRead => cases ha
    | _ => rfl
  · rintro ⟨e, rfl⟩
    cases ha
  · rintro sqe res rfl
    cases ha

omit [Fintype W] in
theorem run_of_alone {ok : Moment → Act → Prop} {s t : Moment} {past : List (Moment × Act)}
    (h : Run Does ok s past t) (hok : ∀ s a, ok s a → a.alone = true)
    (handler : Config (Option W) (RegexHandler.Members W Slot) (RegexHandler.Pc Slot)) :
    ∃ turns, Run Takes (fun _ _ => True) (⟨s, handler⟩ : Joint W) turns ⟨t, handler⟩ := by
  induction h with
  | nil => exact ⟨[], .nil⟩
  | snoc _ ha hd ih =>
    obtain ⟨turns, hturns⟩ := ih
    exact ⟨_, hturns.snoc trivial (takes_of_alone hd (hok _ _ ha) handler)⟩

omit [Fintype W] in
/-- `operator()` up to the `push_back`, when nobody has the mutex. -/
theorem push_of_enter {s : Joint W} {slot : Slot} (hpc : s.handler.pc none = .enter slot)
    (hmutex : s.handler.shared.mutex = none) (x : Slot) :
    ∃ more t, Run Takes (fun _ turn => turn ≠ .loop (.drain x)) s more t ∧ t.loop = s.loop ∧
      t.handler.shared.toProcess = s.handler.shared.toProcess ++ [slot] := by
  have hlock : RegexHandler.Moves none s.handler.shared (s.handler.pc none)
      { s.handler.shared with mutex := some none } (.push slot) := by
    rw [hpc]
    exact .work (.enter hmutex)
  have hpush (u : Joint W) (hu : u.handler.pc none = .push slot) : Takes u (.thread none)
      { u with handler := u.handler.move none
                 { u.handler.shared with toProcess := u.handler.shared.toProcess ++ [slot] } .notifyOne } := by
    refine .thread none ?_ (by simp) (by simp [hu])
    rw [hu]
    exact .work .push
  have hfirst : Run Takes (fun _ turn => turn ≠ .loop (.drain x)) s _ _ :=
    .snoc .nil (by simp) (Takes.thread none hlock (by simp) (by simp [hpc]))
  exact ⟨_, _, hfirst.snoc (by simp) (hpush _ (move_pc_self _ _ _ _)), rfl, rfl⟩

/-- The pump hands out the buffer of a read from descriptor 4, with 10 bytes. -/
def handsTen : Option (Act × Moment) → Bool
  | some (.handle sqe res, t) => decide (sqe.data.home = .read ∧ res = 10 ∧
      t.handed = [sqe.data.slot] ∧ (t.ev.reads.objects sqe.data.slot).fields.fd = 4)
  | _ => false

/-- `queue_read(4)` and `pump`, up to the completion with 10 bytes. It is handed to the handler, and
waits in `to_process`. -/
theorem read_buffer_is_queued : ∃ past more, ∃ s t : Joint (Fin 4), ∃ slot object,
    Run Takes (fun _ _ => True) (Joint.fresh (Fin 4) 4096 4096) past s ∧ s.Untouched slot object ∧
      Run Takes (fun _ x => x ≠ .loop (.drain slot)) s more t ∧
      t.handler.shared.toProcess = [slot] ∧ t.loop.handed = [slot] ∧
      object.fields.fd = 4 ∧ object.fields.res = 10 ∧ t.places slot ≤ 1 ∧ t.Untouched slot object ∧
      tally (t.loop.ev.ring.entriesWith t.loop.held) .read slot = 0 := by
  have hplay : ∃ r ∈ (Moment.fresh 4096 4096).playAll
      ([.call (.read 4 0)] ++ List.replicate 7 Move.pump ++ [.complete 0 10, .pump]),
      r.2.handed = [] ∧ handsTen r.2.pump = true ∧ ∀ x ∈ r.1, x.2.alone = true := by
    decide +kernel
  obtain ⟨past, u, hrun, hnil, hnext, -⟩ :=
    Moment.run_of_play (fun _ a => a.alone = true) hplay fun r hr => hr.2.2
  obtain ⟨turns, hturns⟩ :=
    run_of_alone hrun (fun _ _ => id) (RegexHandler.start : Config (Option (Fin 4)) _ _)
  unfold handsTen at hnext
  split at hnext
  · rename_i sqe res v hpump
    obtain ⟨hread, rfl, hhanded, hfd⟩ := of_decide_eq_true hnext
    have hnew : v.handed = u.handed ++ [sqe.data.slot] := by
      rw [hnil]
      exact hhanded
    have hhand : ∃ s : Joint (Fin 4),
        Takes ⟨u, RegexHandler.start⟩ (.loop (.handle sqe 10)) s ∧ s.loop = v ∧
          s.handler.pc none = .enter sqe.data.slot ∧ s.handler.shared.mutex = none ∧
          s.handler.shared.toProcess = [] :=
      ⟨_, .hand (Moment.pump_does hpump) hnew (.call _), rfl, move_pc_self _ _ _ _, rfl, rfl⟩
    obtain ⟨s, hhand, hv, hpc, hmutex, hempty⟩ := hhand
    obtain ⟨object, hobject, hres, -⟩ := (read_buffers_have_one_owner (W := Fin 4) 4096 4096).2.1 _ _ _
      sqe 10 hturns hread (by decide) hhand
    have hs := hturns.snoc trivial hhand
    obtain ⟨more, t, hmore, hloop, hqueue⟩ := push_of_enter hpc hmutex sqe.data.slot
    obtain ⟨hsame, hring, -⟩ := (read_buffers_have_one_owner (W := Fin 4) 4096 4096).2.2 _ _ t more _ _
      hs hobject hmore
    refine ⟨_, more, s, t, sqe.data.slot, object, hs, hobject, hmore, ?_, ?_, ?_, hres, ?_, hsame, hring⟩
    · rw [hqueue, hempty]
      rfl
    · rw [hloop, hv]
      exact hhanded
    · rw [← hobject.2, hv]
      exact hfd
    · exact (read_buffers_have_one_owner (W := Fin 4) 4096 4096).1 _ t
        (hs.trans (hmore.mono fun _ _ _ => trivial)) _
  · cases hnext

end Omnipp.Utils
