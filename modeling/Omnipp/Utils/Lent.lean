import Omnipp.Utils.Owners

/-! # What `in_flight_` leaves out

An object of a pool is inside or out. `in_flight_` counts those that are out, except the read requests that
`read_handler_` got and that have not come back through the drain loop.
-/

open Function Omnipp.History

namespace Omnipp.Utils

/-! ## Inside and out -/

namespace RequestPool

variable {ρ : Type} {p : RequestPool ρ}

def objectCount (p : RequestPool ρ) : Nat := p.size + p.extras

def inside (p : RequestPool ρ) : Nat := p.freeList.length + p.extraFree.length + p.sqeOverflow.length

/-- The objects that are out, as a `std::size_t`. -/
def out (p : RequestPool ρ) : UInt64 := UInt64.ofNat p.objectCount - UInt64.ofNat p.inside

theorem out_of_less {q : RequestPool ρ} (hcount : q.objectCount = p.objectCount)
    (h : p.inside = q.inside + 1) : q.out = p.out + 1 := by
  rw [out, out, hcount, h, UInt64.ofNat_add]
  grind

variable [IsRequest ρ]

theorem grab_out (p : RequestPool ρ) : p.grab.2.out = p.out + 1 := by
  unfold RequestPool.grab
  split
  · rename_i slot rest hfree
    refine out_of_less rfl ?_
    simp only [inside, hfree, List.length_cons]
    omega
  · split
    · rename_i slot rest hfree
      refine out_of_less rfl ?_
      simp only [inside, hfree, List.length_cons]
      omega
    · simp only [out, objectCount, inside, ← Nat.add_assoc, UInt64.ofNat_add]
      grind

theorem next_out (p : RequestPool ρ) (r : Ring) (reset : ρ → ρ) :
    (p.next r reset).1.out - (p.next r reset).2.inFlight = p.out - r.inFlight := by
  have hgrab := p.grab_out
  rw [next_eq]
  split
  · have hset : (p.grab.2.resetAt p.grab.1 reset).out = p.grab.2.out := rfl
    simp only [submit, Ring.push, hset, hgrab]
    grind
  · have hpark : p.grab.2.out =
        out { p.grab.2.resetAt p.grab.1 reset with sqeOverflow := p.grab.2.sqeOverflow ++ [p.grab.1] } + 1 := by
      refine out_of_less rfl ?_
      simp only [inside, resetAt, List.length_append, List.length_singleton]
      omega
    rw [hgrab] at hpark
    grind

theorem tryPopOverflow_out (p : RequestPool ρ) (r : Ring) :
    (p.tryPopOverflow r).2.1.out - (p.tryPopOverflow r).2.2.inFlight = p.out - r.inFlight := by
  unfold tryPopOverflow
  split
  · rfl
  · rename_i slot rest hover
    split
    · have hpop : out { p with sqeOverflow := rest } = p.out + 1 := by
        refine out_of_less rfl ?_
        simp only [inside, hover, List.length_cons]
        omega
      simp only [hpop, submit, Ring.push]
      grind
    · rfl

omit [IsRequest ρ] in
theorem free_out (p : RequestPool ρ) (r : Ring) (slot : Slot) :
    (p.free r slot).1.out - (p.free r slot).2.inFlight = p.out - r.inFlight := by
  have hfree : p.out = (p.free r slot).1.out + 1 := by
    unfold free
    simp only
    split
    · refine out_of_less rfl ?_
      simp only [inside, List.length_cons]
      omega
    · refine out_of_less rfl ?_
      simp only [inside, List.length_cons]
      omega
  rw [free_ring, hfree]
  grind

end RequestPool

namespace EventLoop

variable {ev ev' : EventLoop}

def objectCount (ev : EventLoop) : Nat :=
  ev.openats.objectCount + ev.closes.objectCount + ev.reads.objectCount + ev.writes.objectCount

def inside (ev : EventLoop) : Nat := ev.openats.inside + ev.closes.inside + ev.reads.inside + ev.writes.inside

/-- The objects that are out, not counted, and not in `read_free_queue_`. -/
def lent (ev : EventLoop) : UInt64 :=
  ev.openats.out + ev.closes.out + ev.reads.out + ev.writes.out - ev.ring.inFlight -
    UInt64.ofNat ev.readFreeQueue.length

theorem queueClose_lent (ev : EventLoop) (fd : Int) : (ev.queueClose fd).lent = ev.lent := by
  have := ev.closes.next_out ev.ring fun _ => ⟨fd⟩
  simp only [lent, queueClose]
  grind

theorem queueRead_lent (ev : EventLoop) (fd : Int) (offset : UInt64) :
    (ev.queueRead fd offset).lent = ev.lent := by
  have := ev.reads.next_out ev.ring fun req => { req with fd, offset }
  simp only [lent, queueRead]
  grind

theorem queueWrite_lent (ev : EventLoop) (fd : Int) (buffer : Bytes) (offset : UInt64) :
    (ev.queueWrite fd buffer offset).lent = ev.lent := by
  have := ev.writes.next_out ev.ring fun _ => ⟨fd, offset, buffer⟩
  simp only [lent, queueWrite]
  grind

theorem nextOpenat_lent (ev : EventLoop) (req : OpenAtRequest) :
    lent { ev with openats := (ev.openats.next ev.ring fun _ => req).1
                   ring := (ev.openats.next ev.ring fun _ => req).2 } = ev.lent := by
  have := ev.openats.next_out ev.ring fun _ => req
  simp only [lent]
  grind

theorem queueOpenat_lent {parentFd : Int} {path : String} {flags : Nat}
    (h : ev.queueOpenat parentFd path flags = some ev') : ev'.lent = ev.lent := by
  unfold queueOpenat at h
  split at h
  · cases h
    exact ev.nextOpenat_lent _
  · split at h
    · simp only [increaseDirRef, Option.map_map, Option.map_eq_some_iff] at h
      obtain ⟨n, -, rfl⟩ := h
      exact nextOpenat_lent _ _
    · cases h

theorem call_lent {c : Call} (h : ev.call c = some ev') : ev'.lent = ev.lent := by
  cases c with
  | openat parentFd path flags => exact queueOpenat_lent h
  | getdents fd =>
    cases h
    rfl
  | close fd =>
    cases h
    exact ev.queueClose_lent fd
  | read fd offset =>
    cases h
    exact ev.queueRead_lent fd offset
  | write fd buffer offset =>
    cases h
    exact ev.queueWrite_lent fd buffer offset

theorem decreaseDirRef_lent {fd : Int} (h : ev.decreaseDirRef fd = some ev') : ev'.lent = ev.lent := by
  unfold decreaseDirRef at h
  split at h
  · cases h
  · cases h
  · cases h
    exact ev.queueClose_lent fd
  · cases h
    rfl

theorem popOverflow_lent {popped : Bool} (h : ev.popOverflow = (popped, ev')) : ev'.lent = ev.lent := by
  have hopen := ev.openats.tryPopOverflow_out ev.ring
  have hclose := ev.closes.tryPopOverflow_out ev.ring
  have hread := ev.reads.tryPopOverflow_out ev.ring
  unfold popOverflow at h
  split at h
  · rename_i heq
    rw [heq] at hopen
    cases h
    simp only [lent]
    grind
  · split at h
    · rename_i heq
      rw [heq] at hclose
      cases h
      simp only [lent]
      grind
    · split at h
      · rename_i heq
        rw [heq] at hread
        cases h
        simp only [lent]
        grind
      · cases h
        rfl

/-- The request that comes back was not counted. -/
theorem drainRead_lent (ev : EventLoop) (slot : Slot) : ev.lent = (ev.drainRead slot).lent + 1 := by
  have := ev.reads.free_out ev.ring slot
  simp only [lent, drainRead]
  grind

theorem freeOpenat_lent (ev : EventLoop) (slot : Slot) : (ev.freeOpenat slot).lent = ev.lent := by
  have := ev.openats.free_out ev.ring slot
  simp only [lent, freeOpenat]
  grind

theorem freeClose_lent (ev : EventLoop) (slot : Slot) : (ev.freeClose slot).lent = ev.lent := by
  have := ev.closes.free_out ev.ring slot
  simp only [lent, freeClose]
  grind

theorem freeRead_lent (ev : EventLoop) (slot : Slot) : (ev.freeRead slot).lent = ev.lent := by
  have := ev.reads.free_out ev.ring slot
  simp only [lent, freeRead]
  grind

theorem freeWrite_lent (ev : EventLoop) (slot : Slot) : (ev.freeWrite slot).lent = ev.lent := by
  have := ev.writes.free_out ev.ring slot
  simp only [lent, freeWrite]
  grind

theorem handRead_lent (ev : EventLoop) (slot : Slot) (res : Int) :
    (ev.handRead slot res).lent = ev.lent + 1 := by
  change ev.openats.out + ev.closes.out + ev.reads.out + ev.writes.out - (ev.ring.inFlight - 1) -
    UInt64.ofNat ev.readFreeQueue.length = _
  unfold lent
  grind

theorem behind_lent {op : Op} {slot : Slot} {res : Int} (h : ev.behind op slot res = some ev') :
    ev'.lent = ev.lent := by
  rcases op with _ | _ | _ | _
  · obtain ⟨mid, rfl, hmid⟩ := behind_openat h
    rw [freeOpenat_lent]
    rcases hmid with ⟨-, rfl⟩ | ⟨-, hmid⟩
    · rfl
    · exact decreaseDirRef_lent hmid
  · cases h
    exact ev.freeClose_lent slot
  · simp only [behind] at h
    split at h
    · cases h
      rw [freeRead_lent, queueClose_lent]
    · split at h
      · cases h
        exact ev.queueRead_lent _ _
      · cases h
        rfl
  · simp only [behind] at h
    cases h
    rw [freeWrite_lent]
    split
    · exact ev.queueWrite_lent _ _ _
    · rfl

end EventLoop

/-! ## Along a run -/

/-- The read requests that others have or that `pump` is about to free. -/
def Moment.away (s : Moment) : Nat := s.handed.length + s.spot.todo.length

section Steps
variable {s t : Moment} {a : Act}

theorem lent_step (h : s.ev.lent = UInt64.ofNat s.away) (howns : s.Owns) (hd : Does s a t) :
    t.ev.lent = UInt64.ofNat t.away := by
  have still (hev : t.ev.lent = s.ev.lent) (haway : t.away = s.away) : t.ev.lent = UInt64.ofNat t.away := by
    rw [hev, haway]
    exact h
  cases hd with
  | call c hp hc => exact still (EventLoop.call_lent hc) rfl
  | enter hp => exact still rfl (by rw [Moment.away, Moment.away, hp.todo_nil]; rfl)
  | listed hp hc => exact still (EventLoop.decreaseDirRef_lent hc) (by rw [Moment.away, Moment.away, hp]; rfl)
  | pop hp hc => exact still (EventLoop.popOverflow_lent hc) rfl
  | @popped ev hp hc =>
    have hpop := EventLoop.popOverflow_lent hc
    rw [Moment.away, hp] at h
    rw [h] at hpop
    simp only [Moment.away, Spot.todo, EventLoop.lent, List.length_nil, Nat.add_zero, UInt64.ofNat_add]
      at hpop ⊢
    grind
  | @drain slot todo hp =>
    have hless := s.ev.drainRead_lent slot
    rw [hless, Moment.away, hp] at h
    simp only [Moment.away, Spot.todo, List.length_cons, UInt64.ofNat_add] at h ⊢
    grind
  | @handle count sqe res hp hcq =>
    have hop := howns.opOf (Moment.gone_reap hp) hcq
    rw [Moment.away, hp] at h
    simp only [Moment.away, EventLoop.handedBy, EventLoop.before, hop, Spot.todo] at h ⊢
    split
    · rw [EventLoop.handRead_lent, h]
      simp only [List.length_append, List.length_singleton, List.length_nil, UInt64.ofNat_add]
      grind
    · rw [List.append_nil]
      exact h
  | handled hp hc => exact still (EventLoop.behind_lent hc) (by rw [Moment.away, Moment.away, hp]; rfl)
  | @freeRead slot hslot =>
    have hlen : s.handed.length = (s.handed.erase slot).length + 1 := by
      have := List.length_pos_of_mem hslot
      rw [List.length_erase_of_mem hslot]
      omega
    rw [Moment.away, hlen] at h
    simp only [Moment.away, EventLoop.lent, List.length_append, List.length_singleton, UInt64.ofNat_add]
      at h ⊢
    grind
  | swap hp | list hp | listedAll hp | drained hp | exit hp hzero | goOn hp hne | submitFails errno hp
  | submit hp | peek hp hne | sleep hp hnil | wake hp hne | handlerFails error hp hpos | advance hp hend =>
    exact still rfl (by rw [Moment.away, Moment.away, hp]; rfl)
  | complete res hk => exact still rfl rfl

end Steps

/-! ## How many objects there are -/

namespace RequestPool

variable {ρ : Type} {p : RequestPool ρ}

/-- The objects of the pool. -/
def slots (p : RequestPool ρ) : List Slot :=
  (List.range p.size).map Slot.pool ++ (List.range p.extras).map Slot.extra

theorem length_slots (p : RequestPool ρ) : p.slots.length = p.objectCount := by
  simp [slots, objectCount]

theorem mem_slots {slot : Slot} (h : p.Valid slot) : slot ∈ p.slots := by
  rcases slot with i | i
  · have hi : i < p.size := h
    simp [slots, hi]
  · have hi : i < p.extras := h
    simp [slots, hi]

theorem count_slot (entries : Multiset Sqe) (op : Op) (slot : Slot) :
    ((entries.filter (·.data.home = op)).map (·.data.slot)).count slot = tally entries op slot := by
  rw [tally, Multiset.count_map, Multiset.count_map, Multiset.filter_filter]
  congr 1
  refine Multiset.filter_congr fun e _ => ?_
  obtain ⟨⟨home, x⟩, prep⟩ := e
  simp only [Ptr.mk.injEq, eq_comm (a := op), and_comm]

/-- Each object is in the pool, in the ring or with the `others`, and nowhere twice. -/
theorem Sound.card_le [IsRequest ρ] {op : Op} {entries : Multiset Sqe} {away : Slot → Nat}
    (h : p.Sound op entries away) (others : Multiset Slot) (hothers : ∀ slot, others.count slot ≤ away slot) :
    (entries.filter (·.data.home = op)).card + others.card + p.inside ≤ p.objectCount := by
  have hcount (slot : Slot) : ((entries.filter (·.data.home = op)).map (·.data.slot) + others +
      ↑(p.freeList ++ p.extraFree ++ p.sqeOverflow)).count slot ≤ if p.Valid slot then 1 else 0 := by
    have honce := h.owned.once slot
    have hle := hothers slot
    simp only [Multiset.count_add, count_slot, Multiset.coe_count, List.count_append]
    rw [← honce, stored]
    omega
  have hnodup := Multiset.nodup_iff_count_le_one.mpr fun slot => (hcount slot).trans (by split <;> omega)
  have hsub : _ ⊆ (↑p.slots : Multiset Slot) := fun slot hslot => by
    have hpos := (Multiset.count_pos.mpr hslot).trans_le (hcount slot)
    have hvalid : p.Valid slot := by
      by_contra hno
      rw [if_neg hno] at hpos
      omega
    exact Multiset.mem_coe.mpr (mem_slots hvalid)
  have hcard := Multiset.card_le_card ((Multiset.le_iff_subset hnodup).mpr hsub)
  simpa [length_slots, inside, Nat.add_assoc] using hcard

end RequestPool

theorem card_eq_sum_homes (entries : Multiset Sqe) :
    entries.card =
      (entries.filter (·.data.home = .openat)).card + (entries.filter (·.data.home = .close)).card +
      (entries.filter (·.data.home = .read)).card + (entries.filter (·.data.home = .write)).card := by
  induction entries using Multiset.induction_on with
  | empty => rfl
  | cons e entries ih =>
    rw [Multiset.card_cons, ih]
    rcases hop : e.data.home with _ | _ | _ | _ <;> simp [hop] <;> omega

theorem EventLoop.Sound.card_le {ev : EventLoop} {held : Multiset Sqe} {away : Slot → Nat}
    (h : ev.Sound held away) (others : Multiset Slot) (hothers : ∀ slot, others.count slot ≤ away slot) :
    (ev.ring.entriesWith held).card + others.card + ev.inside ≤ ev.objectCount := by
  have hopenats := h.openats.card_le 0 fun _ => Nat.le_refl 0
  have hcloses := h.closes.card_le 0 fun _ => Nat.le_refl 0
  have hreads := h.reads.card_le others hothers
  have hwrites := h.writes.card_le 0 fun _ => Nat.le_refl 0
  rw [Multiset.card_zero] at hopenats hcloses hwrites
  rw [card_eq_sum_homes, EventLoop.inside, EventLoop.objectCount]
  omega

/-! ## The return of `pump` -/

theorem RequestPool.make_out {ρ : Type} [IsRequest ρ] (op : Op) (size : Nat) :
    (RequestPool.make op size : RequestPool ρ).out = 0 := by
  simp [out, objectCount, inside, make]

theorem lent_fresh (entries size : Nat) :
    (Moment.fresh entries size).ev.lent = UInt64.ofNat (Moment.fresh entries size).away := by
  simp [Moment.fresh, start, EventLoop.lent, RequestPool.make_out, Moment.away, Spot.todo]

/-- When `pump` finds that `in_flight_` is 0, the ring is empty. The objects of the pools are in memory, so
there are fewer than 2^64. -/
theorem ring_empty_at_exit {entries size : Nat} {past : List (Moment × Act)} {s : Moment}
    (h : Run Does (fun s a => ¬ Reenters s a) (Moment.fresh entries size) past s)
    (hmem : s.ev.objectCount < 2 ^ 64) (hzero : s.ev.ring.inFlight = 0) :
    s.ev.ring.entriesWith s.held = 0 := by
  obtain ⟨howns, hlent⟩ := h.keeps (fun s => s.Owns ∧ s.ev.lent = UInt64.ofNat s.away)
    ⟨Moment.owns_start entries size, lent_fresh entries size⟩
    fun _ _ _ hin hre hd => ⟨(Moment.owns_step hin.1 hd hre).1, lent_step hin.2 hin.1 hd⟩
  obtain ⟨lost, hsound⟩ := howns.sound
  have hle := hsound.card_le ↑(s.handed ++ s.ev.readFreeQueue ++ s.spot.todo) fun slot => by
    simp only [Multiset.coe_count, List.count_append, Moment.outside]
    omega
  rw [Multiset.coe_card, List.length_append, List.length_append] at hle
  have hall : UInt64.ofNat (s.ev.inside + s.handed.length + s.ev.readFreeQueue.length + s.spot.todo.length) =
      UInt64.ofNat s.ev.objectCount := by
    simp only [EventLoop.lent, RequestPool.out, hzero, Moment.away, UInt64.ofNat_add] at hlent
    simp only [EventLoop.inside, EventLoop.objectCount, UInt64.ofNat_add]
    grind
  have hnat := congrArg UInt64.toNat hall
  rw [UInt64.toNat_ofNat_of_lt' (by unfold UInt64.size; omega),
    UInt64.toNat_ofNat_of_lt' (by unfold UInt64.size; omega)] at hnat
  exact Multiset.card_eq_zero.mp (by omega)

end Omnipp.Utils
