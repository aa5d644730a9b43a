import Omnipp.Utils.Completions
import Omnipp.Utils.InFlight
import Omnipp.Utils.Lent

/-! # What is left when `pump` returns

Requests that find the submission queue full are parked. The overflow loop of `pump` takes them up
again, except those of the write pool.
-/

open Function Omnipp.History

namespace Omnipp.Utils

/-! ## What a step does to the ring -/

def Moment.submittedBy (s : Moment) : Act → Multiset Prep
  | .submit => ↑(s.ev.ring.sq.map Sqe.prep)
  | _ => 0

inductive RingMove (s : Moment) (a : Act) (t : Moment) : Prop
  -- Entries were added to the submission queue, or nothing happened.
  | grows (hring : Ring.Grew 0 s.ev.ring t.ev.ring) (hgone : t.spot.gone = s.spot.gone)
      (hdealt : Moment.dealt a = 0) (hsub : s.submittedBy a = 0)
  -- The next completion of the batch is dealt with.
  | settles {sqe : Sqe} {res : Int} (hcq : s.ev.ring.cq[s.spot.gone]? = some (sqe, res))
      (hring : Ring.Grew (-1) s.ev.ring t.ev.ring) (hgone : t.spot.gone = s.spot.gone + 1)
      (hdealt : Moment.dealt a = {sqe.prep}) (hsub : s.submittedBy a = 0)
  -- The next completion of the batch is that of a read that failed.
  | loses {sqe : Sqe} {res : Int} (ha : a = .handled sqe res) (hread : sqe.data.home = .read)
      (hneg : res < 0) (hcq : s.ev.ring.cq[s.spot.gone]? = some (sqe, res))
      (hring : t.ev.ring = s.ev.ring) (hgone : t.spot.gone = s.spot.gone + 1)
  | submits (ha : a = .submit) (hring : t.ev.ring = s.ev.ring.submitted)
      (hgone : t.spot.gone = s.spot.gone)
  | advances (ha : a = .advance)
      (hring : t.ev.ring = { s.ev.ring with cq := s.ev.ring.cq.drop s.spot.gone })
      (hgone : t.spot.gone = 0)
  | completes {sqe : Sqe} {res : Int} {before behind : List Sqe} (ha : a = .complete sqe res)
      (hk : s.ev.ring.kernel = before ++ sqe :: behind)
      (hring : t.ev.ring = { s.ev.ring with
        kernel := before ++ behind, cq := s.ev.ring.cq ++ [(sqe, res)] })
      (hgone : t.spot.gone = s.spot.gone)

theorem EventLoop.behind_grew {ev ev' : EventLoop} {op : Op} {slot : Slot} {res : Int}
    (hread : ¬ (op = .read ∧ res ≠ 0)) (h : ev.behind op slot res = some ev') :
    Ring.Grew (-1) ev.ring ev'.ring := by
  rcases op with _ | _ | _ | _
  · obtain ⟨mid, rfl, hmid⟩ := behind_openat h
    have hparent : Ring.Grew 0 ev.ring mid.ring := by
      rcases hmid with ⟨-, rfl⟩ | ⟨-, hmid⟩
      · exact mid.ring.grew_refl
      · exact decreaseDirRef_grew hmid
    exact hparent.zero_trans (mid.openats.free_grew mid.ring slot)
  · cases h
    exact ev.closes.free_grew ev.ring slot
  · have hzero : res = 0 := by
      by_contra hne
      exact hread ⟨rfl, hne⟩
    simp only [EventLoop.behind, if_pos hzero] at h
    cases h
    exact (ev.queueClose_grew _).zero_trans (RequestPool.free_grew _ _ slot)
  · simp only [EventLoop.behind] at h
    cases h
    split
    · exact (ev.queueWrite_grew _ _ _).zero_trans (RequestPool.free_grew _ _ slot)
    · exact ev.writes.free_grew ev.ring slot

section Steps
variable {s t : Moment} {a : Act}

theorem ringMove_handle (h : s.Owns) {count : Nat} {sqe : Sqe} {res : Int}
    (hp : s.spot = .phase (.reap count)) (hcq : s.ev.ring.cq[count]? = some (sqe, res)) :
    RingMove s (.handle sqe res)
      { ev := s.ev.before (s.ev.opOf sqe.data) sqe.data.slot res
        spot := .handling count sqe res (s.ev.opOf sqe.data)
        handed := s.handed ++ s.ev.handedBy sqe.data res } := by
  have hgone := Moment.gone_reap hp
  have hop := h.opOf hgone hcq
  by_cases hread : sqe.data.home = .read ∧ 0 < res
  · refine .settles (hgone ▸ hcq) ?_ ?_ (if_pos hread) rfl
    · rw [EventLoop.before, hop, if_pos hread]
      exact ⟨rfl, rfl, rfl, [], by simp [EventLoop.handRead],
        by simp [EventLoop.handRead, UInt64.sub_eq_add_neg]⟩
    · rw [hgone, Spot.gone, hop, if_pos hread]
  · refine .grows ?_ ?_ (if_neg hread) rfl
    · rw [EventLoop.before, hop, if_neg hread]
      exact s.ev.ring.grew_refl
    · rw [hgone, Spot.gone, hop, if_neg hread]

theorem ringMove_handled (h : s.Owns) {count : Nat} {sqe : Sqe} {res : Int} {op : Op} {ev : EventLoop}
    (hp : s.spot = .handling count sqe res op)
    (hc : s.ev.behind op sqe.data.slot res = some ev) :
    RingMove s (.handled sqe res) { s with ev, spot := .phase (.reap (count + 1)) } := by
  obtain ⟨hcq, rfl⟩ := h.cqe count sqe res op hp
  by_cases hread : sqe.data.home = .read ∧ 0 < res
  · refine .grows ?_ ?_ (if_pos hread) rfl
    · rw [hread.1] at hc
      have hne : res ≠ 0 := by omega
      simp only [EventLoop.behind, if_neg hne, if_pos hread.2] at hc
      cases hc
      exact s.ev.queueRead_grew _ _
    · rw [hp, Spot.gone, Spot.gone, if_pos hread]
      rfl
  · have hgone : s.spot.gone = count := by rw [hp, Spot.gone, if_neg hread]
    have hnext : (Spot.phase (.reap (count + 1))).gone = s.spot.gone + 1 := by rw [hgone]; rfl
    by_cases hneg : sqe.data.home = .read ∧ res ≠ 0
    · have hlt : res < 0 := by
        have : ¬ 0 < res := fun hpos => hread ⟨hneg.1, hpos⟩
        have := hneg.2
        omega
      refine .loses rfl hneg.1 hlt (hgone ▸ hcq) ?_ hnext
      rw [hneg.1] at hc
      simp only [EventLoop.behind, if_neg hneg.2, if_neg (show ¬ 0 < res by omega)] at hc
      cases hc
      rfl
    · exact .settles (hgone ▸ hcq) (EventLoop.behind_grew hneg hc) hnext (if_neg hread) rfl

theorem ring_step (h : s.Owns) (hd : Does s a t) (hre : ¬ Reenters s a) : RingMove s a t := by
  have still (hev : t.ev.ring = s.ev.ring) (hgone : t.spot.gone = s.spot.gone)
      (hdealt : Moment.dealt a = 0) (hsub : s.submittedBy a = 0) : RingMove s a t :=
    .grows (hev ▸ s.ev.ring.grew_refl) hgone hdealt hsub
  cases hd with
  | call c hp hc => exact .grows (EventLoop.call_grew hc) rfl rfl rfl
  | enter hp =>
    exact still rfl (hp.gone_zero hre).symm rfl rfl
  | swap hp => exact still rfl (by rw [hp]; rfl) rfl rfl
  | list hp => exact still rfl (by rw [hp]; rfl) rfl rfl
  | listed hp hc => exact .grows (EventLoop.decreaseDirRef_grew hc) (by rw [hp]; rfl) rfl rfl
  | listedAll hp => exact still rfl (by rw [hp]; rfl) rfl rfl
  | pop hp hc => exact .grows (EventLoop.popOverflow_grew hc) rfl rfl rfl
  | popped hp hc =>
    have hring := EventLoop.popOverflow_grew hc
    exact .grows hring (by rw [hp]; rfl) rfl rfl
  | drain hp => exact .grows (s.ev.drainRead_grew _) (by rw [hp]; rfl) rfl rfl
  | drained hp | exit hp hzero | goOn hp hne | submitFails errno hp =>
    exact still rfl (by rw [hp]; rfl) rfl rfl
  | submit hp => exact .submits rfl rfl (by rw [hp]; rfl)
  | peek hp hne | sleep hp hnil | wake hp hne =>
    exact still rfl (by rw [hp]; rfl) rfl rfl
  | handle hp hcq => exact ringMove_handle h hp hcq
  | handled hp hc => exact ringMove_handled h hp hc
  | handlerFails error hp hpos =>
    refine still rfl ?_ rfl rfl
    rw [hp]
    exact (if_pos ⟨rfl, hpos⟩).symm
  | advance hp hend => exact .advances rfl (by rw [hp]; rfl) rfl
  | complete res hk => exact .completes rfl hk rfl rfl
  | freeRead slot hslot => exact still rfl rfl rfl rfl

/-! ## What was submitted -/

/-- The requests that were submitted and whose completion has not been dealt with. -/
def Moment.transit (s : Moment) : Multiset Prep :=
  (↑s.ev.ring.kernel + s.held : Multiset Sqe).map Sqe.prep

theorem RingMove.transit (hm : RingMove s a t) (hbound : s.spot.gone ≤ s.ev.ring.cq.length) :
    t.transit + Moment.dealt a = s.transit + s.submittedBy a := by
  cases hm with
  | grows hring hgone hdealt hsub =>
    rw [Moment.transit, Moment.held, hgone, hring.2.1, hring.2.2.1, hdealt, hsub]
    rfl
  | settles hcq hring hgone hdealt hsub =>
    rw [Moment.transit, Moment.held, hgone, hring.2.1, hring.2.2.1, hdealt, hsub, Moment.transit,
      Moment.held, Moment.held_of_cqe hcq, add_zero, ← add_assoc, Multiset.map_add _ _ {_},
      Multiset.map_singleton]
  | @loses sqe res ha hread hneg hcq hring hgone =>
    have hdealt : Moment.dealt a = {sqe.prep} := by
      rw [ha]
      exact if_neg (by omega)
    have hsub : s.submittedBy a = 0 := by
      rw [ha]
      rfl
    rw [Moment.transit, Moment.held, hgone, hring, hdealt, hsub, Moment.transit, Moment.held,
      Moment.held_of_cqe hcq, add_zero, ← add_assoc, Multiset.map_add _ _ {_}, Multiset.map_singleton]
  | submits ha hring hgone =>
    rw [ha, Moment.transit, Moment.held, hring, hgone, Moment.transit, Moment.held]
    simp only [Ring.submitted, Moment.submittedBy, Moment.dealt, ← Multiset.coe_add, Multiset.map_add,
      ← Multiset.map_coe]
    abel
  | advances ha hring hgone =>
    rw [ha, Moment.transit, Moment.held, hring, hgone, Moment.transit, Moment.held, List.drop_zero]
    rfl
  | completes ha hk hring hgone =>
    rw [ha, Moment.transit, Moment.held, hring, hgone, Moment.transit, Moment.held, hk]
    simp only [List.drop_append_of_le_length hbound, List.map_append, List.map_cons, List.map_nil,
      ← Multiset.coe_add, ← Multiset.cons_coe, Multiset.coe_nil, ← Multiset.singleton_add,
      Moment.dealt, Moment.submittedBy, Multiset.map_add]
    abel

theorem RingMove.entries (hm : RingMove s a t) : t.ev.ring.entries = s.ev.ring.entries := by
  cases hm with
  | grows hring => exact hring.1
  | settles _ hring => exact hring.1
  | loses _ _ _ _ hring => rw [hring]
  | submits _ hring => rw [hring]; rfl
  | advances _ hring => rw [hring]
  | completes _ _ hring => rw [hring]

end Steps

/-! ## The queue of directories, and the writes -/

theorem RequestPool.next_sqeOverflow {ρ : Type} [IsRequest ρ] (p : RequestPool ρ) {r : Ring}
    (hr : r.HasSqe) (reset : ρ → ρ) : (p.next r reset).1.sqeOverflow = p.sqeOverflow := by
  rw [RequestPool.next_eq, if_pos hr]
  change p.grab.2.sqeOverflow = _
  unfold RequestPool.grab
  split
  · rfl
  · split <;> rfl

theorem RequestPool.free_sqeOverflow {ρ : Type} (p : RequestPool ρ) (r : Ring) (slot : Slot) :
    (p.free r slot).1.sqeOverflow = p.sqeOverflow := by
  unfold RequestPool.free
  simp only
  split <;> rfl

namespace EventLoop

variable {ev ev' : EventLoop}

/-- Nothing was queued for listing or for writing. -/
def Aside (ev ev' : EventLoop) : Prop := ev'.getdentsQueue = ev.getdentsQueue ∧ ev'.writes = ev.writes

theorem Aside.parks (h : Aside ev ev') : ev'.writes.sqeOverflow = ev.writes.sqeOverflow := by rw [h.2]

def Call.IsWrite : Call → Prop
  | .write _ _ _ => True
  | _ => False

def Call.IsGetdents : Call → Prop
  | .getdents _ => True
  | _ => False

theorem queueOpenat_aside {parentFd : Int} {path : String} {flags : Nat}
    (h : ev.queueOpenat parentFd path flags = some ev') : ev.Aside ev' := by
  unfold queueOpenat at h
  split at h
  · cases h
    exact ⟨rfl, rfl⟩
  · split at h
    · simp only [increaseDirRef, Option.map_map, Option.map_eq_some_iff] at h
      obtain ⟨n, -, rfl⟩ := h
      exact ⟨rfl, rfl⟩
    · cases h

theorem decreaseDirRef_aside {fd : Int} (h : ev.decreaseDirRef fd = some ev') : ev.Aside ev' := by
  unfold decreaseDirRef at h
  split at h
  · cases h
  · cases h
  · cases h
    exact ⟨rfl, rfl⟩
  · cases h
    exact ⟨rfl, rfl⟩

theorem popOverflow_aside {popped : Bool} (h : ev.popOverflow = (popped, ev')) : ev.Aside ev' := by
  unfold popOverflow at h
  split at h
  · cases h
    exact ⟨rfl, rfl⟩
  · split at h
    · cases h
      exact ⟨rfl, rfl⟩
    · split at h <;> cases h <;> exact ⟨rfl, rfl⟩

theorem call_writes {c : Call} (h : ev.call c = some ev') (hfit : c.IsWrite → ev.ring.HasSqe) :
    ev'.writes.sqeOverflow = ev.writes.sqeOverflow := by
  rcases c with _ | _ | _ | _ | _
  · exact (queueOpenat_aside h).parks
  · cases h
    rfl
  · cases h
    rfl
  · cases h
    rfl
  · cases h
    exact ev.writes.next_sqeOverflow (hfit trivial) _

theorem call_getdents {c : Call} (h : ev.call c = some ev') (hc : ¬ c.IsGetdents) :
    ev'.getdentsQueue = ev.getdentsQueue := by
  rcases c with _ | _ | _ | _ | _
  · exact (queueOpenat_aside h).1
  · exact absurd trivial hc
  · cases h
    rfl
  · cases h
    rfl
  · cases h
    rfl

theorem behind_writes {op : Op} {slot : Slot} {res : Int} (h : ev.behind op slot res = some ev')
    (hfit : (∃ c ∈ ev.behindCalls op slot res, c.IsWrite) → ev.ring.HasSqe) :
    ev'.writes.sqeOverflow = ev.writes.sqeOverflow := by
  rcases op with _ | _ | _ | _
  · obtain ⟨mid, rfl, ⟨-, rfl⟩ | ⟨-, hmid⟩⟩ := behind_openat h
    · rfl
    · exact (decreaseDirRef_aside hmid).parks
  · cases h
    rfl
  · simp only [behind] at h
    split at h
    · cases h
      rfl
    · split at h <;> cases h <;> rfl
  · simp only [behind] at h
    cases h
    refine (RequestPool.free_sqeOverflow _ _ _).trans ?_
    split
    · rename_i hne
      refine ev.writes.next_sqeOverflow (hfit ?_) _
      simp only [behindCalls, if_pos hne]
      exact ⟨_, List.mem_singleton_self _, trivial⟩
    · rfl

/-- The overflow loop ends with nothing to submit or with no room for it. -/
theorem popOverflow_false (h : ev.popOverflow = (false, ev')) :
    ev' = ev ∧ (ev.ring.HasSqe → ev.openats.sqeOverflow = [] ∧ ev.closes.sqeOverflow = [] ∧
      ev.reads.sqeOverflow = []) := by
  have hempty {ρ : Type} [IsRequest ρ] {p : RequestPool ρ} {x : RequestPool ρ × Ring}
      (hpop : p.tryPopOverflow ev.ring = (false, x)) (hr : ev.ring.HasSqe) : p.sqeOverflow = [] := by
    unfold RequestPool.tryPopOverflow at hpop
    split at hpop
    · assumption
    · rw [if_pos hr] at hpop
      cases hpop
  unfold popOverflow at h
  split at h
  · cases h
  · rename_i hopenats
    split at h
    · cases h
    · rename_i hcloses
      split at h
      · cases h
      · rename_i hreads
        cases h
        exact ⟨rfl, fun hr => ⟨hempty hopenats hr, hempty hcloses hr, hempty hreads hr⟩⟩

end EventLoop

/-! ## Between the loops of an iteration -/

/-- The handlers do not fail, the completions are successful, and `queue_getdents` is called only from
outside and from `openat_handler_`. -/
structure Working (s : Moment) (a : Act) : Prop where
  fails : ¬ a.Fails
  success : ∀ sqe res, a = .complete sqe res → 0 ≤ res
  getdents : ∀ fd, a = .call (.getdents fd) →
    s.spot.Outside ∨ ∃ count sqe res, s.spot = .handling count sqe res .openat

/-- `queue_write` is not called while the submission queue is full, by others or by `pump` itself. -/
def WritesFit (s : Moment) (a : Act) : Prop := (∃ c ∈ s.made a, c.IsWrite) → s.ev.ring.HasSqe

/-- Behind the swap of `getdents_queue_`. -/
def Spot.Swept : Spot → Prop
  | .phase (.listing _) | .phase (.inListing _ _) | .phase .overflow | .phase (.drain _)
  | .phase .check => True
  | _ => False

/-- Behind the overflow loop. -/
def Spot.Popped : Spot → Prop
  | .phase (.drain _) | .phase .check => True
  | _ => False

structure Emptied (s : Moment) : Prop where
  writes : s.ev.writes.sqeOverflow = []
  swept : s.spot.Swept → s.ev.getdentsQueue = []
  popped : s.spot.Popped → s.ev.ring.HasSqe →
    s.ev.openats.sqeOverflow = [] ∧ s.ev.closes.sqeOverflow = [] ∧ s.ev.reads.sqeOverflow = []

section Steps
variable {s t : Moment} {a : Act}

theorem Emptied.call (h : Emptied s) {c : EventLoop.Call} {ev : EventLoop} (hp : s.spot.UserCode)
    (hc : s.ev.call c = some ev) (hw : Working s (.call c)) (hfit : WritesFit s (.call c)) :
    Emptied { s with ev } where
  writes := by
    refine (EventLoop.call_writes hc fun hwrite => hfit ?_).trans h.writes
    exact ⟨c, List.mem_singleton_self c, hwrite⟩
  swept hs := by
    refine (EventLoop.call_getdents hc fun hget => ?_).trans (h.swept hs)
    rcases c with _ | fd | _ | _ | _
    · exact hget
    · have hs : s.spot.Swept := hs
      rcases hw.getdents fd rfl with hout | ⟨_, _, _, hspot⟩
      · rcases hout.split with ⟨last, hspot⟩ | ⟨count, e, hspot⟩
        · rw [hspot] at hs
          exact hs
        · rw [hspot] at hs
          exact hs
      · rw [hspot] at hs
        exact hs
    · exact hget
    · exact hget
    · exact hget
  popped hs := by
    have hs : s.spot.Popped := hs
    rcases hspot : s.spot with p | _ | _
    · rw [hspot] at hp hs
      rcases p with _ | _ | _ | _ | _ | _ | _ | _ | _ | _ | _ <;>
        first | exact hs.elim | exact hp.elim
    · rw [hspot] at hs
      exact hs.elim
    · rw [hspot] at hs
      exact hs.elim

theorem emptied_step (h : Emptied s) (howns : s.Owns) (hd : Does s a t) (hw : Working s a)
    (hfit : WritesFit s a) : Emptied t := by
  cases hd with
  | call c hp hc => exact h.call hp hc hw hfit
  | enter hp => exact ⟨h.writes, False.elim, False.elim⟩
  | swap hp => exact ⟨h.writes, fun _ => rfl, False.elim⟩
  | list hp => exact ⟨h.writes, fun _ => h.swept (by rw [hp]; trivial), False.elim⟩
  | listed hp hc =>
    have haside := EventLoop.decreaseDirRef_aside hc
    exact ⟨haside.parks.trans h.writes, fun _ => haside.1.trans (h.swept (by rw [hp]; trivial)), False.elim⟩
  | listedAll hp => exact ⟨h.writes, fun _ => h.swept (by rw [hp]; trivial), False.elim⟩
  | pop hp hc =>
    have haside := EventLoop.popOverflow_aside hc
    exact ⟨haside.parks.trans h.writes, fun hs => haside.1.trans (h.swept hs),
      fun hs => absurd hs (by rw [hp]; exact id)⟩
  | popped hp hc =>
    obtain ⟨rfl, hempty⟩ := EventLoop.popOverflow_false hc
    exact ⟨h.writes, fun _ => h.swept (by rw [hp]; trivial), fun _ => hempty⟩
  | @drain slot todo hp =>
    refine ⟨h.writes, fun _ => h.swept (by rw [hp]; trivial), fun _ hr => ?_⟩
    have hr' : s.ev.ring.HasSqe := by
      simpa only [EventLoop.drainRead, RequestPool.free_ring, Ring.HasSqe] using hr
    obtain ⟨ho, hc, hreads⟩ := h.popped (by rw [hp]; trivial) hr'
    exact ⟨ho, hc, (RequestPool.free_sqeOverflow _ _ _).trans hreads⟩
  | drained hp =>
    exact ⟨h.writes, fun _ => h.swept (by rw [hp]; trivial), fun _ => h.popped (by rw [hp]; trivial)⟩
  | exit hp hzero | goOn hp hne | submitFails errno hp | submit hp | peek hp hne | sleep hp hnil
  | wake hp hne =>
    exact ⟨h.writes, False.elim, False.elim⟩
  | handle hp hcq =>
    refine ⟨?_, False.elim, False.elim⟩
    rw [EventLoop.before_writes]
    exact h.writes
  | handled hp hc =>
    obtain ⟨-, rfl⟩ := howns.cqe _ _ _ _ hp
    exact ⟨(EventLoop.behind_writes hc hfit).trans h.writes, False.elim, False.elim⟩
  | handlerFails error hp hpos => exact absurd ⟨error, rfl⟩ hw.fails
  | advance hp hend => exact ⟨h.writes, False.elim, False.elim⟩
  | complete res hk => exact ⟨h.writes, h.swept, h.popped⟩
  | freeRead slot hslot => exact ⟨h.writes, h.swept, h.popped⟩

end Steps

/-! ## The return of `pump` -/

/-- The requests that were queued, submitted to the kernel, and dealt with at their completion. -/
def queued (past : List (Moment × Act)) : Multiset Prep :=
  (past.map fun x => EventLoop.preps (x.1.made x.2)).sum

def submitted (past : List (Moment × Act)) : Multiset Prep :=
  (past.map fun x => x.1.submittedBy x.2).sum

def processed (past : List (Moment × Act)) : Multiset Prep := (past.map fun x => Moment.dealt x.2).sum

/-- What holds along a run that meets the conditions. -/
structure Accounted (entries : Nat) (past : List (Moment × Act)) (s : Moment) : Prop where
  owns : s.Owns
  emptied : Emptied s
  aborted : ∀ count e, s.spot ≠ .aborted count e
  capacity : s.ev.ring.entries = entries
  queued : s.pending + processed past = queued past
  submitted : s.transit + processed past = submitted past

theorem accounted_fresh (entries size : Nat) : Accounted entries [] (Moment.fresh entries size) where
  owns := Moment.owns_start entries size
  emptied := ⟨rfl, False.elim, False.elim⟩
  aborted := nofun
  capacity := rfl
  queued := rfl
  submitted := rfl

theorem accounted_step {entries : Nat} {past : List (Moment × Act)} {s t : Moment} {a : Act}
    (h : Accounted entries past s) (hd : Does s a t) (hw : Working s a) (hfit : WritesFit s a) :
    Accounted entries (past ++ [(s, a)]) t := by
  have hre : ¬ Reenters s a := fun ⟨_, count, e, habort⟩ => h.aborted count e habort
  have hmove := ring_step h.owns hd hre
  obtain ⟨howns, hpending⟩ := Moment.owns_step h.owns hd hre
  refine ⟨howns, emptied_step h.emptied h.owns hd hw hfit, ?_, hmove.entries.trans h.capacity, ?_, ?_⟩
  · intro count e ht
    rcases aborted_step hd ht with habort | hfails
    · exact h.aborted count e habort
    · exact hw.fails hfails
  · simp only [Omnipp.Utils.processed, Omnipp.Utils.queued, List.map_append, List.sum_append,
      List.map_cons, List.map_nil, List.sum_cons, List.sum_nil, add_zero]
    have hq := h.queued
    simp only [Omnipp.Utils.processed, Omnipp.Utils.queued] at hq
    rw [← hq, add_right_comm, ← hpending]
    abel
  · simp only [Omnipp.Utils.processed, Omnipp.Utils.submitted, List.map_append, List.sum_append,
      List.map_cons, List.map_nil, List.sum_cons, List.sum_nil, add_zero]
    have hs := h.submitted
    simp only [Omnipp.Utils.processed, Omnipp.Utils.submitted] at hs
    rw [← hs, add_right_comm, ← hmove.transit h.owns.bound]
    abel

theorem accounted_of_run {entries size : Nat} {past : List (Moment × Act)} {s : Moment}
    (h : Run Does (fun s a => Working s a ∧ WritesFit s a) (Moment.fresh entries size) past s) :
    Accounted entries past s :=
  h.invariant (Accounted entries) (accounted_fresh entries size)
    fun _ _ _ _ _ hin hok hd => accounted_step hin hd hok.1 hok.2

/-- Nothing is left to list or to submit, and every request that was queued was submitted once and
dealt with once. -/
structure NothingLeft (past : List (Moment × Act)) (s : Moment) : Prop where
  getdents : s.ev.getdentsQueue = []
  openats : s.ev.openats.sqeOverflow = []
  closes : s.ev.closes.sqeOverflow = []
  reads : s.ev.reads.sqeOverflow = []
  writes : s.ev.writes.sqeOverflow = []
  once : queued past = submitted past
  done : submitted past = processed past

theorem nothingLeft_of_fit {entries size : Nat} (hcap : 0 < entries)
    {past : List (Moment × Act)} {s t : Moment}
    (h : Run Does (fun s a => Working s a ∧ WritesFit s a) (Moment.fresh entries size) past s)
    (hmem : s.ev.objectCount < 2 ^ 64) (hexit : Does s .exit t) : NothingLeft past t := by
  have hacc := accounted_of_run h
  cases hexit with
  | exit hp hzero =>
    have hentries := ring_empty_at_exit (run_without_reentry h fun _ _ hw => hw.1.fails) hmem hzero
    have hsq : s.ev.ring.sq = [] := by
      have hnone := congrArg Multiset.card hentries
      simp only [Ring.entriesWith, Multiset.card_add, Multiset.coe_card, Multiset.card_zero] at hnone
      exact List.length_eq_zero_iff.mp (by omega)
    have hroom : s.ev.ring.HasSqe := by
      rw [Ring.HasSqe, hsq, hacc.capacity]
      exact hcap
    obtain ⟨hopenats, hcloses, hreads⟩ := hacc.emptied.popped (by rw [hp]; trivial) hroom
    have hpending : s.pending = 0 := by
      simp only [Moment.pending, EventLoop.pending, RequestPool.parked, hopenats, hcloses, hreads,
        hacc.emptied.writes, hentries]
      rfl
    have htransit : s.transit = 0 := by
      rw [Ring.entriesWith, hsq, Multiset.coe_nil, zero_add] at hentries
      rw [Moment.transit, hentries]
      rfl
    have hqueued := hacc.queued
    have hsubmitted := hacc.submitted
    rw [hpending, zero_add] at hqueued
    rw [htransit, zero_add] at hsubmitted
    exact ⟨hacc.emptied.swept (by rw [hp]; trivial), hopenats, hcloses, hreads, hacc.emptied.writes,
      hqueued.symm.trans hsubmitted, hsubmitted.symm⟩

/-! ## A write that is parked -/

namespace EventLoop

variable {ev ev' : EventLoop}

theorem queueWrite_ne_nil (ev : EventLoop) (fd : Int) (buffer : Bytes) (offset : UInt64)
    (h : ev.writes.sqeOverflow ≠ [] ∨ ¬ ev.ring.HasSqe) :
    (ev.queueWrite fd buffer offset).writes.sqeOverflow ≠ [] := by
  by_cases hr : ev.ring.HasSqe
  · have hsame := ev.writes.next_sqeOverflow hr fun _ => ⟨fd, offset, buffer⟩
    rw [show (ev.queueWrite fd buffer offset).writes.sqeOverflow = _ from hsame]
    exact h.resolve_right (not_not.mpr hr)
  · simp only [queueWrite, RequestPool.next_eq, if_neg hr]
    exact List.append_ne_nil_of_right_ne_nil _ (List.cons_ne_nil _ _)

theorem call_ne_nil {c : Call} (hc : ev.call c = some ev')
    (h : ev.writes.sqeOverflow ≠ [] ∨ c.IsWrite ∧ ¬ ev.ring.HasSqe) : ev'.writes.sqeOverflow ≠ [] := by
  by_cases hw : c.IsWrite
  · rcases c with _ | _ | _ | _ | ⟨fd, buffer, offset⟩
    · exact hw.elim
    · exact hw.elim
    · exact hw.elim
    · exact hw.elim
    · cases hc
      exact ev.queueWrite_ne_nil fd buffer offset (h.imp_right And.right)
  · rw [call_writes hc fun hwrite => absurd hwrite hw]
    exact h.resolve_right fun hwrite => hw hwrite.1

theorem behind_ne_nil {op : Op} {slot : Slot} {res : Int} (hc : ev.behind op slot res = some ev')
    (h : ev.writes.sqeOverflow ≠ [] ∨
      (∃ c ∈ ev.behindCalls op slot res, c.IsWrite) ∧ ¬ ev.ring.HasSqe) :
    ev'.writes.sqeOverflow ≠ [] := by
  by_cases hw : ∃ c ∈ ev.behindCalls op slot res, c.IsWrite
  · rcases op with _ | _ | _ | _
    · obtain ⟨c, hmem, hwrite⟩ := hw
      simp only [behindCalls, lastRef] at hmem
      split at hmem
      · cases hmem
      · split at hmem
        · rw [List.mem_singleton.mp hmem] at hwrite
          exact hwrite.elim
        · cases hmem
    · obtain ⟨c, hmem, hwrite⟩ := hw
      cases hmem
    · obtain ⟨c, hmem, hwrite⟩ := hw
      simp only [behindCalls] at hmem
      split at hmem
      · rw [List.mem_singleton.mp hmem] at hwrite
        exact hwrite.elim
      · split at hmem
        · rw [List.mem_singleton.mp hmem] at hwrite
          exact hwrite.elim
        · cases hmem
    · have hne : ((ev.writes.objects slot).fields.offset + UInt64.ofInt res).toNat ≠
          (ev.writes.objects slot).fields.buffer.length := by
        intro heq
        obtain ⟨c, hmem, -⟩ := hw
        simp only [behindCalls] at hmem
        rw [if_neg (not_not.mpr heq)] at hmem
        cases hmem
      simp only [behind] at hc
      cases hc
      rw [if_pos hne]
      have hqueued := ev.queueWrite_ne_nil (ev.writes.objects slot).fields.fd
        (ev.writes.objects slot).fields.buffer
        ((ev.writes.objects slot).fields.offset + UInt64.ofInt res) (h.imp_right And.right)
      exact fun hnil => hqueued ((RequestPool.free_sqeOverflow _ _ _).symm.trans hnil)
  · rw [behind_writes hc fun hwrite => absurd hwrite hw]
    exact h.resolve_right fun hwrite => hw hwrite.1

end EventLoop

/-- Nobody takes a write out of `sqe_overflow_`. -/
theorem write_stays_parked {s t : Moment} {a : Act} (howns : s.Owns) (hd : Does s a t)
    (h : s.ev.writes.sqeOverflow ≠ [] ∨ ¬ WritesFit s a) : t.ev.writes.sqeOverflow ≠ [] := by
  have hfit : ∀ {P : Prop}, (¬ ∃ c ∈ s.made a, c.IsWrite) → (s.ev.writes.sqeOverflow ≠ [] → P) → P := by
    intro P hno hP
    refine hP (h.resolve_right fun hbad => ?_)
    exact hbad fun hw => absurd hw hno
  have hnone : s.made a = [] → ¬ ∃ c ∈ s.made a, c.IsWrite := by
    rintro hnil ⟨c, hmem, -⟩
    rw [hnil] at hmem
    cases hmem
  cases hd with
  | call c hp hc =>
    refine EventLoop.call_ne_nil hc (h.imp_right fun hbad => ?_)
    unfold WritesFit at hbad
    push Not at hbad
    obtain ⟨⟨c', hmem, hwrite⟩, hfull⟩ := hbad
    rw [List.mem_singleton.mp hmem] at hwrite
    exact ⟨hwrite, hfull⟩
  | handled hp hc =>
    obtain ⟨-, rfl⟩ := howns.cqe _ _ _ _ hp
    refine EventLoop.behind_ne_nil hc (h.imp_right fun hbad => ?_)
    unfold WritesFit at hbad
    push Not at hbad
    exact hbad
  | listed hp hc =>
    refine hfit ?_ fun hne => by rwa [(EventLoop.decreaseDirRef_aside hc).parks]
    rintro ⟨c, hmem, hwrite⟩
    simp only [Moment.made, EventLoop.lastRef] at hmem
    split at hmem
    · rw [List.mem_singleton.mp hmem] at hwrite
      exact hwrite
    · cases hmem
  | pop hp hc => exact hfit (hnone rfl) fun hne => by rwa [(EventLoop.popOverflow_aside hc).parks]
  | popped hp hc => exact hfit (hnone rfl) fun hne => by rwa [(EventLoop.popOverflow_aside hc).parks]
  | handle hp hcq =>
    refine hfit (hnone rfl) fun hne => ?_
    rwa [EventLoop.before_writes]
  | _ => exact hfit (hnone rfl) id

theorem write_parked_of_run {ok : Moment → Act → Prop} {entries size : Nat}
    {past : List (Moment × Act)} {s : Moment} (h : Run Does ok (Moment.fresh entries size) past s)
    (hok : ∀ s a, ok s a → ¬ a.Fails) {x : Moment × Act} (hx : x ∈ past) (hbad : ¬ WritesFit x.1 x.2) :
    s.ev.writes.sqeOverflow ≠ [] := by
  have hre := run_without_reentry h hok
  clear h hok
  induction hre with
  | nil => cases hx
  | snoc hrun hok hd ih =>
    have howns := Moment.owns_of_run hrun fun _ _ => id
    rcases List.mem_append.mp hx with hx | hx
    · exact write_stays_parked howns hd (.inl (ih hx))
    · rw [List.mem_singleton.mp hx] at hbad
      exact write_stays_parked howns hd (.inr hbad)

/-- When `pump` returns without an error, nothing is left exactly when no write was queued while the
submission queue was full. The objects of the pools are in memory, so there are fewer than 2^64. -/
theorem pump_leaves_nothing_iff_writes_fit {entries size : Nat} (hcap : 0 < entries)
    {past : List (Moment × Act)} {s t : Moment}
    (h : Run Does Working (Moment.fresh entries size) past s) (hmem : s.ev.objectCount < 2 ^ 64)
    (hexit : Does s .exit t) : NothingLeft past t ↔ ∀ x ∈ past, WritesFit x.1 x.2 := by
  constructor
  · intro hleft x hx
    by_contra hbad
    have hparked := write_parked_of_run h (fun _ _ hw => hw.fails) hx hbad
    cases hexit with
    | exit hp hzero => exact hparked hleft.writes
  · intro hfit
    exact nothingLeft_of_fit hcap (h.restrict hfit) hmem hexit

/-- No handler fails, no completion either, and nothing is listed. -/
def Act.plain : Act → Bool
  | .handlerFails _ => false
  | .complete _ res => 0 ≤ res
  | .call (.getdents _) => false
  | _ => true

theorem working_of_plain {s : Moment} {a : Act} (h : a.plain = true) : Working s a where
  fails := by
    rintro ⟨e, rfl⟩
    cases h
  success := by
    rintro sqe res rfl
    simpa [Act.plain] using h
  getdents := by
    rintro fd rfl
    cases h

def Spot.atCheck : Spot → Bool
  | .phase .check => true
  | _ => false

theorem eq_of_atCheck {spot : Spot} (h : spot.atCheck = true) : spot = .phase .check := by
  rcases spot with p | _ | _
  · rcases p with _ | _ | _ | _ | _ | _ | _ | _ | _ | _ | _ <;> first | rfl | cases h
  · cases h
  · cases h

instance (c : EventLoop.Call) : Decidable c.IsWrite :=
  match c with
  | .write _ _ _ => .isTrue trivial
  | .openat _ _ _ | .getdents _ | .close _ | .read _ _ => .isFalse id

instance (s : Moment) (a : Act) : Decidable (WritesFit s a) := inferInstanceAs (Decidable (_ → _))

/-- A queue of one entry. A close waits while a write has it, and both are done in the end. -/
theorem pump_leaves_nothing_behind_a_write :
    ∃ past s t, Run Does Working (Moment.fresh 1 1) past s ∧ s.ev.objectCount < 2 ^ 64 ∧
      Does s .exit t ∧ NothingLeft past t := by
  have hplay : ∃ r ∈ (Moment.fresh 1 1).playAll
      ([.call (.write 1 [120] 0), .call (.close 9)] ++ List.replicate 7 Move.pump ++
        [.complete 0 1] ++ List.replicate 11 Move.pump ++ [.complete 0 0] ++ List.replicate 8 Move.pump),
      (r.2.spot.atCheck = true ∧ r.2.ev.ring.inFlight = 0 ∧ r.2.ev.objectCount < 2 ^ 64) ∧
        (∀ x ∈ r.1, x.2.plain = true) ∧ ∀ x ∈ r.1, WritesFit x.1 x.2 := by
    decide +kernel
  obtain ⟨past, s, hrun, ⟨hcheck, hzero, hmem⟩, -, hfit⟩ :=
    Moment.run_of_play Working hplay fun r hr x hx => working_of_plain (hr.2.1 x hx)
  have hexit := Does.exit (eq_of_atCheck hcheck) hzero
  exact ⟨past, s, _, hrun, hmem, hexit,
    (pump_leaves_nothing_iff_writes_fit Nat.one_pos hrun hmem hexit).mpr hfit⟩

/-- A queue of one entry, a close that fills it, and a write behind it. `pump` returns without an error
when the close is done, and the write was never submitted. -/
theorem parked_write_is_left :
    ∃ past s t, Run Does Working (Moment.fresh 1 1) past s ∧ s.ev.objectCount < 2 ^ 64 ∧
      Does s .exit t ∧ t.ev.writes.sqeOverflow ≠ [] ∧ ¬ NothingLeft past t := by
  have hplay : ∃ r ∈ (Moment.fresh 1 1).playAll
      ([.call (.close 9), .call (.write 1 [120] 0)] ++ List.replicate 7 Move.pump ++
        [.complete 0 0] ++ List.replicate 8 Move.pump),
      (r.2.spot.atCheck = true ∧ r.2.ev.ring.inFlight = 0 ∧ r.2.ev.objectCount < 2 ^ 64 ∧
        r.2.ev.writes.sqeOverflow ≠ []) ∧ ∀ x ∈ r.1, x.2.plain = true := by
    decide +kernel
  obtain ⟨past, s, hrun, ⟨hcheck, hzero, hmem, hparked⟩, -⟩ :=
    Moment.run_of_play Working hplay fun r hr x hx => working_of_plain (hr.2 x hx)
  have hexit := Does.exit (eq_of_atCheck hcheck) hzero
  exact ⟨past, s, _, hrun, hmem, hexit, hparked, fun hleft => hparked hleft.writes⟩

end Omnipp.Utils
