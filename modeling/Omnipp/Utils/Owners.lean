import Omnipp.Utils.Ledger

/-! # One owner for every request

Over every run of the loop in which `pump` is not called again after `read_handler_` failed in it.
-/

open Function Omnipp.History

namespace Omnipp.Utils

def Spot.todo : Spot → List Slot
  | .phase (.drain todo) => todo
  | _ => []

theorem Spot.phase_ne (p : Phase) (count : Nat) (sqe : Sqe) (res : Int) (op : Op) :
    Spot.phase p ≠ .handling count sqe res op := Spot.noConfusion

theorem Spot.aborted_ne (n : Nat) (e : String) (count : Nat) (sqe : Sqe) (res : Int) (op : Op) :
    Spot.aborted n e ≠ .handling count sqe res op := Spot.noConfusion

theorem Spot.Outside.todo_nil {spot : Spot} (h : spot.Outside) : spot.todo = [] := by
  rcases h.split with ⟨last, rfl⟩ | ⟨count, e, rfl⟩ <;> rfl

/-- `pump` is called although `read_handler_` failed in the call before. -/
def Reenters (s : Moment) (a : Act) : Prop := a = .enter ∧ ∃ count e, s.spot = .aborted count e

theorem Spot.Outside.gone_zero {s : Moment} (h : s.spot.Outside) (hre : ¬ Reenters s .enter) :
    s.spot.gone = 0 := by
  rcases h.split with ⟨last, hspot⟩ | habort
  · rw [hspot]
    rfl
  · exact absurd ⟨rfl, habort⟩ hre

theorem Moment.gone_reap {s : Moment} {count : Nat} (hp : s.spot = .phase (.reap count)) :
    s.spot.gone = count := by
  rw [hp]
  rfl

namespace Moment

/-- The entries of the completions that are still to be dealt with. -/
def held (s : Moment) : Multiset Sqe := ↑((s.ev.ring.cq.drop s.spot.gone).map Prod.fst)

/-- How often the read request is out and not in the ring. -/
def outside (s : Moment) (slot : Slot) : Nat :=
  s.handed.count slot + s.ev.readFreeQueue.count slot + s.spot.todo.count slot

def pending (s : Moment) : Multiset Prep := s.ev.pending s.held

/-- The calls that are made in the step, by others and by `pump` itself. -/
def made (s : Moment) : Act → List EventLoop.Call
  | .call c => [c]
  | .listed fd => s.ev.lastRef fd
  | .handled sqe res => s.ev.behindCalls sqe.data.home sqe.data.slot res
  | _ => []

/-- The request of the completion that is dealt with in the step. -/
def dealt : Act → Multiset Prep
  | .handle sqe res => if sqe.data.home = .read ∧ 0 < res then {sqe.prep} else 0
  | .handled sqe res => if sqe.data.home = .read ∧ 0 < res then 0 else {sqe.prep}
  | _ => 0

structure Owns (s : Moment) : Prop where
  sound : ∃ lost : Slot → Nat, s.ev.Sound s.held fun slot => s.outside slot + lost slot
  bound : s.spot.gone ≤ s.ev.ring.cq.length
  cqe : ∀ count sqe res op, s.spot = .handling count sqe res op →
    s.ev.ring.cq[count]? = some (sqe, res) ∧ op = sqe.data.home
  hand : ∀ count sqe res, s.spot = .handling count sqe res .read → 0 < res →
    0 < s.outside sqe.data.slot ∧
      sqe.prep = IsRequest.prep (s.ev.reads.objects sqe.data.slot).fields

theorem owns_start (entries size : Nat) : Owns ⟨(start entries size).ev, .phase (.outside (.ok ())), []⟩ where
  sound := by
    refine ⟨fun _ => 0, ?_, ?_, ?_, ?_⟩
    · exact ⟨RequestPool.owned_make .openat size, fun _ he => absurd he (Multiset.notMem_zero _)⟩
    · exact ⟨RequestPool.owned_make .close size, fun _ he => absurd he (Multiset.notMem_zero _)⟩
    · exact ⟨RequestPool.owned_make .read size, fun _ he => absurd he (Multiset.notMem_zero _)⟩
    · exact ⟨RequestPool.owned_make .write size, fun _ he => absurd he (Multiset.notMem_zero _)⟩
  bound := Nat.le_refl _
  cqe _ _ _ _ h := absurd h (Spot.phase_ne _ _ _ _ _)
  hand _ _ _ h := absurd h (Spot.phase_ne _ _ _ _ _)

section Steps
variable {s t : Moment} {a : Act}

/-- A step of `pump` or of code that calls it, on which no completion is dealt with. -/
theorem Owns.of_queues (h : s.Owns) {qs : Multiset Prep}
    (hq : ∀ away, s.ev.Sound s.held away → EventLoop.Queues s.held away s.ev t.ev qs)
    (hgone : t.spot.gone = s.spot.gone) (htodo : t.spot.todo = s.spot.todo)
    (hhanded : t.handed = s.handed)
    (hspot : ∀ count sqe res op, t.spot = .handling count sqe res op →
      s.spot = .handling count sqe res op) :
    t.Owns ∧ t.pending = s.pending + qs := by
  obtain ⟨lost, hsound⟩ := h.sound
  have hqueues := hq _ hsound
  have hheld : t.held = s.held := by rw [held, held, hqueues.cq, hgone]
  have houtside : t.outside = s.outside := by
    funext slot
    rw [outside, outside, hhanded, hqueues.frees, htodo]
  refine ⟨⟨⟨lost, ?_⟩, ?_, ?_, ?_⟩, ?_⟩
  · rw [hheld, houtside]
    exact hqueues.sound
  · rw [hqueues.cq, hgone]
    exact h.bound
  · intro count sqe res op ht
    rw [hqueues.cq]
    exact h.cqe count sqe res op (hspot _ _ _ _ ht)
  · intro count sqe res ht hpos
    obtain ⟨hout, hprep⟩ := h.hand count sqe res (hspot _ _ _ _ ht) hpos
    rw [houtside, hqueues.reads _ (Nat.add_pos_left hout _)]
    exact ⟨hout, hprep⟩
  · rw [pending, pending, hheld]
    exact hqueues.pending

theorem Owns.of_same (h : s.Owns) (hev : t.ev = s.ev) (hgone : t.spot.gone = s.spot.gone)
    (htodo : t.spot.todo = s.spot.todo) (hhanded : t.handed = s.handed)
    (hspot : ∀ count sqe res op, t.spot ≠ .handling count sqe res op) :
    t.Owns ∧ t.pending = s.pending := by
  have hq : ∀ away, s.ev.Sound s.held away → EventLoop.Queues s.held away s.ev t.ev 0 := by
    intro away hs
    rw [hev]
    exact hs.queues_refl
  have := h.of_queues hq hgone htodo hhanded
    fun count sqe res op ht => absurd ht (hspot count sqe res op)
  rwa [add_zero] at this

theorem held_of_cqe {count : Nat} {sqe : Sqe} {res : Int} {cq : List (Sqe × Int)}
    (hcq : cq[count]? = some (sqe, res)) :
    (↑((cq.drop count).map Prod.fst) : Multiset Sqe) = ↑((cq.drop (count + 1)).map Prod.fst) + {sqe} := by
  obtain ⟨hlt, hget⟩ := List.getElem?_eq_some_iff.mp hcq
  rw [List.drop_eq_getElem_cons hlt, hget, List.map_cons, ← Multiset.cons_coe,
    ← Multiset.singleton_add, add_comm]

theorem Owns.popped (h : s.Owns) {ev : EventLoop} (hp : s.spot = .phase .overflow)
    (hc : s.ev.popOverflow = (false, ev)) :
    Owns { s with ev := { ev with readFreeQueue := [] }, spot := .phase (.drain ev.readFreeQueue) } ∧
      pending { s with ev := { ev with readFreeQueue := [] }
                       spot := .phase (.drain ev.readFreeQueue) } = s.pending := by
  obtain ⟨lost, hsound⟩ := h.sound
  have hqueues := hsound.popOverflow hc
  have hheld : s.held = ↑((ev.ring.cq.drop 0).map Prod.fst) := by
    rw [held, hp, hqueues.cq]
    rfl
  have houtside : s.outside = fun slot => s.handed.count slot + ([].count slot + ev.readFreeQueue.count slot) := by
    funext slot
    rw [outside, hp, hqueues.frees]
    simp [Spot.todo]
  refine ⟨⟨⟨lost, ?_⟩, Nat.zero_le _,
    fun _ _ _ _ h => absurd h (Spot.phase_ne _ _ _ _ _),
    fun _ _ _ h => absurd h (Spot.phase_ne _ _ _ _ _)⟩, ?_⟩
  · have hnow := hqueues.sound
    rw [hheld, houtside] at hnow
    simp only [← Nat.add_assoc] at hnow
    exact ⟨hnow.openats, hnow.closes, hnow.reads, hnow.writes⟩
  · have hpending := hqueues.pending
    rw [hheld, add_zero] at hpending
    rw [pending, pending, hheld, ← hpending]
    rfl

theorem Owns.drain (h : s.Owns) {slot : Slot} {todo : List Slot}
    (hp : s.spot = .phase (.drain (slot :: todo))) :
    Owns { s with ev := s.ev.drainRead slot, spot := .phase (.drain todo) } ∧
      pending { s with ev := s.ev.drainRead slot, spot := .phase (.drain todo) } = s.pending := by
  obtain ⟨lost, hsound⟩ := h.sound
  have hring : (s.ev.drainRead slot).ring.cq = s.ev.ring.cq := by
    simp only [EventLoop.drainRead, RequestPool.free_ring]
  have hfrees : (s.ev.drainRead slot).readFreeQueue = s.ev.readFreeQueue := rfl
  have hheld : s.held = held { s with ev := s.ev.drainRead slot, spot := .phase (.drain todo) } := by
    rw [held, held, hring, hp]
    rfl
  have houtside : (fun x => s.outside x + lost x) = RequestPool.plus (fun x =>
      outside { s with ev := s.ev.drainRead slot, spot := .phase (.drain todo) } x + lost x) slot := by
    funext x
    simp only [outside, hp, Spot.todo, RequestPool.count_cons_eq, hfrees, RequestPool.plus]
    omega
  rw [houtside] at hsound
  have hqueues := hsound.drainRead
  refine ⟨⟨⟨lost, ?_⟩, Nat.zero_le _,
    fun _ _ _ _ h => absurd h (Spot.phase_ne _ _ _ _ _),
    fun _ _ _ h => absurd h (Spot.phase_ne _ _ _ _ _)⟩, ?_⟩
  · rw [← hheld]
    exact hqueues.sound
  · rw [pending, pending, ← hheld]
    simpa using hqueues.pending

/-- Only entries of the ring move. -/
theorem Owns.of_entries (h : s.Owns) {ring : Ring} {spot : Spot}
    (hring : ring.entriesWith (held ⟨{ s.ev with ring }, spot, s.handed⟩) = s.ev.ring.entriesWith s.held)
    (hbound : spot.gone ≤ ring.cq.length) (htodo : spot.todo = s.spot.todo)
    (hcqe : ∀ count sqe res op, spot = .handling count sqe res op →
      s.spot = spot ∧ ring.cq[count]? = s.ev.ring.cq[count]?) :
    Owns ⟨{ s.ev with ring }, spot, s.handed⟩ ∧
      pending ⟨{ s.ev with ring }, spot, s.handed⟩ = s.pending := by
  obtain ⟨lost, hsound⟩ := h.sound
  have hmoved := hsound.of_entries hring
  have houtside : outside ⟨{ s.ev with ring }, spot, s.handed⟩ = s.outside := by
    funext slot
    simp only [outside, htodo]
  refine ⟨⟨⟨lost, ?_⟩, hbound, ?_, ?_⟩, hmoved.2⟩
  · rw [houtside]
    exact hmoved.1
  · intro count sqe res op hspot
    obtain ⟨hsame, hcq⟩ := hcqe count sqe res op hspot
    rw [show Moment.ev ⟨{ s.ev with ring }, spot, s.handed⟩ = { s.ev with ring } from rfl, hcq]
    exact h.cqe count sqe res op (hsame.trans hspot)
  · intro count sqe res hspot hpos
    rw [houtside]
    exact h.hand count sqe res ((hcqe count sqe res _ hspot).1.trans hspot) hpos

theorem Owns.complete (h : s.Owns) {before behind : List Sqe} {sqe : Sqe} (res : Int)
    (hk : s.ev.ring.kernel = before ++ sqe :: behind) :
    let t : Moment := { s with ev := { s.ev with ring := { s.ev.ring with
      kernel := before ++ behind, cq := s.ev.ring.cq ++ [(sqe, res)] } } }
    t.Owns ∧ t.pending = s.pending := by
  have hbound := h.bound
  refine h.of_entries ?_ ?_ rfl ?_
  · simp only [Ring.entriesWith, held, List.drop_append_of_le_length hbound, hk, List.map_append,
      List.map_cons, List.map_nil, ← Multiset.coe_add, ← Multiset.cons_coe, Multiset.coe_nil,
      ← Multiset.singleton_add]
    abel
  · rw [List.length_append]
    omega
  · intro count sqe' res' op hspot
    refine ⟨rfl, List.getElem?_append_left ?_⟩
    have := (h.cqe count sqe' res' op hspot).1
    exact (List.getElem?_eq_some_iff.mp this).1

theorem Owns.freeRead (h : s.Owns) {slot : Slot} (hslot : slot ∈ s.handed) :
    let t : Moment := { s with ev := { s.ev with readFreeQueue := s.ev.readFreeQueue ++ [slot] }
                               handed := s.handed.erase slot }
    t.Owns ∧ t.pending = s.pending := by
  intro t
  obtain ⟨lost, hsound⟩ := h.sound
  have houtside : t.outside = s.outside := by
    funext x
    have hperm := (List.perm_cons_erase hslot).count_eq x
    rw [RequestPool.count_cons_eq] at hperm
    simp only [t, outside, List.count_append, RequestPool.count_cons_eq, List.count_nil, hperm]
    omega
  refine ⟨⟨⟨lost, ?_⟩, h.bound, h.cqe, ?_⟩, rfl⟩
  · rw [houtside]
    exact ⟨hsound.openats, hsound.closes, hsound.reads, hsound.writes⟩
  · rw [houtside]
    exact h.hand

/-- The entry at the head of the batch is among those held. -/
theorem mem_entries_of_cqe {count : Nat} {sqe : Sqe} {res : Int} (hgone : s.spot.gone = count)
    (hcq : s.ev.ring.cq[count]? = some (sqe, res)) : sqe ∈ s.ev.ring.entriesWith s.held := by
  rw [held, hgone, held_of_cqe hcq, Ring.entriesWith]
  simp

theorem Owns.opOf (h : s.Owns) {count : Nat} {sqe : Sqe} {res : Int} (hgone : s.spot.gone = count)
    (hcq : s.ev.ring.cq[count]? = some (sqe, res)) : s.ev.opOf sqe.data = sqe.data.home := by
  obtain ⟨lost, hsound⟩ := h.sound
  exact hsound.opOf (mem_entries_of_cqe hgone hcq)

theorem Owns.prep_of_cqe (h : s.Owns) {count : Nat} {sqe : Sqe} {res : Int} (hgone : s.spot.gone = count)
    (hcq : s.ev.ring.cq[count]? = some (sqe, res)) (hread : sqe.data.home = .read) :
    sqe.prep = IsRequest.prep (s.ev.reads.objects sqe.data.slot).fields := by
  obtain ⟨lost, hsound⟩ := h.sound
  exact hsound.reads.preps sqe (mem_entries_of_cqe hgone hcq) hread

theorem Owns.handle (h : s.Owns) {count : Nat} {sqe : Sqe} {res : Int}
    (hp : s.spot = .phase (.reap count)) (hcq : s.ev.ring.cq[count]? = some (sqe, res)) :
    let t : Moment :=
      { ev := s.ev.before (s.ev.opOf sqe.data) sqe.data.slot res
        spot := .handling count sqe res (s.ev.opOf sqe.data)
        handed := s.handed ++ s.ev.handedBy sqe.data res }
    t.Owns ∧ t.pending + dealt (.handle sqe res) = s.pending := by
  have hgone := gone_reap hp
  have htodo : s.spot.todo = [] := by rw [hp]; rfl
  have hop := h.opOf hgone hcq
  have hlt := (List.getElem?_eq_some_iff.mp hcq).1
  rw [EventLoop.handedBy, hop, EventLoop.before, dealt]
  by_cases hread : sqe.data.home = .read ∧ 0 < res
  · simp only [if_pos hread]
    obtain ⟨lost, hsound⟩ := h.sound
    have hheld : s.held = ↑((s.ev.ring.cq.drop (count + 1)).map Prod.fst) + {sqe} := by
      rw [held, hgone, held_of_cqe hcq]
    rw [hheld] at hsound
    have hprep := hsound.reads.preps sqe (by simp [Ring.entriesWith]) hread.1
    have hlend := hsound.lend hread.1
    obtain ⟨hsound', hpending⟩ := hlend.sound.handRead sqe.data.slot res
    have hnow : held ⟨s.ev.handRead sqe.data.slot res, .handling count sqe res sqe.data.home,
        s.handed ++ [sqe.data.slot]⟩ = ↑((s.ev.ring.cq.drop (count + 1)).map Prod.fst) := by
      simp only [held, Spot.gone, if_pos hread]
      rfl
    have houtside : ∀ x, outside ⟨s.ev.handRead sqe.data.slot res, .handling count sqe res sqe.data.home,
        s.handed ++ [sqe.data.slot]⟩ x = s.outside x + if x = sqe.data.slot then 1 else 0 := by
      intro x
      rw [outside, outside, htodo]
      simp only [Spot.todo, List.count_append, RequestPool.count_cons_eq, List.count_nil,
        EventLoop.handRead]
      omega
    refine ⟨⟨⟨lost, ?_⟩, ?_, ?_, ?_⟩, ?_⟩
    · rw [hnow]
      convert hsound' using 2
      rw [houtside, RequestPool.plus]
      omega
    · simp only [Spot.gone, if_pos hread]
      exact hlt
    · rintro _ _ _ _ ⟨⟩
      exact ⟨hcq, rfl⟩
    · intro _ _ _ heq _
      simp only [Spot.handling.injEq] at heq
      obtain ⟨rfl, rfl, rfl, -⟩ := heq
      rw [houtside, if_pos rfl]
      exact ⟨Nat.succ_pos _, by rw [EventLoop.handRead_prep]; exact hprep⟩
    · rw [pending, pending, hnow, hheld, hpending, hlend.pending, add_zero]
  · simp only [if_neg hread, add_zero, List.append_nil]
    have hheld : held ⟨s.ev, .handling count sqe res sqe.data.home, s.handed⟩ = s.held := by
      simp only [held, Spot.gone, if_neg hread, hp, Phase.handled]
    have houtside : outside ⟨s.ev, .handling count sqe res sqe.data.home, s.handed⟩ = s.outside := by
      funext x
      rw [outside, outside, htodo]
      rfl
    refine ⟨⟨?_, ?_, ?_, ?_⟩, ?_⟩
    · rw [hheld, houtside]
      exact h.sound
    · simp only [Spot.gone, if_neg hread]
      exact Nat.le_of_lt hlt
    · rintro _ _ _ _ ⟨⟩
      exact ⟨hcq, rfl⟩
    · intro _ _ _ heq hpos
      simp only [Spot.handling.injEq] at heq
      obtain ⟨rfl, rfl, rfl, hhome⟩ := heq
      exact absurd ⟨hhome, hpos⟩ hread
    · rw [pending, pending, hheld]

theorem Owns.handled (h : s.Owns) {count : Nat} {sqe : Sqe} {res : Int} {op : Op} {ev : EventLoop}
    (hp : s.spot = .handling count sqe res op)
    (hc : s.ev.behind op sqe.data.slot res = some ev) :
    let t : Moment := { s with ev, spot := .phase (.reap (count + 1)) }
    t.Owns ∧ t.pending + dealt (.handled sqe res) = s.pending + EventLoop.preps (s.made (.handled sqe res)) := by
  intro t
  obtain ⟨hcq, rfl⟩ := h.cqe count sqe res op hp
  have hlt := (List.getElem?_eq_some_iff.mp hcq).1
  have htodo : s.spot.todo = [] := by rw [hp]; rfl
  obtain ⟨lost, hsound⟩ := h.sound
  rw [dealt, made]
  by_cases hread : sqe.data.home = .read ∧ 0 < res
  · simp only [if_pos hread, add_zero]
    rw [hread.1] at hc ⊢
    have hqueues := hsound.behind_handed hread.2 hc
    have hheld : t.held = s.held := by
      simp only [t, held, hqueues.cq, hp, Spot.gone, if_pos hread, Phase.handled]
    have houtside : t.outside = s.outside := by
      funext x
      rw [outside, outside, htodo, hqueues.frees]
      rfl
    refine ⟨⟨⟨lost, ?_⟩, ?_, fun _ _ _ _ h => absurd h (Spot.phase_ne _ _ _ _ _),
      fun _ _ _ h => absurd h (Spot.phase_ne _ _ _ _ _)⟩, ?_⟩
    · rw [hheld, houtside]
      exact hqueues.sound
    · exact le_of_le_of_eq hlt (congrArg List.length hqueues.cq.symm)
    · rw [pending, pending, hheld]
      exact hqueues.pending
  · simp only [if_neg hread]
    have hheld : s.held = ↑((s.ev.ring.cq.drop (count + 1)).map Prod.fst) + {sqe} := by
      simp only [held, hp, Spot.gone, if_neg hread]
      exact held_of_cqe hcq
    rw [hheld] at hsound
    have hsettles := hsound.behind hread hc
    have hnow : t.held = ↑((s.ev.ring.cq.drop (count + 1)).map Prod.fst) := by
      simp only [t, held, hsettles.cq, Spot.gone, Phase.handled]
    have houtside : t.outside = s.outside := by
      funext x
      rw [outside, outside, htodo, hsettles.frees]
      rfl
    refine ⟨⟨?_, ?_, fun _ _ _ _ h => absurd h (Spot.phase_ne _ _ _ _ _),
      fun _ _ _ h => absurd h (Spot.phase_ne _ _ _ _ _)⟩, ?_⟩
    · rw [hnow, houtside]
      have hfinal := hsettles.sound
      split at hfinal
      · refine ⟨RequestPool.plus lost sqe.data.slot, ?_⟩
        convert hfinal using 2
        simp only [RequestPool.plus]
        omega
      · exact ⟨lost, hfinal⟩
    · exact le_of_le_of_eq hlt (congrArg List.length hsettles.cq.symm)
    · rw [pending, pending, hnow, hheld]
      exact hsettles.pending

/-- Whoever moves: every request keeps one owner, and what is pending grows by what is queued and
shrinks by what is dealt with. -/
theorem owns_step (h : s.Owns) (hd : Does s a t) (hre : ¬ Reenters s a) :
    t.Owns ∧ t.pending + dealt a = s.pending + EventLoop.preps (s.made a) := by
  have still {u : Moment} (hu : u.Owns ∧ u.pending = s.pending) :
      u.Owns ∧ u.pending + 0 = s.pending + EventLoop.preps [] :=
    ⟨hu.1, by rw [EventLoop.preps_nil, hu.2]⟩
  cases hd with
  | @call ev c hp hc =>
    have := h.of_queues (t := { s with ev }) (fun away hs => hs.call hc) rfl rfl rfl
      fun _ _ _ _ => id
    simpa [dealt, made] using this
  | enter hp =>
    exact still (h.of_same rfl (hp.gone_zero hre).symm hp.todo_nil.symm rfl (Spot.phase_ne _))
  | swap hp =>
    have := h.of_queues
      (t := { s with ev := { s.ev with getdentsQueue := [] }
                     spot := .phase (.listing s.ev.getdentsQueue) })
      (fun away hs => hs.getdents []) (by rw [hp]; rfl) (by rw [hp]; rfl) rfl
      fun _ _ _ _ h => absurd h (Spot.phase_ne _ _ _ _ _)
    simpa [dealt, made] using this
  | @list fd todo hp =>
    have := h.of_queues
      (t := { s with ev := { s.ev with dirRefCount := update s.ev.dirRefCount fd (some 1) }
                     spot := .phase (.inListing fd todo) })
      (fun away hs => hs.dirRefs _) (by rw [hp]; rfl) (by rw [hp]; rfl) rfl
      fun _ _ _ _ h => absurd h (Spot.phase_ne _ _ _ _ _)
    simpa [dealt, made] using this
  | @listed fd todo ev hp hc =>
    have := h.of_queues (t := { s with ev, spot := .phase (.listing todo) })
      (fun away hs => hs.decreaseDirRef hc) (by rw [hp]; rfl) (by rw [hp]; rfl) rfl
      fun _ _ _ _ h => absurd h (Spot.phase_ne _ _ _ _ _)
    simpa [dealt, made] using this
  | listedAll hp => exact still (h.of_same rfl (by rw [hp]; rfl) (by rw [hp]; rfl) rfl (Spot.phase_ne _))
  | @pop ev hp hc =>
    have := h.of_queues (t := { s with ev }) (fun away hs => hs.popOverflow hc) rfl rfl rfl
      fun _ _ _ _ => id
    simpa [dealt, made] using this
  | popped hp hc => exact still (h.popped hp hc)
  | drain hp => exact still (h.drain hp)
  | drained hp | exit hp hzero | goOn hp hne =>
    exact still (h.of_same rfl (by rw [hp]; rfl) (by rw [hp]; rfl) rfl (Spot.phase_ne _))
  | submitFails errno hp =>
    exact still (h.of_same rfl (by rw [hp]; rfl) (by rw [hp]; rfl) rfl (Spot.phase_ne _))
  | submit hp =>
    refine still (h.of_entries ?_ (Nat.zero_le _) (by rw [hp]; rfl)
      fun _ _ _ _ h => absurd h (Spot.phase_ne _ _ _ _ _))
    simp only [Ring.entriesWith, Ring.submitted, held, hp, Spot.gone, Phase.handled,
      ← Multiset.coe_add, Multiset.coe_nil]
    abel
  | peek hp hne | sleep hp hnil | wake hp hne =>
    exact still (h.of_same rfl (by rw [hp]; rfl) (by rw [hp]; rfl) rfl (Spot.phase_ne _))
  | handle hp hcq =>
    obtain ⟨howns, hpending⟩ := h.handle hp hcq
    exact ⟨howns, hpending.trans (add_zero _).symm⟩
  | handled hp hc => exact h.handled hp hc
  | handlerFails error hp hpos =>
    refine still (h.of_same rfl ?_ (by rw [hp]; rfl) rfl (Spot.aborted_ne _ _))
    rw [hp]
    exact (if_pos ⟨rfl, hpos⟩).symm
  | @advance count hp hend =>
    refine still (h.of_entries ?_ (Nat.zero_le _) (by rw [hp]; rfl)
      fun _ _ _ _ h => absurd h (Spot.phase_ne _ _ _ _ _))
    simp only [Ring.entriesWith, held, hp, Spot.gone, Phase.handled, List.drop_zero]
  | complete res hk => exact still (h.complete res hk)
  | freeRead slot hslot => exact still (h.freeRead hslot)

/-- The ledger, for the requests of one kind. -/
theorem filter_step (p : Prep → Prop) [DecidablePred p] (h : s.Owns) (hd : Does s a t)
    (hre : ¬ Reenters s a) :
    t.pending.filter p + (dealt a).filter p =
      s.pending.filter p + (EventLoop.preps (s.made a)).filter p := by
  rw [← Multiset.filter_add, ← Multiset.filter_add, (owns_step h hd hre).2]

/-- What the object of the completion says, in the handler and behind it. -/
theorem Owns.held_mem (h : s.Owns) {count : Nat} {sqe : Sqe} {res : Int} {op : Op}
    (hp : s.spot = .handling count sqe res op) (hread : ¬ (op = .read ∧ 0 < res)) :
    sqe ∈ s.ev.ring.entriesWith s.held := by
  refine mem_entries_of_cqe ?_ (h.cqe count sqe res op hp).1
  rw [hp, Spot.gone, if_neg hread]

theorem Owns.prep_openat (h : s.Owns) {count : Nat} {sqe : Sqe} {res : Int}
    (hp : s.spot = .handling count sqe res .openat) :
    sqe.prep = IsRequest.prep (s.ev.openats.objects sqe.data.slot).fields := by
  obtain ⟨lost, hsound⟩ := h.sound
  exact hsound.openats.preps sqe (h.held_mem hp (by simp)) (h.cqe _ _ _ _ hp).2.symm

theorem Owns.prep_close (h : s.Owns) {count : Nat} {sqe : Sqe} {res : Int}
    (hp : s.spot = .handling count sqe res .close) :
    sqe.prep = IsRequest.prep (s.ev.closes.objects sqe.data.slot).fields := by
  obtain ⟨lost, hsound⟩ := h.sound
  exact hsound.closes.preps sqe (h.held_mem hp (by simp)) (h.cqe _ _ _ _ hp).2.symm

theorem Owns.prep_read (h : s.Owns) {count : Nat} {sqe : Sqe} {res : Int}
    (hp : s.spot = .handling count sqe res .read) :
    sqe.prep = IsRequest.prep (s.ev.reads.objects sqe.data.slot).fields := by
  by_cases hpos : 0 < res
  · exact (h.hand count sqe res hp hpos).2
  · obtain ⟨lost, hsound⟩ := h.sound
    exact hsound.reads.preps sqe (h.held_mem hp (by simp [hpos])) (h.cqe _ _ _ _ hp).2.symm

theorem Owns.prep_write (h : s.Owns) {count : Nat} {sqe : Sqe} {res : Int}
    (hp : s.spot = .handling count sqe res .write) :
    sqe.prep = IsRequest.prep (s.ev.writes.objects sqe.data.slot).fields := by
  obtain ⟨lost, hsound⟩ := h.sound
  exact hsound.writes.preps sqe (h.held_mem hp (by simp)) (h.cqe _ _ _ _ hp).2.symm

end Steps

/-- The loop before anything was called. -/
def fresh (entries size : Nat) : Moment := ⟨(start entries size).ev, .phase (.outside (.ok ())), []⟩

theorem owns_of_run {entries size : Nat} {ok : Moment → Act → Prop} {past : List (Moment × Act)}
    {s : Moment} (h : Run Does ok (fresh entries size) past s) (hok : ∀ s a, ok s a → ¬ Reenters s a) :
    s.Owns :=
  h.keeps Owns (owns_start entries size) fun _ _ _ hs ha hd => (owns_step hs hd (hok _ _ ha)).1

end Moment

end Omnipp.Utils
