import Omnipp.Utils.Pump

/-! # What `in_flight_` counts -/

open Relation

namespace Omnipp.Utils

namespace EventLoop

variable {ev ev' : EventLoop}

/-! ## What the parts of `pump` do to the ring -/

theorem queueClose_grew (ev : EventLoop) (fd : Int) : Ring.Grew 0 ev.ring (ev.queueClose fd).ring :=
  ev.closes.next_grew ev.ring _

theorem queueRead_grew (ev : EventLoop) (fd : Int) (offset : UInt64) :
    Ring.Grew 0 ev.ring (ev.queueRead fd offset).ring :=
  ev.reads.next_grew ev.ring _

theorem queueWrite_grew (ev : EventLoop) (fd : Int) (buffer : Bytes) (offset : UInt64) :
    Ring.Grew 0 ev.ring (ev.queueWrite fd buffer offset).ring :=
  ev.writes.next_grew ev.ring _

theorem increaseDirRef_ring {fd : Int} (h : ev.increaseDirRef fd = some ev') : ev'.ring = ev.ring := by
  simp only [increaseDirRef, Option.map_eq_some_iff] at h
  obtain ⟨n, -, rfl⟩ := h
  rfl

theorem decreaseDirRef_grew {fd : Int} (h : ev.decreaseDirRef fd = some ev') :
    Ring.Grew 0 ev.ring ev'.ring := by
  unfold decreaseDirRef at h
  split at h
  · cases h
  · cases h
  · cases h
    exact ev.queueClose_grew fd
  · cases h
    exact ev.ring.grew_refl

theorem queueOpenat_grew {parentFd : Int} {path : String} {flags : Nat}
    (h : ev.queueOpenat parentFd path flags = some ev') : Ring.Grew 0 ev.ring ev'.ring := by
  unfold queueOpenat at h
  split at h
  · cases h
    exact ev.openats.next_grew ev.ring _
  · split at h
    · simp only [Option.map_eq_some_iff] at h
      obtain ⟨mid, hmid, rfl⟩ := h
      rw [← increaseDirRef_ring hmid]
      exact mid.openats.next_grew mid.ring _
    · cases h

theorem call_grew {c : Call} (h : ev.call c = some ev') : Ring.Grew 0 ev.ring ev'.ring := by
  cases c with
  | openat parentFd path flags => exact queueOpenat_grew h
  | getdents fd =>
    cases h
    exact ev.ring.grew_refl
  | close fd =>
    cases h
    exact ev.queueClose_grew fd
  | read fd offset =>
    cases h
    exact ev.queueRead_grew fd offset
  | write fd buffer offset =>
    cases h
    exact ev.queueWrite_grew fd buffer offset

theorem handle_grew {calls : List Call} (h : ev.handle calls = some ev') :
    Ring.Grew 0 ev.ring ev'.ring := by
  induction calls generalizing ev with
  | nil =>
    simp only [handle, List.foldlM_nil, Option.pure_def, Option.some.injEq] at h
    rw [h]
    exact ev'.ring.grew_refl
  | cons c calls ih =>
    simp only [handle, List.foldlM_cons, Option.bind_eq_bind, Option.bind_eq_some_iff] at h
    obtain ⟨mid, hmid, h⟩ := h
    exact (call_grew hmid).zero_trans (ih h)

theorem popOverflow_grew {popped : Bool} (h : ev.popOverflow = (popped, ev')) :
    Ring.Grew 0 ev.ring ev'.ring := by
  unfold popOverflow at h
  have hopen := ev.openats.tryPopOverflow_grew ev.ring
  have hclose := ev.closes.tryPopOverflow_grew ev.ring
  have hread := ev.reads.tryPopOverflow_grew ev.ring
  split at h
  · rename_i heq
    rw [heq] at hopen
    cases h
    exact hopen
  · split at h
    · rename_i heq
      rw [heq] at hclose
      cases h
      exact hclose
    · split at h
      · rename_i heq
        rw [heq] at hread
        cases h
        exact hread
      · cases h
        exact ev.ring.grew_refl

theorem drainRead_grew (ev : EventLoop) (slot : Slot) : Ring.Grew 0 ev.ring (ev.drainRead slot).ring := by
  have hfree := ev.reads.free_grew ev.ring slot
  have hplus : Ring.Grew 1 (ev.reads.free ev.ring slot).2 (ev.drainRead slot).ring :=
    ⟨rfl, rfl, rfl, [], (List.append_nil _).symm, by simp [drainRead]⟩
  have := hfree.trans hplus
  rwa [show (-1 + 1 : UInt64) = 0 by decide] at this

theorem onOpenat_grew {slot : Slot} {res : Int} {calls : List Call}
    (h : ev.onOpenat slot res calls = some ev') : Ring.Grew (-1) ev.ring ev'.ring := by
  simp only [onOpenat, Option.bind_eq_bind, Option.bind_eq_some_iff, Option.pure_def,
    Option.some.injEq] at h
  obtain ⟨mid, hmid, last, hlast, rfl⟩ := h
  have hhandler : Ring.Grew 0 ev.ring mid.ring := by
    split at hmid
    · exact handle_grew hmid
    · cases hmid
      exact ev.ring.grew_refl
  have hparent : Ring.Grew 0 mid.ring last.ring := by
    split at hlast
    · cases hlast
      exact mid.ring.grew_refl
    · exact decreaseDirRef_grew hlast
  exact (hhandler.zero_trans hparent).zero_trans (last.openats.free_grew last.ring slot)

theorem onClose_grew {slot : Slot} {calls : List Call} (h : ev.onClose slot calls = some ev') :
    Ring.Grew (-1) ev.ring ev'.ring := by
  simp only [onClose, Option.bind_eq_bind, Option.bind_eq_some_iff, Option.pure_def,
    Option.some.injEq] at h
  obtain ⟨mid, hmid, rfl⟩ := h
  exact (handle_grew hmid).zero_trans (mid.closes.free_grew mid.ring slot)

theorem onRead_grew {slot : Slot} {res : Int} {calls : List Call} (hres : 0 ≤ res)
    (h : ev.onRead slot res calls = some ev') : Ring.Grew (-1) ev.ring ev'.ring := by
  unfold onRead at h
  split at h
  · cases h
    exact (ev.queueClose_grew _).zero_trans (RequestPool.free_grew _ _ slot)
  · split at h
    · simp only [Option.bind_eq_bind, Option.bind_eq_some_iff, Option.pure_def,
        Option.some.injEq] at h
      obtain ⟨mid, hmid, rfl⟩ := h
      have hhand : Ring.Grew (-1) ev.ring (ev.handRead slot res).ring :=
        ⟨rfl, rfl, rfl, [], by simp [handRead], by simp [handRead, UInt64.sub_eq_add_neg]⟩
      exact (hhand.trans_zero (handle_grew hmid)).trans_zero (mid.queueRead_grew _ _)
    · omega

theorem onWrite_grew {slot : Slot} {res : Int} {calls : List Call}
    (h : ev.onWrite slot res calls = some ev') : Ring.Grew (-1) ev.ring ev'.ring := by
  simp only [onWrite, Option.bind_eq_bind, Option.bind_eq_some_iff, Option.pure_def,
    Option.some.injEq] at h
  obtain ⟨mid, hmid, rfl⟩ := h
  refine (handle_grew hmid).zero_trans ?_
  split
  · exact (mid.queueWrite_grew _ _ _).zero_trans (RequestPool.free_grew _ _ slot)
  · exact RequestPool.free_grew _ _ slot

/-- Every completion takes one off, except that of a read that failed. -/
theorem dispatch_grew {ptr : Ptr} {res : Int} {calls : List Call}
    (hread : ¬ (ev.opOf ptr = .read ∧ res < 0)) (h : ev.dispatch ptr res calls = some ev') :
    Ring.Grew (-1) ev.ring ev'.ring := by
  unfold dispatch at h
  split at h
  · exact onOpenat_grew h
  · exact onClose_grew h
  · rename_i hop
    exact onRead_grew (by by_contra hneg; exact hread ⟨hop, by omega⟩) h
  · exact onWrite_grew h

end EventLoop

/-! ## The invariant -/

/-- The completion of a read that failed is handled in this step. -/
def LosesRead (s t : Sys) : Prop :=
  ∃ count sqe res, s.phase = .reap count ∧ t.phase = .reap (count + 1) ∧
    s.ev.ring.cq[count]? = some (sqe, res) ∧ s.ev.opOf sqe.data = .read ∧ res < 0

/-- No handler fails, and no failed read is completed. -/
def Allowed (s t : Sys) : Prop := ¬ LosesRead s t ∧ ¬ HandlerFails s t

/-- `in_flight_` was found not to be 0 in this iteration. -/
def Phase.Busy : Phase → Prop
  | .submit | .peek | .wait => True
  | _ => False

/-- Everything was submitted in this iteration. -/
def Phase.Sent : Phase → Prop
  | .peek | .wait => True
  | _ => False

structure Counted (s : Sys) : Prop where
  count : s.ev.ring.inFlight = UInt64.ofNat s.outstanding
  bound : s.phase.handled ≤ s.ev.ring.cq.length
  busy : s.phase.Busy → s.ev.ring.inFlight ≠ 0
  sent : s.phase.Sent → s.ev.ring.sq = []

theorem counted_start (entries size : Nat) : Counted (start entries size) :=
  ⟨rfl, Nat.le_refl _, fun h => h.elim, fun h => h.elim⟩

section Steps
variable {s t : Sys}

theorem Counted.of_ring (h : Counted s) (hring : t.ev.ring = s.ev.ring)
    (hhandled : t.phase.handled = s.phase.handled) (hbusy : t.phase.Busy → s.ev.ring.inFlight ≠ 0)
    (hsent : t.phase.Sent → s.ev.ring.sq = []) : Counted t where
  count := by
    rw [Sys.outstanding, hring, hhandled]
    exact h.count
  bound := by
    rw [hring, hhandled]
    exact h.bound
  busy := by
    rw [hring]
    exact hbusy
  sent := by
    rw [hring]
    exact hsent

theorem inFlight_of_grew {c : UInt64} {r r' : Ring} {n : Nat} (h : Ring.Grew c r r')
    (hr : r.inFlight = UInt64.ofNat (r.sq.length + r.kernel.length + n)) :
    r'.inFlight = UInt64.ofNat (r'.sq.length + r'.kernel.length + n) + c := by
  obtain ⟨-, hk, -, more, hsq, hin⟩ := h
  rw [hin, hr, hsq, hk, List.length_append, ← UInt64.ofNat_add]
  congr 2
  omega

theorem Counted.of_grew (h : Counted s) (hg : Ring.Grew 0 s.ev.ring t.ev.ring)
    (hhandled : t.phase.handled = s.phase.handled) (hbusy : ¬ t.phase.Busy) (hsent : ¬ t.phase.Sent) :
    Counted t where
  count := by
    have := inFlight_of_grew hg h.count
    rw [UInt64.add_zero] at this
    rw [this, Sys.outstanding, hhandled, hg.2.2.1]
  bound := by
    rw [hhandled, hg.2.2.1]
    exact h.bound
  busy hb := absurd hb hbusy
  sent hs := absurd hs hsent

theorem Counted.of_reap (h : Counted s) {count : Nat} {x : Sqe × Int} (hp : s.phase = .reap count)
    (hcq : s.ev.ring.cq[count]? = some x) (hg : Ring.Grew (-1) s.ev.ring t.ev.ring)
    (ht : t.phase = .reap (count + 1)) : Counted t := by
  have hlt : count < s.ev.ring.cq.length := (List.getElem?_eq_some_iff.mp hcq).1
  have hsplit : s.ev.ring.cq.length - count = s.ev.ring.cq.length - (count + 1) + 1 := by omega
  refine ⟨?_, ?_, ?_, ?_⟩
  · have hin := inFlight_of_grew hg h.count
    rw [hp, Phase.handled, hsplit, ← Nat.add_assoc, UInt64.ofNat_add] at hin
    rw [hin, Sys.outstanding, ht, Phase.handled, hg.2.2.1, UInt64.add_assoc,
      show UInt64.ofNat 1 + -1 = 0 by decide, UInt64.add_zero]
  · rw [ht, hg.2.2.1]
    exact hlt
  · rw [ht]
    exact fun hb => hb.elim
  · rw [ht]
    exact fun hs => hs.elim

theorem Counted.complete (h : Counted s) {before behind : List Sqe} {sqe : Sqe} (res : Int)
    (hk : s.ev.ring.kernel = before ++ sqe :: behind) :
    Counted { s with ev := { s.ev with ring := { s.ev.ring with
      kernel := before ++ behind, cq := s.ev.ring.cq ++ [(sqe, res)] } } } := by
  have hbound := h.bound
  refine ⟨?_, ?_, h.busy, h.sent⟩
  · have hcount := h.count
    simp only [Sys.outstanding, hk, List.length_append, List.length_cons] at hcount ⊢
    rw [hcount]
    congr 1
    simp only [List.length_nil]
    omega
  · simp only [List.length_append]
    omega

theorem counted_step (h : Counted s) (hs : Step s t) (ha : Allowed s t) : Counted t := by
  cases hs with
  | call c hp hc =>
    exact h.of_grew (EventLoop.call_grew hc) rfl (by rw [hp]; exact id) (by rw [hp]; exact id)
  | enter hp | swap hp | list hp =>
    exact h.of_ring rfl (by rw [hp]; rfl) False.elim False.elim
  | entry calls hp hc =>
    exact h.of_grew (EventLoop.handle_grew hc) rfl (by rw [hp]; exact id) (by rw [hp]; exact id)
  | listed hp hc => exact h.of_grew (EventLoop.decreaseDirRef_grew hc) (by rw [hp]; rfl) id id
  | listedAll hp => exact h.of_ring rfl (by rw [hp]; rfl) False.elim False.elim
  | pop hp hc =>
    exact h.of_grew (EventLoop.popOverflow_grew hc) rfl (by rw [hp]; exact id) (by rw [hp]; exact id)
  | popped hp hc =>
    have hg := EventLoop.popOverflow_grew hc
    exact h.of_grew hg (by rw [hp]; rfl) id id
  | drain hp => exact h.of_grew (s.ev.drainRead_grew _) (by rw [hp]; rfl) id id
  | drained hp => exact h.of_ring rfl (by rw [hp]; rfl) False.elim False.elim
  | exit hp hzero => exact h.of_ring rfl (by rw [hp]; rfl) False.elim False.elim
  | goOn hp hne => exact h.of_ring rfl (by rw [hp]; rfl) (fun _ => hne) False.elim
  | submitFails errno hp => exact h.of_ring rfl (by rw [hp]; rfl) False.elim False.elim
  | submit hp =>
    have hcount := h.count
    have hbusy := h.busy (by rw [hp]; trivial)
    refine ⟨?_, Nat.zero_le _, fun _ => hbusy, fun _ => rfl⟩
    simp only [Sys.outstanding, hp, Phase.handled] at hcount
    simp only [Sys.outstanding, Ring.submitted, Phase.handled, hcount, List.length_nil,
      List.length_append]
    congr 1
    omega
  | peek hp hne => exact h.of_ring rfl (by rw [hp]; rfl) False.elim False.elim
  | sleep hp hnil =>
    exact h.of_ring rfl (by rw [hp]; rfl) (fun _ => h.busy (by rw [hp]; trivial))
      fun _ => h.sent (by rw [hp]; trivial)
  | wake hp hne => exact h.of_ring rfl (by rw [hp]; rfl) False.elim False.elim
  | reap calls hp hcq hc =>
    refine h.of_reap hp hcq (EventLoop.dispatch_grew ?_ hc) rfl
    rintro ⟨hop, hneg⟩
    exact ha.1 ⟨_, _, _, hp, rfl, hcq, hop, hneg⟩
  | handlerFails calls error hp hcq hop hpos hc => exact absurd ⟨_, _, hp, rfl⟩ ha.2
  | advance hp hend =>
    have hlen : s.ev.ring.cq.length ≤ _ := List.getElem?_eq_none_iff.mp hend
    refine ⟨?_, Nat.zero_le _, False.elim, False.elim⟩
    have hcount := h.count
    simp only [Sys.outstanding, hp, Phase.handled] at hcount
    simp only [Sys.outstanding, Phase.handled, hcount, List.length_drop]
    rfl
  | complete res hk => exact h.complete res hk
  | freeRead slot hslot => exact h.of_ring rfl rfl h.busy h.sent

end Steps

/-- In every run in which no handler fails and no failed read is completed, `in_flight_` is the
number of outstanding requests. So `pump` leaves when there are none, and waits only while the kernel
holds a request or has completed one. -/
theorem in_flight_counts_outstanding {entries size : Nat} {s : Sys}
    (h : Runs Allowed (start entries size) s) :
    s.ev.ring.inFlight = UInt64.ofNat s.outstanding ∧
    (s.phase = .check → s.outstanding = 0 → s.ev.ring.inFlight = 0) ∧
    (s.phase = .wait → s.ev.ring.kernel ≠ [] ∨ s.ev.ring.cq ≠ []) := by
  have hs : Counted s := by
    induction h with
    | refl => exact counted_start entries size
    | tail _ hstep ih => exact counted_step ih hstep.1 hstep.2
  refine ⟨hs.count, fun _ hzero => ?_, fun hp => ?_⟩
  · rw [hs.count, hzero]
    rfl
  · by_contra hcon
    simp only [not_or, not_not] at hcon
    have hbusy := hs.busy (by rw [hp]; trivial)
    rw [hs.count, Sys.outstanding, hs.sent (by rw [hp]; trivial), hcon.1, hcon.2] at hbusy
    exact hbusy (by simp)

theorem allowed_of_not_reap {s t : Sys} (h : ∀ count, s.phase ≠ .reap count) : Allowed s t := by
  constructor
  · rintro ⟨count, _, _, hp, _⟩
    exact h count hp
  · rintro ⟨count, _, hp, _⟩
    exact h count hp

/-- The completion that is handled is not that of a failed request. -/
theorem allowed_of_reap {s t : Sys} {count : Nat} (hp : s.phase = .reap count)
    (hres : ∀ x, s.ev.ring.cq[count]? = some x → 0 ≤ x.2) (ht : ∀ e, t.phase ≠ .outside (.error e)) :
    Allowed s t := by
  refine ⟨?_, fun ⟨_, e, _, he⟩ => ht e he⟩
  rintro ⟨n, sqe, res, hn, -, hcq, -, hneg⟩
  rw [hp] at hn
  cases hn
  exact absurd (hres _ hcq) (Int.not_le.mpr hneg)

theorem Runs.next {a s t : Sys} (h : Runs Allowed a s) (hs : Step s t)
    (hp : ∀ count, s.phase ≠ .reap count) : Runs Allowed a t :=
  ReflTransGen.tail h ⟨hs, allowed_of_not_reap hp⟩

theorem Runs.next_of_reap {a s t : Sys} (h : Runs Allowed a s) (hs : Step s t) {count : Nat}
    (hp : s.phase = .reap count) (hres : ∀ x, s.ev.ring.cq[count]? = some x → 0 ≤ x.2)
    (ht : ∀ e, t.phase ≠ .outside (.error e)) : Runs Allowed a t :=
  ReflTransGen.tail h ⟨hs, allowed_of_reap hp hres ht⟩

/-- Ten bytes are read from a file and handed over. The request is freed and drained while the rest is
read, and at the end of the file its close is queued. -/
theorem in_flight_counts_a_short_file : ∃ s, Runs Allowed (start 1 1) s ∧ s.phase = .top ∧
    s.outstanding = 1 ∧ s.ev.ring.inFlight = UInt64.ofNat s.outstanding := by
  have hcall : Runs Allowed (start 1 1) ⟨(start 1 1).ev.queueRead 3 0, .outside (.ok ()), []⟩ :=
    .single ⟨.call (.read 3 0) rfl rfl, allowed_of_not_reap nofun⟩
  have htop := hcall.next (.enter rfl) nofun
  have hlisted := (htop.next (.swap rfl) nofun).next (.listedAll rfl) nofun
  have hdrained := (hlisted.next (.popped rfl rfl) nofun).next (.drained rfl) nofun
  have hsent := (hdrained.next (.goOn rfl (by decide)) nofun).next (.submit rfl) nofun
  have hread := hsent.next (@Step.complete _ [] _ _ 10 rfl) nofun
  have hbatch := hread.next (.peek rfl (List.cons_ne_nil _ _)) nofun
  have hhanded := hbatch.next_of_reap (.reap [] rfl rfl rfl) rfl (by rintro x ⟨⟩; decide) nofun
  have htop' := hhanded.next_of_reap (.advance rfl rfl) rfl nofun nofun
  have hfreed := htop'.next (.freeRead _ List.mem_cons_self) nofun
  have hlisted' := (hfreed.next (.swap rfl) nofun).next (.listedAll rfl) nofun
  have hdrain := (hlisted'.next (.popped rfl rfl) nofun).next (.drain rfl) nofun
  have hdrained' := hdrain.next (.drained rfl) nofun
  have hsent' := (hdrained'.next (.goOn rfl (by decide)) nofun).next (.submit rfl) nofun
  have hend := hsent'.next (@Step.complete _ [] _ _ 0 rfl) nofun
  have hbatch' := hend.next (.peek rfl (List.cons_ne_nil _ _)) nofun
  have hclose := hbatch'.next_of_reap (.reap [] rfl rfl rfl) rfl (by rintro x ⟨⟩; decide) nofun
  have htop'' := hclose.next_of_reap (.advance rfl rfl) rfl nofun nofun
  exact ⟨_, htop'', rfl, rfl, (in_flight_counts_outstanding htop'').1⟩

/-! ## A read that fails -/

theorem RequestPool.next_make {ρ : Type} [IsRequest ρ] (op : Op) (size : Nat) {r : Ring}
    (hr : r.HasSqe) (reset : ρ → ρ) :
    ∃ slot prep, ((RequestPool.make op size).next r reset).2 = r.push ⟨⟨op, slot⟩, prep⟩ ∧
      (((RequestPool.make op size).next r reset).1.objects slot).op = op ∧
      ((RequestPool.make op size).next r reset).1.sqeOverflow = [] := by
  have hgrab : ∃ slot p, (RequestPool.make op size : RequestPool ρ).grab = (slot, p) ∧ p.op = op ∧
      (p.objects slot).op = op ∧ p.sqeOverflow = [] := by
    unfold RequestPool.grab
    split
    · rename_i slot rest hfree
      have hmem : slot ∈ (RequestPool.make op size : RequestPool ρ).freeList := by simp [hfree]
      simp only [RequestPool.make, List.mem_reverse, List.mem_map] at hmem
      obtain ⟨i, -, rfl⟩ := hmem
      exact ⟨_, _, rfl, rfl, rfl, rfl⟩
    · exact ⟨_, _, rfl, rfl, by simp [RequestPool.make], rfl⟩
  obtain ⟨slot, p, hp, hop, hobj, hover⟩ := hgrab
  subst hop
  refine ⟨slot, IsRequest.prep (reset (p.objects slot).fields), ?_⟩
  simp [RequestPool.next, hp, hr, RequestPool.submit, hobj, hover]

/-- Nothing waits to be listed, popped or freed. -/
structure EventLoop.Quiet (ev : EventLoop) : Prop where
  openats : ev.openats.sqeOverflow = []
  closes : ev.closes.sqeOverflow = []
  reads : ev.reads.sqeOverflow = []
  getdents : ev.getdentsQueue = []
  frees : ev.readFreeQueue = []

theorem EventLoop.Quiet.withRing {ev : EventLoop} (h : ev.Quiet) (ring : Ring) :
    { ev with ring }.Quiet :=
  ⟨h.openats, h.closes, h.reads, h.getdents, h.frees⟩

theorem EventLoop.Quiet.popOverflow {ev : EventLoop} (h : ev.Quiet) : ev.popOverflow = (false, ev) := by
  simp [EventLoop.popOverflow, RequestPool.tryPopOverflow, h.openats, h.closes, h.reads]

theorem iterate_quiet {ev : EventLoop} (h : ev.Quiet) (hin : ev.ring.inFlight ≠ 0) (handed : List Slot) :
    Reaches ⟨ev, .top, handed⟩ ⟨{ ev with ring := ev.ring.submitted }, .peek, handed⟩ := by
  have hpop := h.popOverflow
  have hswap : { ev with getdentsQueue := [] } = ev := by rw [← h.getdents]
  have hfrees : { ev with readFreeQueue := [] } = ev := by rw [← h.frees]
  have h0 : Reaches ⟨ev, .top, handed⟩ ⟨ev, .top, handed⟩ := .refl
  have h1 : Reaches ⟨ev, .top, handed⟩ ⟨ev, .listing [], handed⟩ := by
    have := h0.step (.swap rfl) nofun
    rwa [hswap, h.getdents] at this
  have h2 := h1.step (.listedAll rfl) nofun
  have h3 : Reaches ⟨ev, .top, handed⟩ ⟨ev, .drain [], handed⟩ := by
    have := h2.step (.popped rfl hpop) nofun
    rwa [hfrees, h.frees] at this
  have h4 := h3.step (.drained rfl) nofun
  have h5 := h4.step (.goOn rfl hin) nofun
  exact h5.step (.submit rfl) nofun

theorem dispatch_failed_read {ev : EventLoop} {ptr : Ptr} {res : Int} (hop : ev.opOf ptr = .read)
    (hres : res < 0) (calls : List EventLoop.Call) : ev.dispatch ptr res calls = some ev := by
  rw [EventLoop.dispatch, hop]
  simp only [EventLoop.onRead]
  rw [if_neg (by omega), if_neg (by omega)]

theorem Step.of_wait {s t : Sys} (h : Step s t) (hw : s.phase = .wait) :
    s.ev.ring.cq ≠ [] ∨ s.ev.ring.kernel ≠ [] ∨ s.handed ≠ [] := by
  cases h with
  | wake hp hne => exact .inl hne
  | complete res hk => exact .inr (.inl (by simp [hk]))
  | freeRead slot hs => exact .inr (.inr (List.ne_nil_of_mem hs))
  | _ => simp_all

theorem lost_of_failed_read {ev : EventLoop} (sqe : Sqe) (entries : Nat) (hq : ev.Quiet)
    (hop : ev.opOf sqe.data = .read) (hring : ev.ring = ⟨entries, [sqe], [], [], 1⟩) :
    Reaches ⟨ev, .outside (.ok ()), []⟩ ⟨{ ev with ring := ⟨entries, [], [], [], 1⟩ }, .top, []⟩ := by
  have hfirst : Reaches ⟨ev, .top, []⟩ ⟨{ ev with ring := ⟨entries, [], [sqe], [], 1⟩ }, .peek, []⟩ := by
    have := iterate_quiet hq (by simp [hring]) []
    rwa [hring] at this
  have henter : Reaches ⟨ev, .outside (.ok ()), []⟩ ⟨ev, .top, []⟩ :=
    Reaches.step .refl (.enter rfl) nofun
  have hsleep := Reaches.step (henter.trans hfirst) (.sleep rfl rfl) nofun
  have hwake : Reaches ⟨ev, .outside (.ok ()), []⟩
      ⟨{ ev with ring := ⟨entries, [], [], [(sqe, -5)], 1⟩ }, .reap 0, []⟩ :=
    (hsleep.step (.complete (-5) (List.nil_append [sqe]).symm) nofun).step
      (.wake rfl (List.cons_ne_nil _ _)) nofun
  have hop' : { ev with ring := ⟨entries, [], [], [(sqe, -5)], 1⟩ }.opOf sqe.data = .read := hop
  have hlost := dispatch_failed_read hop' (show (-5 : Int) < 0 by decide) []
  have hreap := hwake.step (.reap [] rfl rfl hlost) nofun
  rw [EventLoop.handedBy, if_neg (by simp)] at hreap
  have hadvance := hreap.step (.advance rfl rfl) nofun
  exact hadvance

theorem queueRead_start {entries : Nat} (size : Nat) (fd : Int) (offset : UInt64) (h : 0 < entries) :
    ∃ sqe, ((start entries size).ev.queueRead fd offset).Quiet ∧
      ((start entries size).ev.queueRead fd offset).opOf sqe.data = .read ∧
      ((start entries size).ev.queueRead fd offset).ring = ⟨entries, [sqe], [], [], 1⟩ := by
  obtain ⟨slot, prep, hring, hop, hover⟩ := RequestPool.next_make .read size
    (show (start entries size).ev.ring.HasSqe from h) fun req : ReadRequest => { req with fd, offset }
  exact ⟨⟨⟨.read, slot⟩, prep⟩, ⟨rfl, rfl, hover, rfl, rfl⟩, hop, hring⟩

/-- `queue_read(3)`, `pump`, and the read fails. Between two iterations nothing is outstanding and
`in_flight_` is 1. Then `pump` waits for a completion, and no step of anybody is possible. -/
theorem failed_read_blocks_pump :
    ∃ s t, Reaches (start 4096 4096) s ∧ s.phase = .top ∧ s.outstanding = 0 ∧ s.ev.ring.inFlight = 1 ∧
      Reaches s t ∧ t.phase = .wait ∧ t.outstanding = 0 ∧ ∀ u, ¬ Step t u := by
  obtain ⟨sqe, hq, hop, hring⟩ := queueRead_start 4096 3 0 (show 0 < 4096 from Nat.succ_pos _)
  have hcall : Reaches (start 4096 4096) ⟨(start 4096 4096).ev.queueRead 3 0, .outside (.ok ()), []⟩ :=
    Reaches.step .refl (.call (.read 3 0) rfl rfl) nofun
  have hlost := hcall.trans (lost_of_failed_read sqe 4096 hq hop hring)
  have hpeek := iterate_quiet (hq.withRing ⟨4096, [], [], [], 1⟩) (show (1 : UInt64) ≠ 0 by decide) []
  have hwait := hpeek.step (.sleep rfl rfl) nofun
  refine ⟨_, _, hlost, rfl, rfl, rfl, hwait, rfl, rfl, fun u hu => ?_⟩
  have := hu.of_wait rfl
  simp [Ring.submitted] at this

end Omnipp.Utils
