import Omnipp.Lib.Slices
import Omnipp.Utils.DirRefs

/-! # One file, block by block

After `queue_read(fd)`, `pump` queues the read of the next block behind the `read_handler_` of the one
before, and the close behind the read that returns nothing.
-/

open Function Omnipp.History Omnipp.Slices

namespace Omnipp.Utils

/-- The request reads the descriptor. -/
def Prep.Reads (fd : Int) : Prep → Prop
  | .read f _ _ => f = fd
  | _ => False

instance (fd : Int) : DecidablePred (Prep.Reads fd) := fun q =>
  match q with
  | .read f _ _ => inferInstanceAs (Decidable (f = fd))
  | .close _ | .openat _ _ _ | .write _ _ _ _ => .isFalse id

/-- `read_handler_` runs for a block of the file. -/
def Spot.Hands (fd : Int) : Spot → Prop
  | .handling _ sqe res op => op = .read ∧ 0 < res ∧ sqe.prep.Reads fd
  | _ => False

/-- A file, no larger than an `off_t` can say. -/
structure File where
  content : Bytes
  size_lt : content.length < 2 ^ 63

/-- The result of a read that does not fail: some of what is asked for and there, and nothing only at
the end of the file. -/
def File.Gives (file : File) (q : Prep) (res : Int) : Prop :=
  match q with
  | .read _ count offset => 0 ≤ res ∧ res.toNat ≤ min count (file.content.length - offset.toNat) ∧
    (res = 0 → file.content.length ≤ offset.toNat)
  | _ => True

namespace Moment

/-- The reads of the file that are queued or outstanding. -/
def readsOf (s : Moment) (fd : Int) : Multiset Prep := s.pending.filter (Prep.Reads fd)

/-- The block of the file that is passed to `read_handler_` in the step: the offset in the request, and
the number of bytes in its buffer. -/
def blockOf (s : Moment) (fd : Int) : Act → Option (Nat × Nat)
  | .handle sqe res =>
    let req := (s.ev.reads.objects sqe.data.slot).fields
    if s.ev.opOf sqe.data = .read ∧ 0 < res ∧ req.fd = fd then some (req.offset.toNat, res.toNat) else none
  | _ => none

/-- How often the step settles a read of the file that has returned nothing. -/
def endsRead (s : Moment) (fd : Int) : Act → Nat
  | .handled sqe res =>
    if sqe.data.home = .read ∧ res = 0 ∧ (s.ev.reads.objects sqe.data.slot).fields.fd = fd then 1 else 0
  | _ => 0

/-- How often `queue_close` is called for the file in the step. -/
def closesOf (s : Moment) (fd : Int) (a : Act) : Nat := (s.made a).countP (EventLoop.Call.closes fd)

end Moment

/-- What a step does for the file. -/
inductive ChainMove (fd : Int) (s : Moment) (a : Act) (t : Moment) : Prop
  | quiet (hreads : t.readsOf fd = s.readsOf fd) (hblock : s.blockOf fd a = none)
      (hends : s.endsRead fd a = 0) (hcloses : s.closesOf fd a = 0)
      (hstays : s.spot.Hands fd → t.spot = s.spot) (hhands : t.spot.Hands fd → s.spot.Hands fd)
  | hands {count : Nat} {sqe : Sqe} {res : Int} {offset : UInt64} (hpos : 0 < res)
      (hprep : sqe.prep = .read fd (64 * 1024) offset)
      (hcq : (sqe, res) ∈ s.ev.ring.cq.drop s.spot.gone)
      (hreads : t.readsOf fd + {sqe.prep} = s.readsOf fd)
      (hblock : s.blockOf fd a = some (offset.toNat, res.toNat)) (hends : s.endsRead fd a = 0)
      (hcloses : s.closesOf fd a = 0) (hspot : t.spot = .handling count sqe res .read)
  | queues {count : Nat} {sqe : Sqe} {res : Int} {offset : UInt64} (hpos : 0 < res)
      (hprep : sqe.prep = .read fd (64 * 1024) offset) (hspot : s.spot = .handling count sqe res .read)
      (hreads : t.readsOf fd = s.readsOf fd + {.read fd (64 * 1024) (offset + UInt64.ofInt res)})
      (hblock : s.blockOf fd a = none) (hends : s.endsRead fd a = 0) (hcloses : s.closesOf fd a = 0)
      (hhands : ¬ t.spot.Hands fd)
  | ends {sqe : Sqe} (hprep : sqe.prep.Reads fd) (hcq : (sqe, 0) ∈ s.ev.ring.cq.drop s.spot.gone)
      (hreads : t.readsOf fd + {sqe.prep} = s.readsOf fd) (hblock : s.blockOf fd a = none)
      (hends : s.endsRead fd a = 1) (hcloses : s.closesOf fd a = 1) (hhands : ¬ t.spot.Hands fd)
  -- The read has failed.
  | loses {sqe : Sqe} {res : Int} (hprep : sqe.prep.Reads fd) (hneg : res < 0)
      (hcq : (sqe, res) ∈ s.ev.ring.cq.drop s.spot.gone)
  -- `read_handler_` has failed.
  | cuts (ha : a.Fails) (hreads : t.readsOf fd = s.readsOf fd) (hblock : s.blockOf fd a = none)
      (hends : s.endsRead fd a = 0) (hcloses : s.closesOf fd a = 0) (hhands : ¬ t.spot.Hands fd)

/-- The call reads, closes or lists the descriptor. -/
def EventLoop.Call.Touches (fd : Int) : EventLoop.Call → Prop
  | .read f _ | .close f | .getdents f => f = fd
  | _ => False

section Steps
variable {s t : Moment} {a : Act} {fd : Int}

theorem filter_single (q : Prep) :
    ({q} : Multiset Prep).filter (Prep.Reads fd) = if q.Reads fd then {q} else 0 := by
  rw [Multiset.filter_singleton]
  rfl

theorem readsOf_step (fd : Int) (h : s.Owns) (hd : Does s a t) (hre : ¬ Reenters s a) :
    t.readsOf fd + (Moment.dealt a).filter (Prep.Reads fd) =
      s.readsOf fd + (EventLoop.preps (s.made a)).filter (Prep.Reads fd) :=
  Moment.filter_step _ h hd hre

theorem Moment.mem_results {count : Nat} {sqe : Sqe} {res : Int} (hgone : s.spot.gone = count)
    (hcq : s.ev.ring.cq[count]? = some (sqe, res)) : (sqe, res) ∈ s.ev.ring.cq.drop s.spot.gone := by
  obtain ⟨hlt, hget⟩ := List.getElem?_eq_some_iff.mp hcq
  rw [hgone, List.drop_eq_getElem_cons hlt, hget]
  exact List.mem_cons_self

theorem ChainMove.of_filter (h : s.Owns) (hd : Does s a t) (hre : ¬ Reenters s a)
    (hdealt : (Moment.dealt a).filter (Prep.Reads fd) = 0)
    (hmade : (EventLoop.preps (s.made a)).filter (Prep.Reads fd) = 0) (hblock : s.blockOf fd a = none)
    (hends : s.endsRead fd a = 0) (hcloses : s.closesOf fd a = 0)
    (hstays : s.spot.Hands fd → t.spot = s.spot) (hhands : t.spot.Hands fd → s.spot.Hands fd) :
    ChainMove fd s a t := by
  refine .quiet ?_ hblock hends hcloses hstays hhands
  have hled := readsOf_step fd h hd hre
  rwa [hdealt, hmade, add_zero, add_zero] at hled

theorem EventLoop.lastRef_of_none {ev : EventLoop} {f : Int} (h : ev.dirRefCount fd = none) :
    (ev.lastRef f).countP (Call.closes fd) = 0 := by
  rw [lastRef_closes, if_neg]
  rintro ⟨hone, rfl⟩
  rw [h] at hone
  cases hone

/-- The last reference of a directory queues a close and nothing else. -/
theorem EventLoop.filter_lastRef (p : Prep → Prop) [DecidablePred p] (hclose : ∀ f, ¬ p (.close f))
    (ev : EventLoop) (f : Int) : (preps (ev.lastRef f)).filter p = 0 := by
  unfold lastRef
  split
  · rw [preps_singleton, Call.preps, Multiset.filter_singleton, if_neg (hclose f)]
    rfl
  · rfl

theorem chainMove_handle (h : s.Owns) {count : Nat} {sqe : Sqe} {res : Int}
    (hp : s.spot = .phase (.reap count)) (hcq : s.ev.ring.cq[count]? = some (sqe, res))
    (hd : Does s (.handle sqe res) t)
    (ht : t.spot = .handling count sqe res (s.ev.opOf sqe.data)) : ChainMove fd s (.handle sqe res) t := by
  have hgone := Moment.gone_reap hp
  have hop := h.opOf hgone hcq
  have hre : ¬ Reenters s (.handle sqe res) := fun hre => Act.noConfusion hre.1
  have hled := readsOf_step fd h hd hre
  rw [show s.made (.handle sqe res) = [] from rfl, EventLoop.preps_nil, Multiset.filter_zero, add_zero,
    Moment.dealt] at hled
  by_cases hread : sqe.data.home = .read ∧ 0 < res
  · have hprep := h.prep_of_cqe hgone hcq hread.1
    have hreads : sqe.prep.Reads fd ↔ (s.ev.reads.objects sqe.data.slot).fields.fd = fd := by
      rw [hprep]
      exact Iff.rfl
    rw [if_pos hread, filter_single] at hled
    by_cases hfd : (s.ev.reads.objects sqe.data.slot).fields.fd = fd
    · rw [if_pos (hreads.mpr hfd)] at hled
      have hthis : sqe.prep = .read fd (64 * 1024) (s.ev.reads.objects sqe.data.slot).fields.offset := by
        rw [hprep, ← hfd]
        rfl
      have hspot : t.spot = .handling count sqe res .read := by
        rw [ht, hop, hread.1]
      exact .hands hread.2 hthis (Moment.mem_results hgone hcq) hled
        (if_pos ⟨hop.trans hread.1, hread.2, hfd⟩) rfl rfl hspot
    · rw [if_neg fun hr => hfd (hreads.mp hr), add_zero] at hled
      refine .quiet hled (if_neg fun hb => hfd hb.2.2) rfl rfl ?_ ?_
      · rw [hp]
        exact False.elim
      · rw [ht]
        exact fun hh => absurd (hreads.mp hh.2.2) hfd
  · rw [if_neg hread, Multiset.filter_zero, add_zero] at hled
    refine .quiet hled (if_neg fun hb => hread ⟨hop.symm.trans hb.1, hb.2.1⟩) rfl rfl ?_ ?_
    · rw [hp]
      exact False.elim
    · rw [ht, hop]
      exact fun hh => absurd ⟨hh.1, hh.2.1⟩ hread

/-- Behind the completion of a read: the next read, the close, or nothing. -/
theorem chainMove_read (h : s.Owns) {count : Nat} {sqe : Sqe} {res : Int}
    (hp : s.spot = .handling count sqe res .read) (hd : Does s (.handled sqe res) t)
    (hhands : ¬ t.spot.Hands fd) : ChainMove fd s (.handled sqe res) t := by
  obtain ⟨hcq, hop⟩ := h.cqe _ _ _ _ hp
  have hre : ¬ Reenters s (.handled sqe res) := fun hre => Act.noConfusion hre.1
  have hled := readsOf_step fd h hd hre
  have hprep := h.prep_read hp
  generalize hreq : (s.ev.reads.objects sqe.data.slot).fields = req at hprep
  have hreads : sqe.prep.Reads fd ↔ req.fd = fd := by
    rw [hprep]
    exact Iff.rfl
  have hmade : s.made (.handled sqe res) = if res = 0 then [.close req.fd]
      else if 0 < res then [.read req.fd (req.offset + UInt64.ofInt res)] else [] := by
    rw [← hreq]
    change s.ev.behindCalls sqe.data.home sqe.data.slot res = _
    rw [← hop]
    rfl
  have hnext (n : Nat) (offset : UInt64) : (Prep.read req.fd n offset).Reads fd ↔ req.fd = fd := Iff.rfl
  have hdealt : Moment.dealt (.handled sqe res) = if 0 < res then 0 else {sqe.prep} :=
    if_congr ⟨And.right, fun hpos => ⟨hop.symm, hpos⟩⟩ rfl rfl
  by_cases hfd : req.fd = fd
  · have hthis : sqe.prep = .read fd (64 * 1024) req.offset := by
      rw [hprep, ← hfd]
      rfl
    by_cases hpos : 0 < res
    · have hne : res ≠ 0 := by omega
      rw [hdealt, hmade, if_pos hpos, if_neg hne, if_pos hpos, EventLoop.preps_singleton,
        EventLoop.Call.preps, filter_single, if_pos ((hnext _ _).mpr hfd), Multiset.filter_zero,
        add_zero, hfd] at hled
      refine .queues hpos hthis hp hled rfl (if_neg fun he => hne he.2.1) ?_ hhands
      rw [Moment.closesOf, hmade, if_neg hne, if_pos hpos]
      rfl
    · have hgone : s.spot.gone = count := by rw [hp, Spot.gone, if_neg fun hr => hpos hr.2]
      have hmem := Moment.mem_results hgone hcq
      by_cases hzero : res = 0
      · have hclose : ¬ (Prep.close req.fd).Reads fd := id
        rw [hdealt, hmade, if_neg hpos, if_pos hzero, EventLoop.preps_singleton,
          EventLoop.Call.preps, filter_single, filter_single, if_pos (hreads.mpr hfd), if_neg hclose,
          add_zero] at hled
        subst hzero
        refine .ends (hreads.mpr hfd) hmem hled rfl (if_pos ⟨hop.symm, rfl, by rw [hreq]; exact hfd⟩) ?_ hhands
        rw [Moment.closesOf, hmade, if_pos rfl]
        simp [EventLoop.Call.closes, hfd]
      · exact .loses (hreads.mpr hfd) (by omega) hmem
  · have hnot : ¬ s.spot.Hands fd := by
      rw [hp]
      exact fun hh => hfd (hreads.mp hh.2.2)
    refine .of_filter h hd hre ?_ ?_ rfl (if_neg fun he => hfd (by rw [← hreq]; exact he.2.2)) ?_
      (fun hh => absurd hh hnot) fun hh => absurd hh hhands
    · rw [hdealt]
      split
      · rfl
      · rw [filter_single, if_neg fun hr => hfd (hreads.mp hr)]
    · rw [hmade]
      split
      · have hclose : ¬ (Prep.close req.fd).Reads fd := id
        rw [EventLoop.preps_singleton, EventLoop.Call.preps, filter_single,
          if_neg hclose]
      · split
        · rw [EventLoop.preps_singleton, EventLoop.Call.preps, filter_single,
            if_neg fun hr => hfd ((hnext _ _).mp hr)]
        · rfl
    · rw [Moment.closesOf, hmade]
      split
      · simp [EventLoop.Call.closes, hfd]
      · split <;> rfl

theorem chainMove_handled (h : s.Owns) {count : Nat} {sqe : Sqe} {res : Int} {op : Op}
    (hp : s.spot = .handling count sqe res op) (hd : Does s (.handled sqe res) t)
    (ht : t.spot = .phase (.reap (count + 1))) (hdir : s.ev.dirRefCount fd = none) :
    ChainMove fd s (.handled sqe res) t := by
  obtain ⟨hcq, hop⟩ := h.cqe _ _ _ _ hp
  have hre : ¬ Reenters s (.handled sqe res) := fun hre => Act.noConfusion hre.1
  have hhands : ¬ t.spot.Hands fd := by
    rw [ht]
    exact id
  have hmade : s.made (.handled sqe res) = s.ev.behindCalls op sqe.data.slot res := by
    rw [hop]
    rfl
  -- A completion of another kind.
  have other (hread : op ≠ .read) (hprep : ¬ sqe.prep.Reads fd)
      (hpreps : (EventLoop.preps (s.ev.behindCalls op sqe.data.slot res)).filter (Prep.Reads fd) = 0)
      (hcloses : (s.ev.behindCalls op sqe.data.slot res).countP (EventLoop.Call.closes fd) = 0) :
      ChainMove fd s (.handled sqe res) t := by
    have hnot : ¬ s.spot.Hands fd := by
      rw [hp]
      exact fun hh => hread hh.1
    rw [← hmade] at hpreps hcloses
    refine .of_filter h hd hre ?_ hpreps rfl (if_neg fun he => hread (hop.trans he.1)) hcloses
      (fun hh => absurd hh hnot) fun hh => absurd hh hhands
    simp only [Moment.dealt]
    rw [if_neg fun hr => hread (hop.trans hr.1), filter_single, if_neg hprep]
  rcases op with _ | _ | _ | _
  · refine other (by decide) (by rw [h.prep_openat hp]; exact id) ?_ ?_
    · simp only [EventLoop.behindCalls]
      split
      · rfl
      · exact EventLoop.filter_lastRef _ (fun _ => id) _ _
    · simp only [EventLoop.behindCalls]
      split
      · rfl
      · exact EventLoop.lastRef_of_none hdir
  · exact other (by decide) (by rw [h.prep_close hp]; exact id) rfl rfl
  · exact chainMove_read h hp hd hhands
  · refine other (by decide) (by rw [h.prep_write hp]; exact id) ?_ ?_
    · simp only [EventLoop.behindCalls]
      split
      · have hwrite (f : Int) (buffer : Bytes) (offset : UInt64) (n : Nat) :
            ¬ (Prep.write f buffer offset n).Reads fd := id
        rw [EventLoop.preps_singleton, EventLoop.Call.preps, filter_single,
          if_neg (hwrite _ _ _ _)]
      · rfl
    · simp only [EventLoop.behindCalls]
      split <;> rfl

theorem chainMove_call (h : s.Owns) {c : EventLoop.Call} (hd : Does s (.call c) t) (ht : t.spot = s.spot)
    (hc : ¬ c.Touches fd) : ChainMove fd s (.call c) t := by
  have hre : ¬ Reenters s (.call c) := fun hre => Act.noConfusion hre.1
  have hmade : s.made (.call c) = [c] := rfl
  refine .of_filter h hd hre rfl ?_ rfl rfl ?_ (fun _ => ht) (ht ▸ id)
  · rw [hmade, EventLoop.preps_singleton]
    have hnot : ∀ q ∈ c.preps, ¬ q.Reads fd := by
      intro q hq
      rcases c with _ | _ | _ | ⟨f, offset⟩ | _
      · rw [Multiset.mem_singleton.mp hq]
        exact id
      · exact absurd hq (Multiset.notMem_zero _)
      · rw [Multiset.mem_singleton.mp hq]
        exact id
      · rw [Multiset.mem_singleton.mp hq]
        exact hc
      · rw [Multiset.mem_singleton.mp hq]
        exact id
    exact Multiset.filter_eq_nil.mpr hnot
  · rw [Moment.closesOf, hmade]
    rcases c with _ | _ | f | _ | _
    · rfl
    · rfl
    · have hfd : f ≠ fd := hc
      simp [EventLoop.Call.closes, hfd]
    · rfl
    · rfl

/-- Whoever moves: the read of the file goes from one place of the chain to the next, or stays. -/
theorem chain_move (h : s.Owns) (hd : Does s a t) (hre : ¬ Reenters s a)
    (hdir : s.ev.dirRefCount fd = none) (hcall : ∀ c, a = .call c → ¬ c.Touches fd) :
    ChainMove fd s a t := by
  have still (hdealt : Moment.dealt a = 0) (hmade : s.made a = []) (hblock : s.blockOf fd a = none)
      (hends : s.endsRead fd a = 0) (hstays : s.spot.Hands fd → t.spot = s.spot)
      (hhands : t.spot.Hands fd → s.spot.Hands fd) : ChainMove fd s a t := by
    refine .of_filter h hd hre ?_ ?_ hblock hends ?_ hstays hhands
    · rw [hdealt]
      rfl
    · rw [hmade]
      rfl
    · rw [Moment.closesOf, hmade]
      rfl
  have move {p p' : Phase} (hp : s.spot = .phase p) (ht : t.spot = .phase p')
      (hdealt : Moment.dealt a = 0) (hmade : s.made a = []) (hblock : s.blockOf fd a = none)
      (hends : s.endsRead fd a = 0) : ChainMove fd s a t := by
    refine still hdealt hmade hblock hends ?_ ?_
    · rw [hp]
      exact False.elim
    · rw [ht]
      exact False.elim
  have hd' := hd
  cases hd with
  | call c hp hc => exact chainMove_call h hd' rfl (hcall c rfl)
  | enter hp =>
    refine still rfl rfl rfl rfl (fun hh => ?_) False.elim
    rcases hp.split with ⟨last, hspot⟩ | ⟨count, e, hspot⟩
    · rw [hspot] at hh
      exact hh.elim
    · rw [hspot] at hh
      exact hh.elim
  | swap hp => exact move hp rfl rfl rfl rfl rfl
  | list hp => exact move hp rfl rfl rfl rfl rfl
  | listed hp hc =>
    refine .of_filter h hd' hre rfl (EventLoop.filter_lastRef _ (fun _ => id) _ _) rfl rfl (EventLoop.lastRef_of_none hdir)
      ?_ False.elim
    rw [hp]
    exact False.elim
  | listedAll hp => exact move hp rfl rfl rfl rfl rfl
  | pop hp hc => exact move hp hp rfl rfl rfl rfl
  | popped hp hc | drain hp | drained hp | exit hp hzero | goOn hp hne | submitFails errno hp
  | submit hp | peek hp hne | sleep hp hnil | wake hp hne =>
    exact move hp rfl rfl rfl rfl rfl
  | handle hp hcq => exact chainMove_handle h hp hcq hd' rfl
  | handled hp hc => exact chainMove_handled h hp hd' rfl hdir
  | handlerFails error hp hpos =>
    have hled := readsOf_step fd h hd' hre
    refine .cuts ⟨error, rfl⟩ ?_ rfl rfl rfl id
    simpa [Moment.dealt, Moment.made] using hled
  | advance hp hend => exact move hp rfl rfl rfl rfl rfl
  | complete res hk => exact still rfl rfl rfl rfl (fun _ => rfl) id
  | freeRead slot hslot => exact still rfl rfl rfl rfl (fun _ => rfl) id

/-! ## What stays as it is -/

theorem listed_step (hd : Does s a t) (hcall : a ≠ .call (.getdents fd))
    (h : fd ∈ t.ev.getdentsQueue ∨ fd ∈ t.spot.dirs) : fd ∈ s.ev.getdentsQueue ∨ fd ∈ s.spot.dirs := by
  have same {p p' : Phase} (hp : s.spot = .phase p) (ht : t.spot = .phase p')
      (hdirs : (Spot.phase p').dirs ⊆ (Spot.phase p).dirs)
      (hqueue : t.ev.getdentsQueue = s.ev.getdentsQueue) : fd ∈ s.ev.getdentsQueue ∨ fd ∈ s.spot.dirs := by
    rw [hqueue, ht] at h
    rw [hp]
    exact h.imp_right fun hmem => hdirs hmem
  have nil {p : Phase} : ([] : List Int) ⊆ (Spot.phase p).dirs := List.nil_subset _
  cases hd with
  | @call ev c hp hc =>
    rcases c with _ | f | _ | _ | _
    · rwa [EventLoop.call_getdents hc id] at h
    · cases hc
      rcases h with h | h
      · rcases List.mem_append.mp h with h | h
        · exact .inl h
        · rw [List.mem_singleton.mp h] at hcall
          exact absurd rfl hcall
      · exact .inr h
    · cases hc
      exact h
    · cases hc
      exact h
    · cases hc
      exact h
  | enter hp => exact .inl (h.resolve_right List.not_mem_nil)
  | swap hp => exact .inl (h.resolve_left List.not_mem_nil)
  | list hp => exact same hp rfl (List.subset_cons_self _ _) rfl
  | listed hp hc => exact same hp rfl (List.Subset.refl _) (EventLoop.decreaseDirRef_aside hc).1
  | listedAll hp => exact same hp rfl nil rfl
  | pop hp hc => exact same hp hp (List.Subset.refl _) (EventLoop.popOverflow_aside hc).1
  | popped hp hc =>
    have haside := EventLoop.popOverflow_aside hc
    exact same hp rfl nil haside.1
  | drain hp | drained hp | exit hp hzero | goOn hp hne | submitFails errno hp | submit hp
  | peek hp hne | sleep hp hnil | wake hp hne =>
    exact same hp rfl nil rfl
  | handle hp hcq =>
    rw [EventLoop.before_getdentsQueue] at h
    exact .inl (h.resolve_right List.not_mem_nil)
  | @handled count sqe res op ev hp hc =>
    have hmem := h.resolve_right List.not_mem_nil
    have hqueue : ev.getdentsQueue = s.ev.getdentsQueue := by
      by_cases hop : op = .openat
      · subst hop
        obtain ⟨mid, rfl, ⟨-, rfl⟩ | ⟨-, hmid⟩⟩ := EventLoop.behind_openat hc
        · rfl
        · exact (EventLoop.decreaseDirRef_aside hmid).1
      · exact (EventLoop.behind_dirs hc hop).2
    rw [hqueue] at hmem
    exact .inl hmem
  | handlerFails error hp hpos => exact .inl (h.resolve_right List.not_mem_nil)
  | advance hp hend => exact same hp rfl nil rfl
  | complete res hk => exact h
  | freeRead slot hslot => exact h

/-- A descriptor that nobody queues for listing does not become a directory. -/
theorem directory_step (hd : Does s a t) (hcall : a ≠ .call (.getdents fd)) (h : ¬ s.Directory fd) :
    ¬ t.Directory fd := by
  have hlists : a.lists fd = false := by
    rw [← Bool.not_eq_true]
    intro hl
    cases hd with
    | @list f todo hp =>
      have heq : f = fd := of_decide_eq_true hl
      refine h (.inr (.inl ?_))
      rw [hp, ← heq]
      exact List.mem_cons_self
    | _ => cases hl
  have hnone : s.ev.dirRefCount fd = none := not_not.mp fun hne => h (.inr (.inr hne))
  rintro (hq | hq | hq)
  · exact h (or_assoc.mp (.inl (listed_step hd hcall (.inl hq))))
  · exact h (or_assoc.mp (.inl (listed_step hd hcall (.inr hq))))
  · exact hq (none_step hd hlists hnone)

/-- What holds of every completion that is not settled yet. -/
theorem RingMove.forall_results {P : Sqe × Int → Prop} (hm : RingMove s a t)
    (hbound : s.spot.gone ≤ s.ev.ring.cq.length) (h : ∀ x ∈ s.ev.ring.cq.drop s.spot.gone, P x)
    (ha : ∀ sqe res, a = .complete sqe res → P (sqe, res)) :
    ∀ x ∈ t.ev.ring.cq.drop t.spot.gone, P x := by
  have hnext : ∀ x ∈ s.ev.ring.cq.drop (s.spot.gone + 1), P x := by
    intro x hx
    rw [← List.drop_drop] at hx
    exact h x (List.mem_of_mem_drop hx)
  cases hm with
  | grows hring hgone => rwa [hring.2.2.1, hgone]
  | settles hcq hring hgone => rwa [hring.2.2.1, hgone]
  | loses _ _ _ _ hring hgone => rwa [hring, hgone]
  | submits _ hring hgone => rwa [hring, hgone]
  | advances _ hring hgone =>
    rw [hring, hgone]
    exact h
  | completes hact _ hring hgone =>
    rw [hring, hgone]
    intro x hx
    rw [List.drop_append_of_le_length hbound] at hx
    rcases List.mem_append.mp hx with hx | hx
    · exact h x hx
    · rw [List.mem_singleton.mp hx]
      exact ha _ _ hact

end Steps

/-! ## The chain -/

/-- The blocks of the file that were passed to `read_handler_`. -/
def blocks (fd : Int) (past : List (Moment × Act)) : List (Nat × Nat) :=
  past.filterMap fun x => x.1.blockOf fd x.2

/-- How often a read of the file has returned nothing. -/
def ends (fd : Int) (past : List (Moment × Act)) : Nat := (past.map fun x => x.1.endsRead fd x.2).sum

def closes (fd : Int) (past : List (Moment × Act)) : Nat := (past.map fun x => x.1.closesOf fd x.2).sum

theorem blocks_snoc (fd : Int) (past : List (Moment × Act)) (s : Moment) (a : Act) :
    blocks fd (past ++ [(s, a)]) = blocks fd past ++ (s.blockOf fd a).toList := by
  rw [blocks, List.filterMap_append, blocks]
  cases hblock : s.blockOf fd a <;> simp [hblock]

theorem ends_snoc (fd : Int) (past : List (Moment × Act)) (s : Moment) (a : Act) :
    ends fd (past ++ [(s, a)]) = ends fd past + s.endsRead fd a := by
  simp [ends]

theorem closes_snoc (fd : Int) (past : List (Moment × Act)) (s : Moment) (a : Act) :
    closes fd (past ++ [(s, a)]) = closes fd past + s.closesOf fd a := by
  simp [closes]

/-- Where the chain of the file stands. -/
inductive Stage (file : File) (fd : Int) (past : List (Moment × Act)) (s : Moment) : Prop
  | reading
      (hreads : s.readsOf fd = {.read fd (64 * 1024) (UInt64.ofNat (span (blocks fd past)))})
      (hhands : ¬ s.spot.Hands fd) (hends : ends fd past = 0)
  | handing {count : Nat} {sqe : Sqe} {res : Int} {offset : UInt64} (hreads : s.readsOf fd = 0)
      (hspot : s.spot = .handling count sqe res .read) (hpos : 0 < res)
      (hprep : sqe.prep = .read fd (64 * 1024) offset)
      (hoffset : offset + UInt64.ofInt res = UInt64.ofNat (span (blocks fd past)))
      (hends : ends fd past = 0)
  | ended (hreads : s.readsOf fd = 0) (hhands : ¬ s.spot.Hands fd) (hends : ends fd past = 1)
      (hspan : span (blocks fd past) = file.content.length)
  | cut (hreads : s.readsOf fd = 0) (hhands : ¬ s.spot.Hands fd) (hends : ends fd past = 0)
      (hfails : ∃ x ∈ past, x.2.Fails)

/-- Nobody else reads, closes or lists the descriptor, its reads do not fail, and `pump` is not called
again after `read_handler_` failed in it. -/
structure Schedule (file : File) (fd : Int) (s : Moment) (a : Act) : Prop where
  calls : ∀ c, a = .call c → ¬ c.Touches fd
  gives : ∀ sqe res, a = .complete sqe res → sqe.prep.Reads fd → file.Gives sqe.prep res
  reenters : ¬ Reenters s a

structure Chain (file : File) (fd : Int) (past : List (Moment × Act)) (s : Moment) : Prop where
  owns : s.Owns
  gives : ∀ x ∈ s.ev.ring.cq.drop s.spot.gone, x.1.prep.Reads fd → file.Gives x.1.prep x.2
  plain : ¬ s.Directory fd
  consecutive : Consecutive 0 (blocks fd past)
  bound : span (blocks fd past) ≤ file.content.length
  closes : closes fd past = ends fd past
  stage : Stage file fd past s

section Chain
variable {file : File} {fd : Int} {past : List (Moment × Act)} {s t : Moment} {a : Act}

theorem File.toNat_ofNat (file : File) {n : Nat} (h : n ≤ file.content.length) :
    (UInt64.ofNat n).toNat = n := by
  have := file.size_lt
  exact UInt64.toNat_ofNat_of_lt' (by unfold UInt64.size; omega)

theorem ofInt_eq_ofNat {res : Int} (h : 0 ≤ res) : UInt64.ofInt res = UInt64.ofNat res.toNat := by
  obtain ⟨n, rfl⟩ := Int.eq_ofNat_of_zero_le h
  have hmod : ((n : Int) % 2 ^ 64).toNat = n % 2 ^ 64 := by omega
  rw [UInt64.ofInt, hmod, UInt64.ofNat_mod_size, Int.toNat_natCast]

theorem File.Gives.nonneg {q : Prep} {res : Int} (h : file.Gives q res) (hq : q.Reads fd) : 0 ≤ res := by
  rcases q with _ | _ | _ | _
  · exact hq.elim
  · exact hq.elim
  · exact h.1
  · exact hq.elim

/-- The read that is settled is the one that is pending. -/
theorem Stage.reading_of_add {q : Prep} (h : Stage file fd past s) (hreads : t.readsOf fd + {q} = s.readsOf fd) :
    q = .read fd (64 * 1024) (UInt64.ofNat (span (blocks fd past))) ∧ t.readsOf fd = 0 ∧
      ends fd past = 0 := by
  have hnot : s.readsOf fd ≠ 0 := by
    rw [← hreads]
    exact fun hzero => absurd (Multiset.mem_of_le (Multiset.le_add_left _ _) (Multiset.mem_singleton_self q))
      (hzero ▸ Multiset.notMem_zero q)
  cases h with
  | reading hr hhands hends =>
    rw [hr] at hreads
    have hcard := congrArg Multiset.card hreads
    rw [Multiset.card_add, Multiset.card_singleton, Multiset.card_singleton] at hcard
    have hzero : t.readsOf fd = 0 := Multiset.card_eq_zero.mp (by omega)
    rw [hzero, zero_add] at hreads
    exact ⟨Multiset.singleton_inj.mp hreads, hzero, hends⟩
  | handing hr | ended hr | cut hr =>
    exact absurd hr hnot

/-- The next block begins where the one before ended, and there is enough of the file for it. -/
theorem Chain.next_block (h : Chain file fd past s) {sqe : Sqe} {res : Int} {offset : UInt64}
    (hprep : sqe.prep = .read fd (64 * 1024) offset) (hcq : (sqe, res) ∈ s.ev.ring.cq.drop s.spot.gone)
    (hoffset : offset = UInt64.ofNat (span (blocks fd past))) :
    offset.toNat = span (blocks fd past) ∧ 0 ≤ res ∧
      span (blocks fd past) + res.toNat ≤ file.content.length ∧
      (res = 0 → span (blocks fd past) = file.content.length) := by
  have hreads : sqe.prep.Reads fd := by
    rw [hprep]
    rfl
  have hgives := h.gives _ hcq hreads
  rw [hprep] at hgives
  obtain ⟨hpos, hle, hend⟩ := hgives
  have hnat : offset.toNat = span (blocks fd past) := by
    rw [hoffset]
    exact file.toNat_ofNat h.bound
  have hbound := h.bound
  rw [hnat] at hle hend
  exact ⟨hnat, hpos, by omega, fun hzero => Nat.le_antisymm hbound (hend hzero)⟩

theorem Stage.of_quiet (h : Stage file fd past s) (hreads : t.readsOf fd = s.readsOf fd)
    (hblocks : blocks fd (past ++ [(s, a)]) = blocks fd past) (hends : ends fd (past ++ [(s, a)]) = ends fd past)
    (hstays : s.spot.Hands fd → t.spot = s.spot) (hhands : t.spot.Hands fd → s.spot.Hands fd) :
    Stage file fd (past ++ [(s, a)]) t := by
  cases h with
  | reading hr hnot he =>
    refine .reading ?_ (fun hh => hnot (hhands hh)) (hends.trans he)
    rw [hreads, hr, hblocks]
  | handing hr hspot hpos hprep hoffset he =>
    refine .handing (hreads.trans hr) ((hstays ?_).trans hspot) hpos hprep ?_ (hends.trans he)
    · rw [hspot]
      refine ⟨rfl, hpos, ?_⟩
      rw [hprep]
      rfl
    · rw [hblocks]
      exact hoffset
  | ended hr hnot he hspan =>
    refine .ended (hreads.trans hr) (fun hh => hnot (hhands hh)) (hends.trans he) ?_
    rw [hblocks]
    exact hspan
  | cut hr hnot he hfails =>
    obtain ⟨x, hx, hfail⟩ := hfails
    exact .cut (hreads.trans hr) (fun hh => hnot (hhands hh)) (hends.trans he)
      ⟨x, List.mem_append_left _ hx, hfail⟩

theorem Stage.of_cuts (h : Stage file fd past s) (hreads : t.readsOf fd = s.readsOf fd) (ha : a.Fails)
    (hblocks : blocks fd (past ++ [(s, a)]) = blocks fd past) (hends : ends fd (past ++ [(s, a)]) = ends fd past)
    (hhands : ¬ t.spot.Hands fd) : Stage file fd (past ++ [(s, a)]) t := by
  have hlast : ∃ x ∈ past ++ [(s, a)], x.2.Fails :=
    ⟨(s, a), List.mem_append_right _ (List.mem_singleton_self _), ha⟩
  cases h with
  | reading hr _ he =>
    refine .reading ?_ hhands (hends.trans he)
    rw [hreads, hr, hblocks]
  | handing hr _ _ _ _ he => exact .cut (hreads.trans hr) hhands (hends.trans he) hlast
  | ended hr _ he hspan =>
    refine .ended (hreads.trans hr) hhands (hends.trans he) ?_
    rw [hblocks]
    exact hspan
  | cut hr _ he => exact .cut (hreads.trans hr) hhands (hends.trans he) hlast

theorem Stage.of_queues (h : Stage file fd past s) {count : Nat} {sqe : Sqe} {res : Int} {offset : UInt64}
    (hpos : 0 < res) (hprep : sqe.prep = .read fd (64 * 1024) offset)
    (hspot : s.spot = .handling count sqe res .read)
    (hreads : t.readsOf fd = s.readsOf fd + {.read fd (64 * 1024) (offset + UInt64.ofInt res)})
    (hblocks : blocks fd (past ++ [(s, a)]) = blocks fd past) (hends : ends fd (past ++ [(s, a)]) = ends fd past)
    (hhands : ¬ t.spot.Hands fd) : Stage file fd (past ++ [(s, a)]) t := by
  have hnow : s.spot.Hands fd := by
    rw [hspot]
    refine ⟨rfl, hpos, ?_⟩
    rw [hprep]
    rfl
  cases h with
  | reading _ hnot => exact absurd hnow hnot
  | handing hr hspot' _ hprep' hoffset he =>
    rw [hspot] at hspot'
    simp only [Spot.handling.injEq] at hspot'
    obtain ⟨-, rfl, rfl, -⟩ := hspot'
    rw [hprep] at hprep'
    simp only [Prep.read.injEq, true_and] at hprep'
    subst hprep'
    refine .reading ?_ hhands (hends.trans he)
    rw [hreads, hr, zero_add, hoffset, hblocks]
  | ended _ hnot => exact absurd hnow hnot
  | cut _ hnot => exact absurd hnow hnot

theorem chain_step (h : Chain file fd past s) (hd : Does s a t) (ha : Schedule file fd s a) :
    Chain file fd (past ++ [(s, a)]) t := by
  have hnone : s.ev.dirRefCount fd = none := not_not.mp fun hne => h.plain (.inr (.inr hne))
  have howns := (Moment.owns_step h.owns hd ha.reenters).1
  have hgives := (ring_step h.owns hd ha.reenters).forall_results h.owns.bound h.gives ha.gives
  have hplain := directory_step hd (fun heq => ha.calls _ heq rfl) h.plain
  -- A step on which no block is handed over.
  have same (hblock : s.blockOf fd a = none) (hends : s.endsRead fd a = s.closesOf fd a)
      (hstage : blocks fd (past ++ [(s, a)]) = blocks fd past → Stage file fd (past ++ [(s, a)]) t) :
      Chain file fd (past ++ [(s, a)]) t := by
    have hblocks : blocks fd (past ++ [(s, a)]) = blocks fd past := by
      rw [blocks_snoc, hblock]
      exact List.append_nil _
    refine ⟨howns, hgives, hplain, ?_, ?_, ?_, hstage hblocks⟩
    · rw [hblocks]
      exact h.consecutive
    · rw [hblocks]
      exact h.bound
    · rw [closes_snoc, ends_snoc, h.closes, hends]
  have hends (hzero : s.endsRead fd a = 0) : ends fd (past ++ [(s, a)]) = ends fd past := by
    rw [ends_snoc, hzero, Nat.add_zero]
  cases chain_move h.owns hd ha.reenters hnone ha.calls with
  | quiet hreads hblock hzero hcloses hstays hhands =>
    exact same hblock (hzero.trans hcloses.symm) fun hblocks =>
      h.stage.of_quiet hreads hblocks (hends hzero) hstays hhands
  | queues hpos hprep hspot hreads hblock hzero hcloses hhands =>
    exact same hblock (hzero.trans hcloses.symm) fun hblocks =>
      h.stage.of_queues hpos hprep hspot hreads hblocks (hends hzero) hhands
  | cuts hfails hreads hblock hzero hcloses hhands =>
    exact same hblock (hzero.trans hcloses.symm) fun hblocks =>
      h.stage.of_cuts hreads hfails hblocks (hends hzero) hhands
  | loses hprep hneg hcq =>
    have := (h.gives _ hcq hprep).nonneg hprep
    exact absurd this (by omega)
  | ends hprep hcq hreads hblock hone hcloses hhands =>
    obtain ⟨hthis, hnil, hbefore⟩ := h.stage.reading_of_add hreads
    obtain ⟨-, -, -, hall⟩ := h.next_block hthis hcq rfl
    refine same hblock (hone.trans hcloses.symm) fun hblocks => .ended hnil hhands ?_ ?_
    · rw [ends_snoc, hone, hbefore]
    · rw [hblocks]
      exact hall rfl
  | @hands count sqe res offset hpos hprep hcq hreads hblock hzero hcloses hspot =>
    obtain ⟨hthis, hnil, hbefore⟩ := h.stage.reading_of_add hreads
    rw [hprep] at hthis
    simp only [Prep.read.injEq, true_and] at hthis
    obtain ⟨hnat, hnonneg, hle, -⟩ := h.next_block hprep hcq hthis
    have hspan : span (blocks fd (past ++ [(s, a)])) = span (blocks fd past) + res.toNat := by
      rw [blocks_snoc, hblock, span_append]
      rfl
    refine ⟨howns, hgives, hplain, ?_, ?_, ?_, .handing hnil hspot hpos hprep ?_ ((hends hzero).trans hbefore)⟩
    · rw [blocks_snoc, hblock]
      exact consecutive_snoc h.consecutive (hnat.trans (Nat.zero_add _).symm)
    · rw [hspan]
      exact hle
    · rw [closes_snoc, ends_snoc, h.closes, hzero, hcloses]
    · rw [hspan, hthis, ofInt_eq_ofNat hnonneg, UInt64.ofNat_add]

/-- Nobody reads the descriptor, and it is no directory. -/
structure Moment.Unread (s : Moment) (fd : Int) : Prop where
  reads : s.readsOf fd = 0
  hands : ¬ s.spot.Hands fd
  plain : ¬ s.Directory fd

theorem chain_start (h : s.Owns) (hnew : s.Unread fd) (hd : Does s (.call (.read fd 0)) t) :
    Chain file fd [] t := by
  have hre : ¬ Reenters s (.call (.read fd 0)) := fun hre => Act.noConfusion hre.1
  have hfd : (Prep.read fd (64 * 1024) 0).Reads fd := rfl
  have howns := (Moment.owns_step h hd hre).1
  have hled := readsOf_step fd h hd hre
  have hspot : t.spot = s.spot := by
    cases hd with
    | call => rfl
  have hmade : s.made (.call (.read fd 0)) = [.read fd 0] := rfl
  have hdealt : Moment.dealt (.call (.read fd 0)) = 0 := rfl
  rw [hmade, hdealt, hnew.reads, EventLoop.preps_singleton, EventLoop.Call.preps,
    filter_single, if_pos hfd, Multiset.filter_zero, add_zero, zero_add] at hled
  have hresults := (ring_step h hd hre).forall_results (P := fun x => x.1.prep.Reads fd → file.Gives x.1.prep x.2)
    h.bound ?_ fun _ _ heq => Act.noConfusion heq
  · refine ⟨howns, hresults, ?_, trivial, Nat.zero_le _, rfl, .reading hled (hspot ▸ hnew.hands) rfl⟩
    exact directory_step hd (fun heq => by simp at heq) hnew.plain
  · -- Such a completion would be one of a read that is pending.
    intro x hx hreads
    have hmem : x.1 ∈ s.ev.ring.entriesWith s.held :=
      Multiset.mem_add.mpr (.inr (Multiset.mem_coe.mpr (List.mem_map_of_mem hx)))
    have hpending : x.1.prep ∈ s.readsOf fd := by
      refine Multiset.mem_filter.mpr ⟨?_, hreads⟩
      exact Multiset.mem_add.mpr (.inr (Multiset.mem_map_of_mem _ hmem))
    rw [hnew.reads] at hpending
    exact absurd hpending (Multiset.notMem_zero _)

end Chain

/-! ## The result -/

/-- The blocks passed to `read_handler_` are consecutive, and what is in their buffers makes up the file
when a read has returned nothing. There is at most one read at a time. The file is closed once, with that
last read. -/
structure Covered (file : File) (fd : Int) (past : List (Moment × Act)) (s : Moment) : Prop where
  consecutive : Consecutive 0 (blocks fd past)
  part : (blocks fd past).flatMap (slice file.content) = file.content.take (span (blocks fd past))
  whole : ends fd past = 1 → (blocks fd past).flatMap (slice file.content) = file.content
  one : (s.readsOf fd).card ≤ 1
  -- Unless the file is done, its next read is there or will be queued behind the handler.
  goesOn : ends fd past = 1 ∨ (s.readsOf fd).card = 1 ∨ s.spot.Hands fd ∨ ∃ x ∈ past, x.2.Fails
  closes : closes fd past = ends fd past
  once : ends fd past ≤ 1

theorem Chain.covered {file : File} {fd : Int} {past : List (Moment × Act)} {s : Moment}
    (h : Chain file fd past s) : Covered file fd past s := by
  have hpart : (blocks fd past).flatMap (slice file.content) =
      file.content.take (span (blocks fd past)) := flatMap_slice _ h.consecutive
  cases h.stage with
  | reading hreads hhands hends =>
    refine ⟨h.consecutive, hpart, fun hone => ?_, ?_, .inr (.inl ?_), h.closes, ?_⟩
    · omega
    · rw [hreads, Multiset.card_singleton]
    · rw [hreads, Multiset.card_singleton]
    · omega
  | handing hreads hspot hpos hprep _ hends =>
    refine ⟨h.consecutive, hpart, fun hone => ?_, ?_, .inr (.inr (.inl ?_)), h.closes, ?_⟩
    · omega
    · rw [hreads, Multiset.card_zero]
      exact Nat.zero_le 1
    · rw [hspot]
      refine ⟨rfl, hpos, ?_⟩
      rw [hprep]
      rfl
    · omega
  | ended hreads _ hends hspan =>
    refine ⟨h.consecutive, hpart, fun _ => ?_, ?_, .inl hends, h.closes, hends.le⟩
    · rw [hpart, hspan, List.take_length]
    · rw [hreads, Multiset.card_zero]
      exact Nat.zero_le 1
  | cut hreads _ hends hfails =>
    refine ⟨h.consecutive, hpart, fun hone => ?_, ?_, .inr (.inr (.inr hfails)), h.closes, ?_⟩
    · omega
    · rw [hreads, Multiset.card_zero]
      exact Nat.zero_le 1
    · omega

/-- Whatever was done before and whatever else is done: from `queue_read(fd)` on, the file is covered. -/
theorem read_chain_covers_the_file {entries size : Nat} (file : File) {fd : Int}
    {before past : List (Moment × Act)} {s t u : Moment}
    (hbefore : Run Does (fun s a => ¬ Reenters s a) (Moment.fresh entries size) before s)
    (hnew : s.Unread fd) (hqueue : Does s (.call (.read fd 0)) t)
    (h : Run Does (Schedule file fd) t past u) : Covered file fd past u := by
  have howns := Moment.owns_of_run hbefore fun _ _ => id
  have hchain : Chain file fd past u :=
    h.invariant (Chain file fd) (chain_start howns hnew hqueue) fun _ _ _ _ _ hin ha hd =>
      chain_step hin hd ha
  exact hchain.covered

/-! ## Three bytes in two blocks -/

instance (file : File) (q : Prep) (res : Int) : Decidable (file.Gives q res) :=
  match q with
  | .read _ _ _ => inferInstanceAs (Decidable (_ ∧ _ ∧ _))
  | .openat _ _ _ | .close _ | .write _ _ _ _ => .isTrue trivial

/-- Only `pump` and the kernel move. -/
def Act.undisturbed (file : File) (fd : Int) : Act → Bool
  | .call _ | .handlerFails _ => false
  | .complete sqe res => decide (sqe.prep.Reads fd → file.Gives sqe.prep res)
  | _ => true

theorem schedule_of_run {file : File} {fd : Int} {past : List (Moment × Act)} {s t : Moment}
    (h : Run Does (fun _ a => a.undisturbed file fd = true) s past t)
    (hs : ∀ count e, s.spot ≠ .aborted count e) : Run Does (Schedule file fd) s past t := by
  induction h with
  | nil => exact .nil
  | snoc h ha hd ih =>
    have hno := not_aborted_of_run h (fun _ _ hok ⟨_, he⟩ => by rw [he] at hok; cases hok) hs
    refine .snoc ih ⟨?_, ?_, fun hre => ?_⟩ hd
    · rintro c rfl
      cases ha
    · rintro sqe res rfl
      exact of_decide_eq_true ha
    · obtain ⟨-, count, e, habort⟩ := hre
      exact hno count e habort

def threeBytes : File := ⟨[104, 105, 10], by decide⟩

/-- `queue_read(4)` on a file of three bytes, which come in a block of two and one of one. -/
theorem read_chain_covers_three_bytes :
    ∃ t past u, Does (Moment.fresh 4096 4096) (.call (.read 4 0)) t ∧
      Run Does (Schedule threeBytes 4) t past u ∧ blocks 4 past = [(0, 2), (2, 1)] ∧ ends 4 past = 1 ∧
      closes 4 past = 1 ∧ Covered threeBytes 4 past u := by
  have hcall : Does (Moment.fresh 4096 4096) (.call (.read 4 0))
      { Moment.fresh 4096 4096 with ev := (Moment.fresh 4096 4096).ev.queueRead 4 0 } := .call _ trivial rfl
  have hplay : ∃ r ∈ Moment.playAll
      { Moment.fresh 4096 4096 with ev := (Moment.fresh 4096 4096).ev.queueRead 4 0 }
      (List.replicate 7 Move.pump ++ [.complete 0 2] ++ List.replicate 10 Move.pump ++ [.complete 0 1] ++
        List.replicate 10 Move.pump ++ [.complete 0 0] ++ List.replicate 3 Move.pump),
      (blocks 4 r.1 = [(0, 2), (2, 1)] ∧ ends 4 r.1 = 1 ∧ closes 4 r.1 = 1) ∧
        ∀ x ∈ r.1, x.2.undisturbed threeBytes 4 = true := by
    decide +kernel
  obtain ⟨past, u, hrun, ⟨hblocks, hends, hcloses⟩, -⟩ :=
    Moment.run_of_play (fun _ a => a.undisturbed threeBytes 4 = true) hplay fun r hr => hr.2
  have hsched := schedule_of_run hrun nofun
  have hnew : (Moment.fresh 4096 4096).Unread 4 := ⟨rfl, id, by decide +kernel⟩
  exact ⟨_, past, u, hcall, hsched, hblocks, hends, hcloses,
    read_chain_covers_the_file threeBytes .nil hnew hcall hsched⟩

end Omnipp.Utils
