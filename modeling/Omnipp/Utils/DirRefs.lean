import Omnipp.Utils.Drain

/-! # The references of a directory

`dir_ref_count_` holds a directory open while it is listed and while a file is opened relative to it.
-/

open Function Omnipp.History

namespace Omnipp.Utils

/-- The request opens something relative to the directory. -/
def Prep.OpensFrom (fd : Int) : Prep → Prop
  | .openat parent _ _ => parent = fd
  | _ => False

/-- The request closes or reads the descriptor. -/
def Prep.Names (fd : Int) : Prep → Prop
  | .close f => f = fd
  | .read f _ _ => f = fd
  | _ => False

instance (fd : Int) : DecidablePred (Prep.OpensFrom fd) := fun q =>
  match q with
  | .openat parent _ _ => inferInstanceAs (Decidable (parent = fd))
  | .close _ | .read _ _ _ | .write _ _ _ _ => .isFalse id

instance (fd : Int) : DecidablePred (Prep.Names fd) := fun q =>
  match q with
  | .close f => inferInstanceAs (Decidable (f = fd))
  | .read f _ _ => inferInstanceAs (Decidable (f = fd))
  | .openat _ _ _ | .write _ _ _ _ => .isFalse id

namespace Spot

/-- The directories still to be listed in this iteration. -/
def dirs : Spot → List Int
  | .phase (.listing todo) | .phase (.inListing _ todo) => todo
  | _ => []

/-- The listing of the directory is in progress. -/
def Lists (fd : Int) : Spot → Prop
  | .phase (.inListing f _) => f = fd
  | _ => False

instance (fd : Int) : DecidablePred (Lists fd) := fun spot =>
  match spot with
  | .phase (.inListing f _) => inferInstanceAs (Decidable (f = fd))
  | .phase (.outside _) | .phase .top | .phase (.listing _) | .phase .overflow | .phase (.drain _)
  | .phase .check | .phase .submit | .phase .peek | .phase .wait | .phase (.reap _)
  | .handling _ _ _ _ | .aborted _ _ => .isFalse id

/-- The descriptor was read, and the handler of the read runs. -/
def Reads (fd : Int) : Spot → Prop
  | .handling _ sqe res op => op = .read ∧ 0 ≤ res ∧ sqe.prep.Names fd
  | _ => False

/-- `openat_handler_` has the descriptor. -/
def InHand (fd : Int) : Spot → Prop
  | .handling _ _ res op => op = .openat ∧ 0 ≤ res ∧ res = fd
  | _ => False

end Spot

/-- `pump` reads further behind this completion, or closes what was read. -/
def GoesOn (x : Sqe × Int) : Prop := x.1.data.home = .read ∧ 0 ≤ x.2

instance : DecidablePred GoesOn := fun _ => inferInstanceAs (Decidable (_ ∧ _))

/-- The descriptor that a completion brings. -/
def opened (x : Sqe × Int) : Option Int := if x.1.data.home = .openat ∧ 0 ≤ x.2 then some x.2 else none

namespace Moment

/-- The openat requests relative to the directory that are not completed yet. -/
def opens (s : Moment) (fd : Int) : Nat := s.pending.countP (Prep.OpensFrom fd)

def refs (s : Moment) (fd : Int) : Nat := (if s.spot.Lists fd then 1 else 0) + s.opens fd

/-- The descriptor is queued for listing, or held open. -/
def Directory (s : Moment) (fd : Int) : Prop :=
  fd ∈ s.ev.getdentsQueue ∨ fd ∈ s.spot.dirs ∨ s.ev.dirRefCount fd ≠ none

/-- The requests that are not completed, and of the completed ones those after which `pump` goes on with
the descriptor. -/
def inUse (s : Moment) : Multiset Prep :=
  s.ev.pending 0 + ↑(((s.ev.ring.cq.drop s.spot.gone).filter GoesOn).map fun x => x.1.prep)

/-- A close of the descriptor is not completed, or it is read, which ends with its close. -/
def Named (s : Moment) (fd : Int) : Prop := 0 < s.inUse.countP (Prep.Names fd) ∨ s.spot.Reads fd

/-- The descriptors that `openat_handler_` has not got yet. -/
def results (s : Moment) : List Int := (s.ev.ring.cq.drop s.spot.begun).filterMap opened

end Moment

/-- `openat_handler_` queues a directory at most once, and the descriptor is not closed or read then. The
kernel does not return a descriptor before its close has completed. An openat relative to a directory
that is not held open breaks a contract and is no step. -/
def Orderly (s : Moment) : Act → Prop
  | .call (.getdents fd) => fd ∉ s.ev.getdentsQueue ∧ ¬ s.Named fd ∧
    (s.spot.InHand fd ∨ s.spot.Outside ∧ 0 ≤ fd ∧ ¬ s.Directory fd ∧ fd ∉ s.results)
  | .call (.close fd) | .call (.read fd _) => ¬ s.Directory fd ∧ fd ∉ s.results
  | .complete sqe res => sqe.data.home = .openat → 0 ≤ res →
    ¬ s.Directory res ∧ ¬ s.Named res ∧ res ∉ s.results ∧ ¬ s.spot.InHand res
  | _ => True

/-- What holds between any two steps. -/
structure Referenced (s : Moment) : Prop where
  owns : s.Owns
  count : ∀ fd, fd ≠ atFdcwd →
    s.ev.dirRefCount fd = if s.refs fd = 0 then none else some (s.refs fd)
  cwd : s.ev.dirRefCount atFdcwd = none
  nodup : (s.ev.getdentsQueue ++ s.spot.dirs).Nodup
  idle : ∀ fd ∈ s.ev.getdentsQueue ++ s.spot.dirs, 0 ≤ fd ∧ s.ev.dirRefCount fd = none
  lists : ∀ fd, s.spot.Lists fd → 0 ≤ fd
  named : ∀ fd, s.Named fd → ¬ s.Directory fd ∧ fd ∉ s.results
  results : s.results.Nodup ∧ ∀ fd ∈ s.results, 0 ≤ fd ∧ ¬ s.Directory fd
  hand : ∀ fd, s.spot.InHand fd → fd ∉ s.results ∧ s.ev.dirRefCount fd = none

theorem referenced_fresh (entries size : Nat) : Referenced (Moment.fresh entries size) where
  owns := Moment.owns_start entries size
  count _ _ := rfl
  cwd := rfl
  nodup := List.nodup_nil
  idle _ h := absurd h List.not_mem_nil
  lists _ h := h.elim
  named := by
    rintro fd (h | h)
    · exact absurd h (Nat.lt_irrefl 0)
    · exact h.elim
  results := ⟨List.nodup_nil, fun _ h => absurd h List.not_mem_nil⟩
  hand _ h := h.elim

section Steps
variable {s t : Moment} {a : Act}

theorem Referenced.ne_cwd (h : Referenced s) {fd : Int} (hl : s.spot.Lists fd) : fd ≠ atFdcwd := by
  have := h.lists fd hl
  rintro rfl
  exact absurd this (by decide)

theorem Referenced.refs_of_some (h : Referenced s) {fd : Int} {n : Nat} (hfd : fd ≠ atFdcwd)
    (hn : s.ev.dirRefCount fd = some n) : s.refs fd = n := by
  have hcount := h.count fd hfd
  rw [hn] at hcount
  split at hcount
  · cases hcount
  · exact (Option.some.inj hcount).symm

/-- A change to a directory that is held makes no other one held. -/
theorem update_of_none {refs : Int → Option Nat} {fd f : Int} {n : Nat} {v : Option Nat}
    (hn : refs fd = some n) (hf : refs f = none) : update refs fd v f = none := by
  have hne : f ≠ fd := by
    rintro rfl
    rw [hn] at hf
    cases hf
  rw [update_of_ne hne]
  exact hf

theorem Moment.opens_congr (hpending : t.pending = s.pending) (fd : Int) : t.opens fd = s.opens fd := by
  rw [Moment.opens, Moment.opens, hpending]

theorem Moment.refs_congr {fd : Int} (hlists : t.spot.Lists fd ↔ s.spot.Lists fd)
    (hopens : t.opens fd = s.opens fd) : t.refs fd = s.refs fd := by
  rw [Moment.refs, Moment.refs, hopens]
  exact congrArg (· + s.opens fd) (if_congr hlists rfl rfl)

theorem Moment.named_mono {fd : Int} (huse : t.inUse ≤ s.inUse)
    (hreads : t.spot.Reads fd → s.spot.Reads fd) (h : t.Named fd) : s.Named fd :=
  h.imp (fun hpos => hpos.trans_le (Multiset.countP_le_of_le _ huse)) hreads

theorem Moment.named_split {fd : Int} {qs : Multiset Prep} (huse : t.inUse ≤ s.inUse + qs)
    (h : t.Named fd) : s.Named fd ∨ t.spot.Reads fd ∨ 0 < qs.countP (Prep.Names fd) := by
  rcases h with hpos | hreads
  · have hle := Multiset.countP_le_of_le (Prep.Names fd) huse
    rw [Multiset.countP_add] at hle
    rcases Nat.eq_zero_or_pos (s.inUse.countP (Prep.Names fd)) with hzero | hold
    · exact .inr (.inr (by omega))
    · exact .inl (.inl hold)
  · exact .inr (.inl hreads)

/-- A step on which no directory is added and no descriptor comes from the kernel. -/
theorem Referenced.of_fewer (h : Referenced s) (howns : t.Owns)
    (hcount : ∀ fd, fd ≠ atFdcwd →
      t.ev.dirRefCount fd = if t.refs fd = 0 then none else some (t.refs fd))
    (hcwd : t.ev.dirRefCount atFdcwd = none)
    (hnodup : (t.ev.getdentsQueue ++ t.spot.dirs).Nodup)
    (hidle : ∀ fd ∈ t.ev.getdentsQueue ++ t.spot.dirs, 0 ≤ fd ∧ t.ev.dirRefCount fd = none)
    (hlists : ∀ fd, t.spot.Lists fd → 0 ≤ fd) (hdir : ∀ fd, t.Directory fd → s.Directory fd)
    (hresults : t.results.Sublist s.results)
    (hnamed : ∀ fd, t.Named fd → s.Named fd ∨ ¬ t.Directory fd ∧ fd ∉ s.results)
    (hhand : ∀ fd, t.spot.InHand fd → fd ∉ t.results ∧ t.ev.dirRefCount fd = none) : Referenced t := by
  refine ⟨howns, hcount, hcwd, hnodup, hidle, hlists, ?_, ⟨h.results.1.sublist hresults, ?_⟩, hhand⟩
  · intro fd hn
    rcases hnamed fd hn with hold | ⟨hnot, hres⟩
    · obtain ⟨hnot, hres⟩ := h.named fd hold
      exact ⟨fun hd => hnot (hdir fd hd), fun hmem => hres (hresults.subset hmem)⟩
    · exact ⟨hnot, fun hmem => hres (hresults.subset hmem)⟩
  · intro fd hmem
    obtain ⟨hpos, hnot⟩ := h.results.2 fd (hresults.subset hmem)
    exact ⟨hpos, fun hd => hnot (hdir fd hd)⟩

/-- A step that leaves the directories as they are. -/
theorem Referenced.of_frame (h : Referenced s) (howns : t.Owns)
    (hrefs : t.ev.dirRefCount = s.ev.dirRefCount) (hqueue : t.ev.getdentsQueue = s.ev.getdentsQueue)
    (hdirs : t.spot.dirs = s.spot.dirs) (hlists : ∀ fd, t.spot.Lists fd ↔ s.spot.Lists fd)
    (hopens : ∀ fd, fd ≠ atFdcwd → t.opens fd = s.opens fd)
    (hresults : t.results.Sublist s.results)
    (hnamed : ∀ fd, t.Named fd → s.Named fd ∨ ¬ s.Directory fd ∧ fd ∉ s.results)
    (hhand : ∀ fd, t.spot.InHand fd → fd ∉ t.results ∧ s.ev.dirRefCount fd = none) : Referenced t := by
  have hdir : ∀ fd, t.Directory fd ↔ s.Directory fd := by
    intro fd
    rw [Moment.Directory, Moment.Directory, hqueue, hdirs, hrefs]
  refine h.of_fewer howns ?_ ?_ ?_ ?_ ?_ (fun fd => (hdir fd).mp) hresults ?_ ?_
  · intro fd hfd
    rw [hrefs, Moment.refs_congr (hlists fd) (hopens fd hfd)]
    exact h.count fd hfd
  · rw [hrefs]
    exact h.cwd
  · rw [hqueue, hdirs]
    exact h.nodup
  · rw [hqueue, hdirs, hrefs]
    exact h.idle
  · intro fd hl
    exact h.lists fd ((hlists fd).mp hl)
  · intro fd hn
    rw [hdir]
    exact hnamed fd hn
  · rw [hrefs]
    exact hhand

/-- The other pending requests: they are completed, and `pump` does not go on with the descriptor. -/
def Moment.settling (s : Moment) : Multiset Prep :=
  ↑(((s.ev.ring.cq.drop s.spot.gone).filter (¬ GoesOn ·)).map fun x => x.1.prep)

theorem Moment.inUse_add_settling (s : Moment) : s.inUse + s.settling = s.pending := by
  have hsplit (l : List (Sqe × Int)) :
      (↑((l.filter GoesOn).map fun x => x.1.prep) + ↑((l.filter (¬ GoesOn ·)).map fun x => x.1.prep) :
        Multiset Prep) = (↑(l.map Prod.fst) : Multiset Sqe).map Sqe.prep := by
    rw [← Multiset.map_coe, ← Multiset.map_coe, ← Multiset.filter_coe, ← Multiset.filter_coe,
      ← Multiset.map_add, Multiset.filter_add_not, Multiset.map_coe, Multiset.map_coe, List.map_map]
    rfl
  rw [Moment.inUse, Moment.settling, add_assoc, hsplit, Moment.pending, Moment.held, EventLoop.pending,
    EventLoop.pending, Ring.entriesWith, Ring.entriesWith, add_zero, Multiset.map_add _ (_ + _), add_assoc]

theorem RingMove.settling (hm : RingMove s a t) (hbound : s.spot.gone ≤ s.ev.ring.cq.length) :
    s.settling ≤ t.settling + Moment.dealt a := by
  have same (hcq : t.ev.ring.cq.drop t.spot.gone = s.ev.ring.cq.drop s.spot.gone) :
      s.settling ≤ t.settling + Moment.dealt a := by
    rw [Moment.settling, Moment.settling, hcq]
    exact Multiset.le_add_right _ _
  have next {sqe : Sqe} {res : Int} (hget : s.ev.ring.cq[s.spot.gone]? = some (sqe, res))
      (hcq : t.ev.ring.cq = s.ev.ring.cq) (hgone : t.spot.gone = s.spot.gone + 1)
      (hdealt : Moment.dealt a = {sqe.prep}) : s.settling ≤ t.settling + Moment.dealt a := by
    obtain ⟨hlt, hget⟩ := List.getElem?_eq_some_iff.mp hget
    rw [Moment.settling, Moment.settling, hcq, hgone, hdealt, List.drop_eq_getElem_cons hlt, hget,
      List.filter_cons]
    split
    · rw [List.map_cons, ← Multiset.cons_coe, ← Multiset.singleton_add, add_comm]
    · exact Multiset.le_add_right _ _
  cases hm with
  | grows hring hgone => exact same (by rw [hring.2.2.1, hgone])
  | settles hcq hring hgone hdealt => exact next hcq hring.2.2.1 hgone hdealt
  | loses ha hread hneg hcq hring hgone =>
    refine next hcq (by rw [hring]) hgone ?_
    rw [ha]
    exact if_neg (by omega)
  | submits ha hring hgone =>
    refine same ?_
    rw [hring, hgone]
    rfl
  | advances ha hring hgone =>
    refine same ?_
    rw [hring, hgone]
    exact List.drop_zero
  | completes ha hk hring hgone =>
    rw [Moment.settling, Moment.settling, hring, hgone, List.drop_append_of_le_length hbound,
      List.filter_append, List.map_append, ← Multiset.coe_add, add_assoc]
    exact Multiset.le_add_right _ _

/-- Only the calls of a step take a descriptor into use. -/
theorem Moment.inUse_step (h : s.Owns) (hd : Does s a t) (hre : ¬ Reenters s a) :
    t.inUse ≤ s.inUse + EventLoop.preps (s.made a) := by
  have hled := (Moment.owns_step h hd hre).2
  rw [← Moment.inUse_add_settling, ← Moment.inUse_add_settling] at hled
  refine le_of_add_le_add_right (a := s.settling) ?_
  calc t.inUse + s.settling
      ≤ t.inUse + (t.settling + Moment.dealt a) :=
        add_le_add_right ((ring_step h hd hre).settling h.bound) _
    _ = s.inUse + EventLoop.preps (s.made a) + s.settling := by
        rw [← add_assoc, hled, add_right_comm]

/-- The ledger, for the openat requests of one directory. -/
theorem Moment.opens_step (h : s.Owns) (hd : Does s a t) (hre : ¬ Reenters s a) (fd : Int) :
    t.opens fd + (Moment.dealt a).countP (Prep.OpensFrom fd) =
      s.opens fd + (EventLoop.preps (s.made a)).countP (Prep.OpensFrom fd) := by
  rw [Moment.opens, Moment.opens, ← Multiset.countP_add, ← Multiset.countP_add,
    (Moment.owns_step h hd hre).2]

/-- A step that leaves the requests as they are, too. -/
theorem Referenced.of_same (h : Referenced s) (howns : t.Owns) (hpending : t.pending = s.pending)
    (huse : t.inUse ≤ s.inUse) (hrefs : t.ev.dirRefCount = s.ev.dirRefCount)
    (hqueue : t.ev.getdentsQueue = s.ev.getdentsQueue)
    (hdirs : t.spot.dirs = s.spot.dirs) (hlists : ∀ fd, t.spot.Lists fd ↔ s.spot.Lists fd)
    (hresults : t.results = s.results) (hreads : ∀ fd, t.spot.Reads fd → s.spot.Reads fd)
    (hhand : ∀ fd, t.spot.InHand fd → s.spot.InHand fd) : Referenced t := by
  refine h.of_frame howns hrefs hqueue hdirs hlists (fun fd _ => Moment.opens_congr hpending fd)
    (hresults ▸ List.Sublist.refl _) (fun fd hn => .inl (Moment.named_mono huse (hreads fd) hn)) ?_
  intro fd hh
  rw [hresults]
  exact h.hand fd (hhand fd hh)

theorem Moment.results_congr (hcq : t.ev.ring.cq = s.ev.ring.cq) (hbegun : t.spot.begun = s.spot.begun) :
    t.results = s.results := by
  rw [Moment.results, Moment.results, hcq, hbegun]

end Steps

namespace EventLoop

variable {ev ev' : EventLoop}

theorem queueOpenat_refs {parentFd : Int} {path : String} {flags : Nat}
    (h : ev.queueOpenat parentFd path flags = some ev') :
    parentFd = atFdcwd ∧ ev'.dirRefCount = ev.dirRefCount ∨
      parentFd ≠ atFdcwd ∧ ∃ n, ev.dirRefCount parentFd = some n ∧
        ev'.dirRefCount = update ev.dirRefCount parentFd (some (n + 1)) := by
  unfold queueOpenat at h
  split at h
  · rename_i hcwd
    cases h
    exact .inl ⟨hcwd, rfl⟩
  · rename_i hcwd
    split at h
    · simp only [increaseDirRef, Option.map_map, Option.map_eq_some_iff] at h
      obtain ⟨n, hn, rfl⟩ := h
      exact .inr ⟨hcwd, n, hn, rfl⟩
    · cases h

theorem decreaseDirRef_refs {fd : Int} (h : ev.decreaseDirRef fd = some ev') :
    ∃ n, ev.dirRefCount fd = some (n + 1) ∧
      ev'.dirRefCount = update ev.dirRefCount fd (if n = 0 then none else some n) := by
  unfold decreaseDirRef at h
  split at h
  · cases h
  · cases h
  · rename_i hone
    cases h
    exact ⟨0, hone, rfl⟩
  · rename_i n hmore
    cases h
    exact ⟨n + 1, hmore, rfl⟩

theorem countP_single (p : Prep → Prop) [DecidablePred p] (q : Prep) :
    Multiset.countP p {q} = if p q then 1 else 0 := by
  rw [← Multiset.cons_zero, Multiset.countP_cons, Multiset.countP_zero, Nat.zero_add]

theorem lastRef_countP (p : Prep → Prop) [DecidablePred p] (ev : EventLoop) (fd : Int) :
    (preps (ev.lastRef fd)).countP p = if ev.dirRefCount fd = some 1 ∧ p (.close fd) then 1 else 0 := by
  unfold lastRef
  split
  · rename_i hone
    rw [preps_singleton, Call.preps, countP_single]
    simp [hone]
  · rename_i hmore
    simp [hmore]

theorem popOverflow_refs {popped : Bool} (h : ev.popOverflow = (popped, ev')) :
    ev'.dirRefCount = ev.dirRefCount := by
  unfold popOverflow at h
  split at h
  · cases h
    rfl
  · split at h
    · cases h
      rfl
    · split at h <;> cases h <;> rfl

/-- Behind a handler, nothing is opened. -/
theorem behindCalls_opens (ev : EventLoop) (op : Op) (slot : Slot) (res : Int) (fd : Int) :
    (preps (ev.behindCalls op slot res)).countP (Prep.OpensFrom fd) = 0 := by
  have hclose (f : Int) : ¬ (Prep.close f).OpensFrom fd := id
  have hread (f : Int) (n : Nat) (offset : UInt64) : ¬ (Prep.read f n offset).OpensFrom fd := id
  have hwrite (f : Int) (buffer : Bytes) (offset : UInt64) (n : Nat) :
      ¬ (Prep.write f buffer offset n).OpensFrom fd := id
  rcases op with _ | _ | _ | _
  · simp only [behindCalls]
    split
    · rfl
    · rw [lastRef_countP, if_neg fun h => hclose _ h.2]
  · rfl
  · simp only [behindCalls]
    split
    · simp [Call.preps, countP_single, hclose]
    · split
      · simp [Call.preps, countP_single, hread]
      · rfl
  · simp only [behindCalls]
    split
    · simp [Call.preps, countP_single, hwrite]
    · rfl

/-- Only behind a read that did not fail, a descriptor is read or closed: that of the request. -/
theorem behindCalls_names {op : Op} {slot : Slot} {res : Int} (hop : op ≠ .openat) {q : Prep} {fd : Int}
    (hq : q ∈ preps (ev.behindCalls op slot res)) (hname : q.Names fd) :
    op = .read ∧ 0 ≤ res ∧ (ev.reads.objects slot).fields.fd = fd := by
  rcases op with _ | _ | _ | _
  · exact absurd rfl hop
  · exact absurd hq (Multiset.notMem_zero _)
  · simp only [behindCalls] at hq
    split at hq
    · rename_i hzero
      rw [preps_singleton, Call.preps, Multiset.mem_singleton] at hq
      subst hq
      exact ⟨rfl, hzero.ge, hname⟩
    · split at hq
      · rename_i hpos
        rw [preps_singleton, Call.preps, Multiset.mem_singleton] at hq
        subst hq
        exact ⟨rfl, hpos.le, hname⟩
      · exact absurd hq (Multiset.notMem_zero _)
  · simp only [behindCalls] at hq
    split at hq
    · rw [preps_singleton, Call.preps, Multiset.mem_singleton] at hq
      subst hq
      exact hname.elim
    · exact absurd hq (Multiset.notMem_zero _)

theorem mem_preps {calls : List Call} {c : Call} (hc : c ∈ calls) {q : Prep} (hq : q ∈ c.preps) :
    q ∈ preps calls := by
  induction calls with
  | nil => exact absurd hc List.not_mem_nil
  | cons d calls ih =>
    rw [preps_cons, Multiset.mem_add]
    rcases List.mem_cons.mp hc with rfl | hc
    · exact .inl hq
    · exact .inr (ih hc)

theorem behind_dirs {op : Op} {slot : Slot} {res : Int} (h : ev.behind op slot res = some ev')
    (hop : op ≠ .openat) :
    ev'.dirRefCount = ev.dirRefCount ∧ ev'.getdentsQueue = ev.getdentsQueue := by
  rcases op with _ | _ | _ | _
  · exact absurd rfl hop
  · cases h
    exact ⟨rfl, rfl⟩
  · simp only [behind] at h
    split at h
    · cases h
      exact ⟨rfl, rfl⟩
    · split at h <;> cases h <;> exact ⟨rfl, rfl⟩
  · simp only [behind] at h
    cases h
    split <;> exact ⟨rfl, rfl⟩

theorem behind_cq {op : Op} {slot : Slot} {res : Int} (h : ev.behind op slot res = some ev') :
    ev'.ring.cq = ev.ring.cq := by
  by_cases hread : op = .read ∧ res ≠ 0
  · obtain ⟨rfl, hne⟩ := hread
    simp only [behind, if_neg hne] at h
    split at h
    · cases h
      exact (ev.queueRead_grew _ _).2.2.1
    · cases h
      rfl
  · exact (behind_grew hread h).2.2.1

end EventLoop

section Steps
variable {s t : Moment} {a : Act}

/-- A reference to `fd` is given back. -/
theorem Referenced.of_release (h : Referenced s) (howns : t.Owns) {fd : Int} {n : Nat}
    (hfd : fd ≠ atFdcwd) (hn : s.ev.dirRefCount fd = some (n + 1))
    (hrefs : t.ev.dirRefCount = update s.ev.dirRefCount fd (if n = 0 then none else some n))
    (hqueue : t.ev.getdentsQueue = s.ev.getdentsQueue) (hdirs : t.spot.dirs = s.spot.dirs)
    (hlists : ∀ f, t.spot.Lists f → s.spot.Lists f)
    (hself : t.refs fd + 1 = s.refs fd)
    (hother : ∀ f, f ≠ fd → f ≠ atFdcwd → t.refs f = s.refs f)
    (hresults : t.results.Sublist s.results)
    (hnamed : ∀ f, t.Named f → s.Named f ∨ f = fd ∧ n = 0)
    (hhand : ∀ f, ¬ t.spot.InHand f) : Referenced t := by
  have hnone : ∀ f, s.ev.dirRefCount f = none → t.ev.dirRefCount f = none := by
    intro f hf
    rw [hrefs]
    exact update_of_none hn hf
  have hbusy : fd ∉ s.ev.getdentsQueue ++ s.spot.dirs := by
    intro hmem
    have := (h.idle fd hmem).2
    rw [hn] at this
    cases this
  refine h.of_fewer howns ?_ (hnone _ h.cwd) ?_ ?_ (fun f hf => h.lists f (hlists f hf)) ?_ hresults ?_
    fun f hf => absurd hf (hhand f)
  · intro f hf
    by_cases hff : f = fd
    · subst hff
      have hsn := h.refs_of_some hfd hn
      have htn : t.refs f = n := by omega
      rw [hrefs, update_self, htn]
    · rw [hrefs, update_of_ne hff, hother f hff hf]
      exact h.count f hf
  · rw [hqueue, hdirs]
    exact h.nodup
  · rw [hqueue, hdirs]
    exact fun f hf => ⟨(h.idle f hf).1, hnone f (h.idle f hf).2⟩
  · intro f hf
    rcases hf with hf | hf | hf
    · exact .inl (hqueue ▸ hf)
    · exact .inr (.inl (hdirs ▸ hf))
    · exact .inr (.inr fun hs => hf (hnone f hs))
  · intro f hf
    rcases hnamed f hf with hold | ⟨rfl, rfl⟩
    · exact .inl hold
    · right
      have hdirectory : s.Directory f := .inr (.inr (by rw [hn]; simp))
      refine ⟨?_, fun hmem => (h.results.2 f hmem).2 hdirectory⟩
      rintro (hq | hd | hr)
      · exact hbusy (List.mem_append_left _ (hqueue ▸ hq))
      · exact hbusy (List.mem_append_right _ (hdirs ▸ hd))
      · rw [hrefs, update_self] at hr
        exact hr rfl

theorem Moment.named_of_last {fd f : Int} {n : Nat} (hn : s.ev.dirRefCount fd = some (n + 1))
    (huse : t.inUse ≤ s.inUse + EventLoop.preps (s.ev.lastRef fd)) (hreads : ¬ t.spot.Reads f)
    (h : t.Named f) : s.Named f ∨ f = fd ∧ n = 0 := by
  rcases Moment.named_split huse h with hold | hnow | hpos
  · exact .inl hold
  · exact absurd hnow hreads
  · rw [EventLoop.lastRef_countP] at hpos
    split at hpos
    · rename_i hlast
      rw [hn] at hlast
      exact .inr ⟨hlast.2.symm, by simpa using hlast.1⟩
    · cases hpos

theorem Referenced.listed (h : Referenced s) (howns : t.Owns) {fd : Int} {todo : List Int}
    {ev : EventLoop} (hp : s.spot = .phase (.inListing fd todo)) (hc : s.ev.decreaseDirRef fd = some ev)
    (ht : t = { s with ev, spot := .phase (.listing todo) })
    (hled : ∀ f, t.opens f = s.opens f + (EventLoop.preps (s.ev.lastRef fd)).countP (Prep.OpensFrom f))
    (huse : t.inUse ≤ s.inUse + EventLoop.preps (s.ev.lastRef fd)) : Referenced t := by
  have hfd : fd ≠ atFdcwd := h.ne_cwd (by rw [hp]; rfl)
  obtain ⟨n, hn, hrefs⟩ := EventLoop.decreaseDirRef_refs hc
  have hopens : ∀ f, t.opens f = s.opens f := by
    intro f
    rw [hled, EventLoop.lastRef_countP, if_neg fun hc => hc.2.elim, Nat.add_zero]
  subst ht
  refine h.of_release howns hfd hn hrefs (EventLoop.decreaseDirRef_aside hc).1 (by rw [hp]; rfl)
    (fun f hf => hf.elim) ?_ ?_ ?_ ?_ fun f hf => hf
  · have hl : s.spot.Lists fd := by rw [hp]; rfl
    have hl' : ¬ (Spot.phase (.listing todo)).Lists fd := id
    simp only [Moment.refs, hopens, if_pos hl, if_neg hl']
    omega
  · intro f hne _
    have hl : ¬ s.spot.Lists f := by
      rw [hp]
      exact fun heq => hne heq.symm
    have hl' : ¬ (Spot.phase (.listing todo)).Lists f := id
    simp only [Moment.refs, hopens, if_neg hl, if_neg hl']
  · have hsame : Moment.results { s with ev, spot := .phase (.listing todo) } = s.results :=
      Moment.results_congr (EventLoop.decreaseDirRef_grew hc).2.2.1 (by rw [hp]; rfl)
    rw [hsame]
  · exact fun f => Moment.named_of_last hn huse id

/-! ## The calls -/

theorem Referenced.openatParent (h : Referenced s) (howns : t.Owns) {parent : Int} {n : Nat}
    (hn : s.ev.dirRefCount parent = some n)
    (hspot : t.spot = s.spot) (hqueue : t.ev.getdentsQueue = s.ev.getdentsQueue)
    (hrefs : t.ev.dirRefCount = update s.ev.dirRefCount parent (some (n + 1)))
    (hopens : ∀ fd, t.opens fd = s.opens fd + if fd = parent then 1 else 0)
    (hresults : t.results = s.results) (hnamed : ∀ fd, t.Named fd → s.Named fd) : Referenced t := by
  have hnone : ∀ f, s.ev.dirRefCount f = none → t.ev.dirRefCount f = none := by
    intro f hf
    rw [hrefs]
    exact update_of_none hn hf
  have hsame : ∀ f, t.refs f = s.refs f + if f = parent then 1 else 0 := by
    intro f
    rw [Moment.refs, Moment.refs, hspot, hopens f, Nat.add_assoc]
  refine h.of_fewer howns ?_ (hnone _ h.cwd) ?_ ?_ (fun f hf => h.lists f (hspot ▸ hf)) ?_
    (by rw [hresults]) (fun f hf => .inl (hnamed f hf)) ?_
  · intro f hf
    rw [hsame f]
    by_cases hff : f = parent
    · subst hff
      rw [hrefs, update_self, if_pos rfl, if_neg (Nat.succ_ne_zero _), h.refs_of_some hf hn]
    · rw [hrefs, update_of_ne hff, if_neg hff, Nat.add_zero]
      exact h.count f hf
  · rw [hqueue, hspot]
    exact h.nodup
  · rw [hqueue, hspot]
    exact fun f hf => ⟨(h.idle f hf).1, hnone f (h.idle f hf).2⟩
  · intro f hf
    rw [Moment.Directory, hqueue, hspot] at hf
    exact hf.imp_right (Or.imp_right fun hne hs => hne (hnone f hs))
  · intro f hf
    rw [hspot] at hf
    obtain ⟨hres, hzero⟩ := h.hand f hf
    exact ⟨hresults ▸ hres, hnone f hzero⟩

/-- Nothing is left to list when a directory is queued. -/
theorem Orderly.dirs_nil {fd : Int} (ho : Orderly s (.call (.getdents fd))) : s.spot.dirs = [] := by
  obtain ⟨-, -, hwho⟩ := ho
  rcases hspot : s.spot with p | _ | _
  · rw [hspot] at hwho
    rcases p with _ | _ | _ | _ | _ | _ | _ | _ | _ | _ | _ <;>
      first | rfl | exact hwho.elim False.elim fun hout => hout.1.elim
  · rfl
  · rfl

/-- Nobody uses the directory that is queued. -/
theorem Referenced.unused (h : Referenced s) {fd : Int} (ho : Orderly s (.call (.getdents fd))) :
    0 ≤ fd ∧ s.ev.dirRefCount fd = none ∧ fd ∉ s.results := by
  obtain ⟨-, -, hwho⟩ := ho
  rcases hwho with hhand | ⟨-, hpos, hdir, hres⟩
  · obtain ⟨hres, hnone⟩ := h.hand fd hhand
    refine ⟨?_, hnone, hres⟩
    rcases hspot : s.spot with _ | _ | _ <;> rw [hspot] at hhand
    · exact hhand.elim
    · obtain ⟨-, hpos, rfl⟩ := hhand
      exact hpos
    · exact hhand.elim
  · exact ⟨hpos, not_not.mp fun hne => hdir (.inr (.inr hne)), hres⟩

theorem Referenced.getdents (h : Referenced s) (howns : t.Owns) {fd : Int}
    (ht : t = { s with ev := s.ev.queueGetdents fd }) (hpending : t.pending = s.pending)
    (huse : t.inUse ≤ s.inUse) (ho : Orderly s (.call (.getdents fd))) : Referenced t := by
  have hdirs := ho.dirs_nil
  have hfd := h.unused ho
  obtain ⟨hnew, hnamed, -⟩ := ho
  have hdirectory : ∀ f, t.Directory f → s.Directory f ∨ f = fd := by
    intro f hf
    subst ht
    rcases hf with hf | hf
    · rcases List.mem_append.mp hf with hf | hf
      · exact .inl (.inl hf)
      · exact .inr (List.mem_singleton.mp hf)
    · exact .inl (.inr hf)
  have hspot : t.spot = s.spot := by rw [ht]
  have hname : ∀ f, t.Named f → s.Named f := fun f => Moment.named_mono huse (by rw [hspot]; exact id)
  have hresults : t.results = s.results := by
    subst ht
    rfl
  refine ⟨howns, ?_, ?_, ?_, ?_, ?_, ?_, ⟨hresults ▸ h.results.1, ?_⟩, ?_⟩
  · intro f hf
    rw [Moment.refs_congr (by rw [hspot]) (Moment.opens_congr hpending f)]
    subst ht
    exact h.count f hf
  · subst ht
    exact h.cwd
  · subst ht
    have hnodup := h.nodup
    rw [hdirs, List.append_nil] at hnodup
    change (s.ev.getdentsQueue ++ [fd] ++ s.spot.dirs).Nodup
    rw [hdirs, List.append_nil]
    refine List.nodup_append.mpr ⟨hnodup, List.nodup_singleton _, ?_⟩
    intro f hf g hg
    rw [List.mem_singleton.mp hg]
    rintro rfl
    exact hnew hf
  · intro f hf
    subst ht
    change f ∈ s.ev.getdentsQueue ++ [fd] ++ s.spot.dirs at hf
    rw [hdirs, List.append_nil] at hf
    rcases List.mem_append.mp hf with hf | hf
    · exact h.idle f (List.mem_append_left _ hf)
    · rw [List.mem_singleton.mp hf]
      exact ⟨hfd.1, hfd.2.1⟩
  · subst ht
    exact h.lists
  · intro f hf
    obtain ⟨hdir, hres⟩ := h.named f (hname f hf)
    refine ⟨fun hd => ?_, hresults ▸ hres⟩
    rcases hdirectory f hd with hd | rfl
    · exact hdir hd
    · exact hnamed (hname f hf)
  · intro f hf
    rw [hresults] at hf
    obtain ⟨hpos, hdir⟩ := h.results.2 f hf
    refine ⟨hpos, fun hd => ?_⟩
    rcases hdirectory f hd with hd | rfl
    · exact hdir hd
    · exact hfd.2.2 hf
  · intro f hf
    rw [hresults]
    subst ht
    exact h.hand f hf

theorem Referenced.call (h : Referenced s) (howns : t.Owns) {c : EventLoop.Call} {ev : EventLoop}
    (hc : s.ev.call c = some ev) (ht : t = { s with ev })
    (hpending : t.pending = s.pending + c.preps) (huse : t.inUse ≤ s.inUse + c.preps)
    (ho : Orderly s (.call c)) : Referenced t := by
  have hresults : t.results = s.results := by
    subst ht
    exact Moment.results_congr (EventLoop.call_grew hc).2.2.1 rfl
  have hcount : ∀ f, t.opens f = s.opens f + c.preps.countP (Prep.OpensFrom f) := by
    intro f
    rw [Moment.opens, hpending, Multiset.countP_add]
    rfl
  have hspot : t.spot = s.spot := by
    subst ht
    rfl
  have hname : ∀ f, t.Named f → s.Named f ∨ 0 < c.preps.countP (Prep.Names f) := by
    intro f hf
    rcases Moment.named_split huse hf with hold | hreads | hpos
    · exact .inl hold
    · exact .inl (.inr (hspot ▸ hreads))
    · exact .inr hpos
  have hhand : ∀ fd, t.spot.InHand fd → fd ∉ t.results ∧ s.ev.dirRefCount fd = none := by
    intro fd hf
    rw [hresults]
    exact h.hand fd (hspot ▸ hf)
  -- A request for a descriptor that is no directory.
  have hother (q : Prep) (hq : c.preps = {q}) (hrefs : t.ev.dirRefCount = s.ev.dirRefCount)
      (hqueue : t.ev.getdentsQueue = s.ev.getdentsQueue)
      (hopen : ∀ fd, fd ≠ atFdcwd → ¬ q.OpensFrom fd)
      (hnames : ∀ fd, q.Names fd → ¬ s.Directory fd ∧ fd ∉ s.results) : Referenced t := by
    refine h.of_frame howns hrefs hqueue (by rw [hspot]) (fun fd => by rw [hspot]) ?_ (by rw [hresults])
      ?_ hhand
    · intro fd hfd
      rw [hcount, hq, EventLoop.countP_single, if_neg (hopen fd hfd), Nat.add_zero]
    · intro fd hf
      refine (hname fd hf).imp_right fun hpos => ?_
      rw [hq, EventLoop.countP_single] at hpos
      split at hpos
      · rename_i hqf
        exact hnames fd hqf
      · cases hpos
  rcases c with ⟨parent, path, flags⟩ | fd | fd | ⟨fd, offset⟩ | ⟨fd, buffer, offset⟩
  · have haside : ev.getdentsQueue = s.ev.getdentsQueue := (EventLoop.queueOpenat_aside hc).1
    rcases EventLoop.queueOpenat_refs hc with ⟨rfl, hrefs⟩ | ⟨hne, n, hn, hrefs⟩
    · refine hother _ rfl (by rw [ht]; exact hrefs) (by rw [ht]; exact haside) ?_ nofun
      intro fd hfd heq
      exact hfd heq.symm
    · refine h.openatParent howns hn hspot (by rw [ht]; exact haside) (by rw [ht]; exact hrefs)
        ?_ hresults ?_
      · intro fd
        rw [hcount, EventLoop.Call.preps, EventLoop.countP_single]
        exact congrArg _ (if_congr eq_comm rfl rfl)
      · intro fd hf
        have hno : ¬ (Prep.openat parent path flags).Names fd := id
        refine (hname fd hf).resolve_right ?_
        rw [EventLoop.Call.preps, EventLoop.countP_single, if_neg hno]
        exact Nat.lt_irrefl 0
  · cases hc
    exact h.getdents howns ht (by rw [hpending]; exact add_zero _) (huse.trans_eq (add_zero _)) ho
  · cases hc
    refine hother _ rfl (by rw [ht]; rfl) (by rw [ht]; rfl) (fun _ _ => id) ?_
    rintro f rfl
    exact ho
  · cases hc
    refine hother _ rfl (by rw [ht]; rfl) (by rw [ht]; rfl) (fun _ _ => id) ?_
    rintro f rfl
    exact ho
  · cases hc
    exact hother _ rfl (by rw [ht]; rfl) (by rw [ht]; rfl) (fun _ _ => id) nofun

/-! ## The listing -/

theorem Referenced.swap (h : Referenced s) (howns : t.Owns) (hp : s.spot = .phase .top)
    (ht : t = { s with ev := { s.ev with getdentsQueue := [] }
                       spot := .phase (.listing s.ev.getdentsQueue) })
    (hpending : t.pending = s.pending) (huse : t.inUse ≤ s.inUse) : Referenced t := by
  have hqueue : s.ev.getdentsQueue ++ s.spot.dirs = t.ev.getdentsQueue ++ t.spot.dirs := by
    rw [ht, hp]
    exact List.append_nil _
  have hrefs : t.ev.dirRefCount = s.ev.dirRefCount := by rw [ht]
  refine h.of_fewer howns ?_ (hrefs ▸ h.cwd) (hqueue ▸ h.nodup) ?_ ?_ ?_ ?_ ?_ ?_
  · intro f hf
    have hlists : t.spot.Lists f ↔ s.spot.Lists f := by
      rw [ht, hp]
      exact Iff.rfl
    rw [hrefs, Moment.refs_congr hlists (Moment.opens_congr hpending f)]
    exact h.count f hf
  · rw [← hqueue, hrefs]
    exact h.idle
  · rw [ht]
    exact fun _ hf => hf.elim
  · intro f hf
    rw [Moment.Directory, ← or_assoc, ← List.mem_append, ← hqueue, hrefs, List.mem_append, or_assoc] at hf
    exact hf
  · have hsame : t.results = s.results := by
      rw [ht]
      exact Moment.results_congr rfl (by rw [hp]; rfl)
    rw [hsame]
  · intro f hf
    exact .inl (Moment.named_mono huse (by rw [ht]; exact False.elim) hf)
  · rw [ht]
    exact fun _ hf => hf.elim

theorem Referenced.list (h : Referenced s) (howns : t.Owns) {fd : Int} {todo : List Int}
    (hp : s.spot = .phase (.listing (fd :: todo)))
    (ht : t = { s with ev := { s.ev with dirRefCount := update s.ev.dirRefCount fd (some 1) }
                       spot := .phase (.inListing fd todo) })
    (hpending : t.pending = s.pending) (huse : t.inUse ≤ s.inUse) : Referenced t := by
  have hdirs : s.spot.dirs = fd :: todo := by
    rw [hp]
    rfl
  obtain ⟨hpos, hnone⟩ := h.idle fd (by simp [hdirs])
  have hfd : fd ≠ atFdcwd := by
    rintro rfl
    exact absurd hpos (by decide)
  have hrefs : t.ev.dirRefCount = update s.ev.dirRefCount fd (some 1) := by rw [ht]
  have hnodup : fd ∉ s.ev.getdentsQueue ++ todo ∧ (s.ev.getdentsQueue ++ todo).Nodup := by
    have := h.nodup
    rw [hdirs, List.nodup_middle, List.nodup_cons] at this
    exact this
  have hsub : ∀ f ∈ s.ev.getdentsQueue ++ todo, f ∈ s.ev.getdentsQueue ++ s.spot.dirs := by
    intro f hf
    rw [hdirs]
    exact List.mem_append.mpr ((List.mem_append.mp hf).imp_right (List.mem_cons_of_mem _))
  have hzero : ∀ f, ¬ s.spot.Lists f := by
    rw [hp]
    exact fun _ => id
  refine h.of_fewer howns ?_ ?_ ?_ ?_ ?_ ?_ ?_ ?_ ?_
  · intro f hf
    have hcount := h.count f hf
    rw [Moment.refs, if_neg (hzero f), Nat.zero_add] at hcount
    rw [hrefs, Moment.refs, Moment.opens_congr hpending f, ht]
    by_cases hff : f = fd
    · subst hff
      rw [hnone] at hcount
      split at hcount
      · rename_i hnil
        have hl : (Spot.phase (.inListing f todo)).Lists f := rfl
        rw [update_self, if_pos hl, hnil]
        rfl
      · cases hcount
    · have hl : ¬ (Spot.phase (.inListing fd todo)).Lists f := fun heq => hff heq.symm
      rw [update_of_ne hff, if_neg hl, Nat.zero_add]
      exact hcount
  · rw [hrefs, update_of_ne hfd.symm]
    exact h.cwd
  · rw [ht]
    exact hnodup.2
  · rw [hrefs, ht]
    intro f hf
    have hne : f ≠ fd := by
      rintro rfl
      exact hnodup.1 hf
    rw [update_of_ne hne]
    exact h.idle f (hsub f hf)
  · rw [ht]
    rintro f rfl
    exact hpos
  · intro f hf
    by_cases hff : f = fd
    · right
      left
      rw [hff, hdirs]
      exact List.mem_cons_self
    · rw [Moment.Directory, hrefs, update_of_ne hff, ht] at hf
      rcases hf with hf | hf | hf
      · exact .inl hf
      · right
        left
        rw [hdirs]
        exact List.mem_cons_of_mem _ hf
      · exact .inr (.inr hf)
  · have hsame : t.results = s.results := by
      rw [ht]
      exact Moment.results_congr rfl (by rw [hp]; rfl)
    rw [hsame]
  · intro f hf
    exact .inl (Moment.named_mono huse (by rw [ht]; exact False.elim) hf)
  · rw [ht]
    exact fun _ hf => hf.elim

/-! ## The completions -/

theorem Moment.Owns.begun_le (h : s.Owns) : s.spot.begun ≤ s.ev.ring.cq.length := by
  have hbound := h.bound
  rcases hspot : s.spot with p | ⟨count, sqe, res, op⟩ | _
  · rw [hspot] at hbound
    exact hbound
  · exact (List.getElem?_eq_some_iff.mp (h.cqe _ _ _ _ hspot).1).1
  · rw [hspot] at hbound
    exact hbound

/-- A read that did not fail is in use until its completion is handled. -/
theorem Moment.mem_inUse_of_cqe {count : Nat} {sqe : Sqe} {res : Int} (hgone : s.spot.gone = count)
    (hcq : s.ev.ring.cq[count]? = some (sqe, res)) (hgoes : GoesOn (sqe, res)) : sqe.prep ∈ s.inUse := by
  obtain ⟨hlt, hget⟩ := List.getElem?_eq_some_iff.mp hcq
  refine Multiset.mem_add.mpr (.inr (Multiset.mem_coe.mpr ?_))
  rw [hgone, List.drop_eq_getElem_cons hlt, hget, List.filter_cons, if_pos (decide_eq_true hgoes)]
  exact List.mem_cons_self

theorem Moment.mem_pending_of_cqe {count : Nat} {sqe : Sqe} {res : Int} (hgone : s.spot.gone = count)
    (hcq : s.ev.ring.cq[count]? = some (sqe, res)) : sqe.prep ∈ s.pending := by
  unfold Moment.pending EventLoop.pending
  exact Multiset.mem_add.mpr (.inr (Multiset.mem_map_of_mem _ (Moment.mem_entries_of_cqe hgone hcq)))

theorem Referenced.complete (h : Referenced s) (howns : t.Owns) {before behind : List Sqe} {sqe : Sqe}
    {res : Int}
    (ht : t = { s with ev := { s.ev with ring := { s.ev.ring with
      kernel := before ++ behind, cq := s.ev.ring.cq ++ [(sqe, res)] } } })
    (hpending : t.pending = s.pending) (huse : t.inUse ≤ s.inUse)
    (ho : Orderly s (.complete sqe res)) : Referenced t := by
  have hresults : t.results = s.results ++ (opened (sqe, res)).toList := by
    subst ht
    change ((s.ev.ring.cq ++ [(sqe, res)]).drop s.spot.begun).filterMap opened = _
    rw [List.drop_append_of_le_length h.owns.begun_le, List.filterMap_append, Moment.results]
    cases hopen : opened (sqe, res) <;> simp [hopen]
  have hspot : t.spot = s.spot := by rw [ht]
  have hname : ∀ f, t.Named f → s.Named f := fun f => Moment.named_mono huse (by rw [hspot]; exact id)
  have hdir : ∀ f, t.Directory f ↔ s.Directory f := by
    intro f
    rw [ht]
    rfl
  have hnew : ∀ f ∈ (opened (sqe, res)).toList,
      0 ≤ f ∧ ¬ s.Directory f ∧ ¬ s.Named f ∧ f ∉ s.results ∧ ¬ s.spot.InHand f := by
    intro f hf
    unfold opened at hf
    split at hf
    · rename_i hopen
      rw [Option.toList_some, List.mem_singleton] at hf
      subst hf
      exact ⟨hopen.2, ho hopen.1 hopen.2⟩
    · exact absurd hf List.not_mem_nil
  refine ⟨howns, ?_, ?_, ?_, ?_, ?_, ?_, ⟨?_, ?_⟩, ?_⟩
  · intro f hf
    rw [Moment.refs_congr (by rw [hspot]) (Moment.opens_congr hpending f), ht]
    exact h.count f hf
  · rw [ht]
    exact h.cwd
  · rw [ht]
    exact h.nodup
  · rw [ht]
    exact h.idle
  · rw [ht]
    exact h.lists
  · intro f hf
    obtain ⟨hd, hres⟩ := h.named f (hname f hf)
    refine ⟨fun hdt => hd ((hdir f).mp hdt), fun hmem => ?_⟩
    rw [hresults] at hmem
    rcases List.mem_append.mp hmem with hmem | hmem
    · exact hres hmem
    · exact (hnew f hmem).2.2.1 (hname f hf)
  · rw [hresults]
    refine List.nodup_append.mpr ⟨h.results.1, ?_, ?_⟩
    · cases opened (sqe, res)
      · exact List.nodup_nil
      · exact List.nodup_singleton _
    · intro f hf g hg
      rintro rfl
      exact (hnew f hg).2.2.2.1 hf
  · intro f hf
    rw [hdir]
    rw [hresults] at hf
    rcases List.mem_append.mp hf with hf | hf
    · exact h.results.2 f hf
    · exact ⟨(hnew f hf).1, (hnew f hf).2.1⟩
  · intro f hf
    have hhand : s.spot.InHand f := hspot ▸ hf
    obtain ⟨hres, hnone⟩ := h.hand f hhand
    refine ⟨fun hmem => ?_, by rw [ht]; exact hnone⟩
    rw [hresults] at hmem
    rcases List.mem_append.mp hmem with hmem | hmem
    · exact hres hmem
    · exact (hnew f hmem).2.2.2.2 hhand

theorem Referenced.handle (h : Referenced s) (howns : t.Owns) {count : Nat} {sqe : Sqe} {res : Int}
    (hp : s.spot = .phase (.reap count)) (hcq : s.ev.ring.cq[count]? = some (sqe, res))
    (ht : t = { ev := s.ev.before (s.ev.opOf sqe.data) sqe.data.slot res
                spot := .handling count sqe res (s.ev.opOf sqe.data)
                handed := s.handed ++ s.ev.handedBy sqe.data res })
    (hled : t.pending + Moment.dealt (.handle sqe res) = s.pending) (huse : t.inUse ≤ s.inUse) :
    Referenced t := by
  have hgone := Moment.gone_reap hp
  have hop := h.owns.opOf hgone hcq
  have hframe : t.ev.dirRefCount = s.ev.dirRefCount ∧ t.ev.getdentsQueue = s.ev.getdentsQueue ∧
      t.ev.ring.cq = s.ev.ring.cq := by
    rw [ht]
    simp
  have hspot : t.spot = .handling count sqe res sqe.data.home := by
    rw [ht, hop]
  obtain ⟨hlt, hget⟩ := List.getElem?_eq_some_iff.mp hcq
  have hresults : s.results = (opened (sqe, res)).toList ++ t.results := by
    rw [Moment.results, Moment.results, hframe.2.2, hspot, hp]
    change (s.ev.ring.cq.drop count).filterMap opened = _
    rw [List.drop_eq_getElem_cons hlt, hget, List.filterMap_cons]
    cases hopen : opened (sqe, res) <;> rfl
  have hcount : ∀ f, t.opens f + (Moment.dealt (.handle sqe res)).countP (Prep.OpensFrom f) = s.opens f := by
    intro f
    rw [Moment.opens, ← Multiset.countP_add, hled]
    rfl
  refine h.of_frame howns hframe.1 hframe.2.1 (by rw [hspot, hp]; rfl) ?_ ?_ ?_ ?_ ?_
  · intro f
    rw [hspot, hp]
    exact Iff.rfl
  · intro f _
    have hdealt : (Moment.dealt (.handle sqe res)).countP (Prep.OpensFrom f) = 0 := by
      simp only [Moment.dealt]
      split
      · rename_i hread
        have hprep := howns.prep_read (hspot.trans (congrArg _ hread.1))
        rw [EventLoop.countP_single, if_neg]
        rw [hprep]
        exact id
      · exact Multiset.countP_zero _
    have := hcount f
    rwa [hdealt] at this
  · rw [hresults]
    exact List.sublist_append_right _ _
  · intro f hf
    rcases hf with hpos | hreads
    · exact .inl (.inl (hpos.trans_le (Multiset.countP_le_of_le _ huse)))
    · rw [hspot] at hreads
      obtain ⟨hread, hres, hname⟩ := hreads
      have hmem := Moment.mem_inUse_of_cqe hgone hcq ⟨hread, hres⟩
      exact .inl (.inl (Multiset.countP_pos.mpr ⟨_, hmem, hname⟩))
  · intro f hf
    rw [hspot] at hf
    obtain ⟨hopenat, hpos, rfl⟩ := hf
    have hopen : opened (sqe, res) = some res := if_pos ⟨hopenat, hpos⟩
    rw [hopen] at hresults
    have hmem : res ∈ s.results := by
      rw [hresults]
      exact List.mem_cons_self
    have hnodup := h.results.1
    rw [hresults] at hnodup
    exact ⟨(List.nodup_cons.mp hnodup).1,
      not_not.mp fun hne => (h.results.2 res hmem).2 (.inr (.inr hne))⟩

/-- The references are as before when the completion is settled. -/
theorem Referenced.settled (h : Referenced s) (howns : t.Owns) {count : Nat} {sqe : Sqe} {res : Int}
    {op : Op} {ev : EventLoop} (hp : s.spot = .handling count sqe res op)
    (hc : s.ev.behind op sqe.data.slot res = some ev)
    (ht : t = { s with ev, spot := .phase (.reap (count + 1)) })
    (hled : ∀ f, t.opens f + (Moment.dealt (.handled sqe res)).countP (Prep.OpensFrom f) = s.opens f +
      (EventLoop.preps (s.ev.behindCalls op sqe.data.slot res)).countP (Prep.OpensFrom f))
    (huse : t.inUse ≤ s.inUse + EventLoop.preps (s.ev.behindCalls op sqe.data.slot res))
    (hrefs : ev.dirRefCount = s.ev.dirRefCount) (hqueue : ev.getdentsQueue = s.ev.getdentsQueue)
    (hopens : ∀ f, f ≠ atFdcwd → ¬ sqe.prep.OpensFrom f)
    (hnames : ∀ f, 0 < (EventLoop.preps (s.ev.behindCalls op sqe.data.slot res)).countP (Prep.Names f) →
      s.spot.Reads f) : Referenced t := by
  refine h.of_frame howns (by rw [ht]; exact hrefs) (by rw [ht]; exact hqueue) (by rw [ht, hp]; rfl)
    (fun f => by rw [ht, hp]; exact Iff.rfl) ?_ ?_ ?_ ?_
  · intro f hf
    have := hled f
    have hdealt : (Moment.dealt (.handled sqe res)).countP (Prep.OpensFrom f) = 0 := by
      simp only [Moment.dealt]
      split
      · exact Multiset.countP_zero _
      · rw [EventLoop.countP_single, if_neg (hopens f hf)]
    rwa [hdealt, EventLoop.behindCalls_opens] at this
  · have hsame : t.results = s.results := by
      rw [ht]
      exact Moment.results_congr (EventLoop.behind_cq hc) (by rw [hp]; rfl)
    rw [hsame]
  · intro f hf
    rcases Moment.named_split huse hf with hold | hreads | hmade
    · exact .inl hold
    · rw [ht] at hreads
      exact hreads.elim
    · exact .inl (.inr (hnames f hmade))
  · rw [ht]
    exact fun _ hf => hf.elim

/-- The directory that a file was opened from is given back. -/
theorem Referenced.released (h : Referenced s) (howns : t.Owns) {count : Nat} {sqe : Sqe} {res : Int}
    {parent : Int} {ev mid : EventLoop} (hp : s.spot = .handling count sqe res .openat)
    (hparent : parent ≠ atFdcwd) (hmid : s.ev.decreaseDirRef parent = some mid)
    (hev : ev.dirRefCount = mid.dirRefCount ∧ ev.getdentsQueue = mid.getdentsQueue ∧
      ev.ring.cq = mid.ring.cq)
    (ht : t = { s with ev, spot := .phase (.reap (count + 1)) })
    (hopens : ∀ f, t.opens f + (if parent = f then 1 else 0) = s.opens f)
    (huse : t.inUse ≤ s.inUse + EventLoop.preps (s.ev.lastRef parent)) : Referenced t := by
  obtain ⟨n, hn, hrefs⟩ := EventLoop.decreaseDirRef_refs hmid
  have hlists : ∀ f, ¬ t.spot.Lists f := by
    rw [ht]
    exact fun _ => id
  have hlists' : ∀ f, ¬ s.spot.Lists f := by
    rw [hp]
    exact fun _ => id
  have hcq : t.ev.ring.cq = s.ev.ring.cq := by
    rw [ht]
    exact hev.2.2.trans (EventLoop.decreaseDirRef_grew hmid).2.2.1
  refine h.of_release howns hparent hn (by rw [ht]; exact hev.1.trans hrefs)
    (by rw [ht]; exact hev.2.1.trans (EventLoop.decreaseDirRef_aside hmid).1) (by rw [ht, hp]; rfl)
    (fun f hf => absurd hf (hlists f)) ?_ ?_ ?_ ?_ ?_
  · have := hopens parent
    rw [if_pos rfl] at this
    rw [Moment.refs, Moment.refs, if_neg (hlists _), if_neg (hlists' _)]
    omega
  · intro f hf _
    have := hopens f
    rw [if_neg hf.symm] at this
    rw [Moment.refs, Moment.refs, if_neg (hlists _), if_neg (hlists' _)]
    omega
  · have hsame : t.results = s.results := Moment.results_congr hcq (by rw [ht, hp]; rfl)
    rw [hsame]
  · exact fun f => Moment.named_of_last hn huse (by rw [ht]; exact id)
  · rw [ht]
    exact fun _ hf => hf

/-- Behind `openat_handler_`, the directory that was opened from is given back, unless it is the working
directory. -/
theorem Referenced.handledOpenat (h : Referenced s) (howns : t.Owns) {count : Nat} {sqe : Sqe} {res : Int}
    {ev : EventLoop} (hp : s.spot = .handling count sqe res .openat)
    (hc : s.ev.behind .openat sqe.data.slot res = some ev)
    (ht : t = { s with ev, spot := .phase (.reap (count + 1)) })
    (hled : ∀ f, t.opens f + (Moment.dealt (.handled sqe res)).countP (Prep.OpensFrom f) = s.opens f +
      (EventLoop.preps (s.ev.behindCalls .openat sqe.data.slot res)).countP (Prep.OpensFrom f))
    (huse : t.inUse ≤ s.inUse + EventLoop.preps (s.ev.behindCalls .openat sqe.data.slot res)) :
    Referenced t := by
  obtain ⟨hcq, hop⟩ := h.owns.cqe _ _ _ _ hp
  have hprep := h.owns.prep_openat hp
  have hcalls : s.ev.behindCalls .openat sqe.data.slot res =
      if (s.ev.openats.objects sqe.data.slot).fields.parentFd = atFdcwd then []
      else s.ev.lastRef (s.ev.openats.objects sqe.data.slot).fields.parentFd := rfl
  obtain ⟨mid, rfl, hmid⟩ := EventLoop.behind_openat hc
  generalize hpar : (s.ev.openats.objects sqe.data.slot).fields.parentFd = parent at hmid hcalls
  have hparent : ∀ f, sqe.prep.OpensFrom f ↔ parent = f := by
    intro f
    rw [hprep, ← hpar]
    exact Iff.rfl
  rcases hmid with ⟨hcwd, rfl⟩ | ⟨hcwd, hmid⟩
  · refine h.settled howns hp hc ht hled huse rfl rfl ?_ ?_
    · intro f hf hopen
      exact hf (((hparent f).mp hopen).symm.trans hcwd)
    · intro f hf
      rw [hcalls, if_pos hcwd] at hf
      exact absurd hf (Nat.lt_irrefl 0)
  · have hdealt : Moment.dealt (.handled sqe res) = {sqe.prep} := if_neg (by simp [← hop])
    simp only [hcalls, if_neg hcwd, hdealt, EventLoop.countP_single, EventLoop.lastRef_countP] at hled
    rw [hcalls, if_neg hcwd] at huse
    refine h.released howns hp hcwd hmid ?_ ht ?_ huse
    · refine ⟨rfl, rfl, ?_⟩
      simp only [EventLoop.freeOpenat, RequestPool.free_ring]
    · intro f
      have hno : ¬ (Prep.close parent).OpensFrom f := id
      have := hled f
      simp only [hparent, hno, and_false, if_false, Nat.add_zero] at this
      exact this

theorem Referenced.handled (h : Referenced s) (howns : t.Owns) {count : Nat} {sqe : Sqe} {res : Int}
    {op : Op} {ev : EventLoop} (hp : s.spot = .handling count sqe res op)
    (hc : s.ev.behind op sqe.data.slot res = some ev)
    (ht : t = { s with ev, spot := .phase (.reap (count + 1)) })
    (hled : ∀ f, t.opens f + (Moment.dealt (.handled sqe res)).countP (Prep.OpensFrom f) = s.opens f +
      (EventLoop.preps (s.ev.behindCalls op sqe.data.slot res)).countP (Prep.OpensFrom f))
    (huse : t.inUse ≤ s.inUse + EventLoop.preps (s.ev.behindCalls op sqe.data.slot res)) :
    Referenced t := by
  by_cases hopenat : op = .openat
  · subst hopenat
    exact h.handledOpenat howns hp hc ht hled huse
  obtain ⟨hrefs, hqueue⟩ := EventLoop.behind_dirs hc hopenat
  refine h.settled howns hp hc ht hled huse hrefs hqueue ?_ ?_
  · intro f _
    rcases op with _ | _ | _ | _
    · exact absurd rfl hopenat
    · rw [h.owns.prep_close hp]
      exact id
    · rw [h.owns.prep_read hp]
      exact id
    · rw [h.owns.prep_write hp]
      exact id
  · intro f hf
    obtain ⟨q, hq, hname⟩ := Multiset.countP_pos.mp hf
    obtain ⟨rfl, hres, hfd⟩ := EventLoop.behindCalls_names hopenat hq hname
    have hprep := h.owns.prep_read hp
    rw [hp]
    exact ⟨rfl, hres, hprep ▸ hfd⟩

/-- Nothing is listed, and no handler runs. -/
structure Spot.Plain (spot : Spot) : Prop where
  dirs : spot.dirs = []
  lists : ∀ fd, ¬ spot.Lists fd
  reads : ∀ fd, ¬ spot.Reads fd
  hand : ∀ fd, ¬ spot.InHand fd

/-- The phases of `pump` apart from those in which a directory is left to list. -/
def Phase.Quiet : Phase → Prop
  | .listing (_ :: _) | .inListing _ _ => False
  | _ => True

theorem Phase.Quiet.plain {p : Phase} (h : p.Quiet) : (Spot.phase p).Plain := by
  refine ⟨?_, fun _ hl => ?_, fun _ => id, fun _ => id⟩
  · rcases p with _ | _ | (_ | _) | _ | _ | _ | _ | _ | _ | _ | _ <;> first | rfl | exact h.elim
  · rcases p with _ | _ | _ | _ | _ | _ | _ | _ | _ | _ | _ <;> first | exact hl | exact h

theorem Spot.Outside.dirs_nil {spot : Spot} (h : spot.Outside) :
    spot.dirs = [] ∧ ∀ fd, ¬ spot.Lists fd := by
  rcases h.split with ⟨last, rfl⟩ | ⟨count, e, rfl⟩ <;> exact ⟨rfl, fun _ => id⟩

theorem referenced_step (h : Referenced s) (hd : Does s a t) (ho : Orderly s a) (hre : ¬ Reenters s a) :
    Referenced t := by
  obtain ⟨howns, hpending⟩ := Moment.owns_step h.owns hd hre
  have hled := Moment.opens_step h.owns hd hre
  have huse := Moment.inUse_step h.owns hd hre
  have still (hdealt : Moment.dealt a = 0) (hmade : s.made a = [])
      (hrefs : t.ev.dirRefCount = s.ev.dirRefCount) (hqueue : t.ev.getdentsQueue = s.ev.getdentsQueue)
      (hresults : t.results = s.results) (hs : s.spot.dirs = [] ∧ ∀ fd, ¬ s.spot.Lists fd)
      (ht : t.spot.Plain) : Referenced t := by
    rw [hdealt, hmade, EventLoop.preps_nil, add_zero, add_zero] at hpending
    rw [hmade, EventLoop.preps_nil, add_zero] at huse
    exact h.of_same howns hpending huse hrefs hqueue (ht.dirs.trans hs.1.symm)
      (fun fd => ⟨fun hl => absurd hl (ht.lists fd), fun hl => absurd hl (hs.2 fd)⟩) hresults
      (fun fd hh => absurd hh (ht.reads fd)) fun fd hh => absurd hh (ht.hand fd)
  have move {p p' : Phase} (hp : s.spot = .phase p) (ht : t.spot = .phase p') (hq : p.Quiet)
      (hq' : p'.Quiet) (hcq : t.ev.ring.cq = s.ev.ring.cq) (hhandled : p'.handled = p.handled)
      (hdealt : Moment.dealt a = 0) (hmade : s.made a = [])
      (hrefs : t.ev.dirRefCount = s.ev.dirRefCount)
      (hqueue : t.ev.getdentsQueue = s.ev.getdentsQueue) : Referenced t := by
    refine still hdealt hmade hrefs hqueue (Moment.results_congr hcq ?_) ?_ (ht ▸ hq'.plain)
    · rw [hp, ht]
      exact hhandled
    · rw [hp]
      exact ⟨hq.plain.dirs, hq.plain.lists⟩
  cases hd with
  | call c hp hc =>
    refine h.call howns hc rfl ?_ (by simpa [Moment.made] using huse) ho
    simpa [Moment.dealt, Moment.made] using hpending
  | enter hp =>
    refine still rfl rfl rfl rfl (Moment.results_congr rfl ?_) hp.dirs_nil
      (Phase.Quiet.plain trivial)
    rcases begun_of_outside hp with h0 | habort
    · exact h0.symm
    · exact absurd ⟨rfl, habort⟩ hre
  | swap hp =>
    refine h.swap howns hp rfl ?_ (huse.trans_eq (add_zero _))
    simpa [Moment.dealt, Moment.made] using hpending
  | list hp =>
    refine h.list howns hp rfl ?_ (huse.trans_eq (add_zero _))
    simpa [Moment.dealt, Moment.made] using hpending
  | listed hp hc =>
    exact h.listed howns hp hc rfl hled huse
  | listedAll hp => exact move hp rfl trivial trivial rfl rfl rfl rfl rfl rfl
  | pop hp hc =>
    exact move hp hp trivial trivial (EventLoop.popOverflow_grew hc).2.2.1 rfl rfl rfl
      (EventLoop.popOverflow_refs hc) (EventLoop.popOverflow_aside hc).1
  | popped hp hc =>
    have hcq := (EventLoop.popOverflow_grew hc).2.2.1
    have hrefs := EventLoop.popOverflow_refs hc
    have haside := EventLoop.popOverflow_aside hc
    exact move hp rfl trivial trivial hcq rfl rfl rfl hrefs haside.1
  | drain hp => exact move hp rfl trivial trivial (s.ev.drainRead_grew _).2.2.1 rfl rfl rfl rfl rfl
  | drained hp | exit hp hzero | goOn hp hne | submitFails errno hp | submit hp | peek hp hne
  | sleep hp hnil | wake hp hne =>
    exact move hp rfl trivial trivial rfl rfl rfl rfl rfl rfl
  | handle hp hcq =>
    refine h.handle howns hp hcq rfl ?_ (huse.trans_eq (add_zero _))
    simpa [Moment.made] using hpending
  | handled hp hc =>
    obtain ⟨-, rfl⟩ := h.owns.cqe _ _ _ _ hp
    exact h.handled howns hp hc rfl hled huse
  | handlerFails error hp hpos =>
    refine still rfl rfl rfl rfl (Moment.results_congr rfl (by rw [hp]; rfl)) ?_
      ⟨rfl, fun _ => id, fun _ => id, fun _ => id⟩
    rw [hp]
    exact ⟨rfl, fun _ => id⟩
  | advance hp hend =>
    refine still rfl rfl rfl rfl ?_ ?_ (Phase.Quiet.plain trivial)
    · rw [Moment.results, Moment.results, hp]
      rfl
    · rw [hp]
      exact ⟨rfl, fun _ => id⟩
  | complete res hk =>
    refine h.complete howns rfl ?_ (huse.trans_eq (add_zero _)) ho
    simpa [Moment.dealt, Moment.made] using hpending
  | freeRead slot hslot =>
    refine h.of_same howns ?_ (huse.trans_eq (add_zero _)) rfl rfl rfl (fun _ => Iff.rfl) rfl (fun _ => id)
      fun _ => id
    simpa [Moment.dealt, Moment.made] using hpending

end Steps

/-! ## How often a directory is closed -/

def EventLoop.Call.closes (fd : Int) : EventLoop.Call → Bool
  | .close f => f = fd
  | _ => false

def Act.lists (fd : Int) : Act → Bool
  | .list f => f = fd
  | _ => false

instance (s : Moment) (fd : Int) : Decidable (s.Directory fd) :=
  inferInstanceAs (Decidable (_ ∨ _ ∨ _))

/-- How often `queue_close` is called in the step for a descriptor that is a directory. -/
def Moment.closesBy (s : Moment) (a : Act) (fd : Int) : Nat :=
  if s.Directory fd then (s.made a).countP (EventLoop.Call.closes fd) else 0

/-- The count of a directory is right, no contract can fail, and it is closed once for every listing, in
the step that gives the last reference back. -/
structure ClosedOnce (past : List (Moment × Act)) (s : Moment) : Prop where
  count : ∀ fd, fd ≠ atFdcwd →
    s.ev.dirRefCount fd = if s.refs fd = 0 then none else some (s.refs fd)
  increase : ∀ fd path flags, s.spot.Lists fd → fd < safeMin → s.ev.queueOpenat fd path flags ≠ none
  decrease : ∀ fd, s.spot.Lists fd → s.ev.decreaseDirRef fd ≠ none
  settle : ∀ count sqe res op, s.spot = .handling count sqe res op →
    s.ev.behind op sqe.data.slot res ≠ none
  moment : ∀ before x fd, past = before ++ [x] → 0 ≤ fd →
    x.1.closesBy x.2 fd = if 0 < x.1.refs fd ∧ s.refs fd = 0 then 1 else 0
  once : ∀ fd, 0 ≤ fd →
    (past.map fun x => x.1.closesBy x.2 fd).sum + (if 0 < s.refs fd then 1 else 0) =
      past.countP fun x => x.2.lists fd

theorem EventLoop.lastRef_closes (ev : EventLoop) (f fd : Int) :
    (ev.lastRef f).countP (Call.closes fd) = if ev.dirRefCount f = some 1 ∧ f = fd then 1 else 0 := by
  unfold lastRef
  split
  · rename_i hone
    simp [Call.closes, hone]
  · rename_i hmore
    simp [hmore]

/-- When the last reference is given back, one close is queued. -/
theorem EventLoop.decreaseDirRef_closes {ev ev' : EventLoop} {f : Int} (h : ev.decreaseDirRef f = some ev')
    (fd : Int) :
    (ev.lastRef f).countP (Call.closes fd) =
      if ev.dirRefCount fd ≠ none ∧ ev'.dirRefCount fd = none then 1 else 0 := by
  obtain ⟨n, hn, hrefs⟩ := decreaseDirRef_refs h
  rw [lastRef_closes, hrefs]
  refine if_congr ?_ rfl rfl
  by_cases hff : f = fd
  · subst hff
    rw [hn, update_self]
    by_cases hzero : n = 0
    · simp [hzero]
    · simp [hzero]
  · rw [update_of_ne (Ne.symm hff)]
    simp [hff]

section Steps
variable {s t : Moment} {a : Act}

theorem Referenced.refs_pos_iff (h : Referenced s) {fd : Int} (hfd : 0 ≤ fd) :
    0 < s.refs fd ↔ s.ev.dirRefCount fd ≠ none := by
  have hne : fd ≠ atFdcwd := by
    rintro rfl
    exact absurd hfd (by decide)
  rw [h.count fd hne]
  split
  · rename_i hzero
    simp [hzero]
  · rename_i hpos
    simpa using Nat.pos_of_ne_zero hpos

/-- Every other step queues no close of a directory, and takes no directory away. -/
theorem closesBy_eq_zero {fd : Int} (hmade : ∀ c ∈ s.made a, c = .close fd → ¬ s.Directory fd) :
    s.closesBy a fd = 0 := by
  unfold Moment.closesBy
  split
  · rename_i hdir
    rw [List.countP_eq_zero]
    intro c hc hcloses
    rcases c with _ | _ | f | _ | _
    · cases hcloses
    · cases hcloses
    · have heq : f = fd := of_decide_eq_true hcloses
      exact hmade _ hc (by rw [heq]) hdir
    · cases hcloses
    · cases hcloses
  · rfl

theorem EventLoop.call_refs {ev ev' : EventLoop} {c : Call} (h : ev.call c = some ev') {fd : Int}
    (hfd : ev.dirRefCount fd ≠ none) : ev'.dirRefCount fd ≠ none := by
  rcases c with ⟨parent, path, flags⟩ | _ | _ | _ | _
  · rcases queueOpenat_refs h with ⟨-, hrefs⟩ | ⟨-, n, hn, hrefs⟩
    · rwa [hrefs]
    · rw [hrefs]
      by_cases hp : fd = parent
      · rw [hp, update_self]
        exact Option.some_ne_none _
      · rwa [update_of_ne hp]
  · cases h
    exact hfd
  · cases h
    exact hfd
  · cases h
    exact hfd
  · cases h
    exact hfd

theorem closesBy_step (h : Referenced s) (hd : Does s a t) (ho : Orderly s a) (fd : Int) :
    s.closesBy a fd = if s.ev.dirRefCount fd ≠ none ∧ t.ev.dirRefCount fd = none then 1 else 0 := by
  have other (hmade : ∀ c ∈ s.made a, c = .close fd → ¬ s.Directory fd)
      (hrefs : s.ev.dirRefCount fd ≠ none → t.ev.dirRefCount fd ≠ none) :
      s.closesBy a fd = if s.ev.dirRefCount fd ≠ none ∧ t.ev.dirRefCount fd = none then 1 else 0 := by
    rw [closesBy_eq_zero hmade, if_neg fun hand => hrefs hand.1 hand.2]
  have release {f : Int} {mid : EventLoop} (hc : s.ev.decreaseDirRef f = some mid)
      (hmade : s.made a = s.ev.lastRef f) (hrefs : t.ev.dirRefCount = mid.dirRefCount) :
      s.closesBy a fd = if s.ev.dirRefCount fd ≠ none ∧ t.ev.dirRefCount fd = none then 1 else 0 := by
    rw [hrefs, ← EventLoop.decreaseDirRef_closes hc fd, Moment.closesBy, hmade]
    split
    · rfl
    · rename_i hdir
      rw [EventLoop.lastRef_closes, if_neg]
      rintro ⟨hone, rfl⟩
      exact hdir (.inr (.inr (by rw [hone]; simp)))
  have quiet (hmade : s.made a = []) (hrefs : t.ev.dirRefCount = s.ev.dirRefCount) :
      s.closesBy a fd = if s.ev.dirRefCount fd ≠ none ∧ t.ev.dirRefCount fd = none then 1 else 0 := by
    refine other ?_ (hrefs ▸ id)
    rw [hmade]
    exact fun _ hc => absurd hc List.not_mem_nil
  cases hd with
  | call c hp hc =>
    refine other ?_ (EventLoop.call_refs hc)
    intro x hx hclose
    rw [Moment.made, List.mem_singleton] at hx
    rw [← hx, hclose] at ho
    exact ho.1
  | @list f todo hp =>
    refine other (fun _ hc => absurd hc List.not_mem_nil) fun hne => ?_
    by_cases hff : fd = f
    · subst hff
      simp
    · simpa [update_of_ne hff] using hne
  | listed hp hc => exact release hc rfl rfl
  | pop hp hc => exact quiet rfl (EventLoop.popOverflow_refs hc)
  | popped hp hc =>
    have hrefs := EventLoop.popOverflow_refs hc
    exact quiet rfl hrefs
  | handle hp hcq =>
    exact quiet rfl (s.ev.before_dirRefCount _ _ _)
  | @handled count sqe res op ev hp hc =>
    obtain ⟨-, rfl⟩ := h.owns.cqe _ _ _ _ hp
    have hmade : s.made (.handled sqe res) = s.ev.behindCalls sqe.data.home sqe.data.slot res := rfl
    by_cases hop : sqe.data.home = .openat
    · rw [hop] at hc hmade
      simp only [EventLoop.behindCalls] at hmade
      obtain ⟨mid, rfl, ⟨hcwd, rfl⟩ | ⟨hcwd, hmid⟩⟩ := EventLoop.behind_openat hc
      · exact quiet (hmade.trans (if_pos hcwd)) rfl
      · exact release hmid (hmade.trans (if_neg hcwd)) rfl
    · have hrefs := (EventLoop.behind_dirs hc hop).1
      refine other ?_ fun hne => by rw [hrefs]; exact hne
      intro c hmem hclose
      subst hclose
      rw [hmade] at hmem
      have hq := EventLoop.mem_preps hmem (Multiset.mem_singleton_self (Prep.close fd))
      obtain ⟨hread, hres, hfd⟩ := EventLoop.behindCalls_names hop hq rfl
      rw [hread] at hp
      have hprep := h.owns.prep_read hp
      refine (h.named fd (.inr ?_)).1
      rw [hp]
      exact ⟨rfl, hres, hprep ▸ hfd⟩
  | _ => exact quiet rfl rfl

theorem EventLoop.decreaseDirRef_none {ev ev' : EventLoop} {f fd : Int}
    (h : ev.decreaseDirRef f = some ev') (hfd : ev.dirRefCount fd = none) : ev'.dirRefCount fd = none := by
  obtain ⟨n, hn, hrefs⟩ := decreaseDirRef_refs h
  rw [hrefs]
  exact update_of_none hn hfd

/-- Only the listing makes a descriptor a directory that is held. -/
theorem none_step (hd : Does s a t) {fd : Int} (hlists : a.lists fd = false)
    (hfd : s.ev.dirRefCount fd = none) : t.ev.dirRefCount fd = none := by
  cases hd with
  | @call ev c hp hc =>
    rcases c with ⟨parent, path, flags⟩ | _ | _ | _ | _
    · rcases EventLoop.queueOpenat_refs hc with ⟨-, hrefs⟩ | ⟨-, n, hn, hrefs⟩
      · rwa [hrefs]
      · rw [hrefs]
        exact update_of_none hn hfd
    · cases hc
      exact hfd
    · cases hc
      exact hfd
    · cases hc
      exact hfd
    · cases hc
      exact hfd
  | @list f todo hp =>
    have hne : fd ≠ f := by
      rintro rfl
      exact absurd hlists (by simp [Act.lists])
    simpa [update_of_ne hne] using hfd
  | listed hp hc => exact EventLoop.decreaseDirRef_none hc hfd
  | pop hp hc => rwa [EventLoop.popOverflow_refs hc]
  | popped hp hc =>
    have hrefs := EventLoop.popOverflow_refs hc
    rwa [← hrefs] at hfd
  | handle hp hcq =>
    rwa [EventLoop.before_dirRefCount]
  | @handled count sqe res op ev hp hc =>
    by_cases hop : op = .openat
    · subst hop
      obtain ⟨mid, rfl, ⟨-, rfl⟩ | ⟨-, hmid⟩⟩ := EventLoop.behind_openat hc
      · exact hfd
      · have hnone := EventLoop.decreaseDirRef_none hmid hfd
        exact hnone
    · have hrefs := (EventLoop.behind_dirs hc hop).1
      rwa [← hrefs] at hfd
  | _ => exact hfd

theorem lists_step (h : Referenced s) (hd : Does s a t) {fd : Int} (hlists : a.lists fd = true) :
    s.ev.dirRefCount fd = none ∧ t.ev.dirRefCount fd ≠ none := by
  cases hd with
  | @list f todo hp =>
    have heq : f = fd := of_decide_eq_true hlists
    subst heq
    refine ⟨(h.idle f ?_).2, by simp⟩
    rw [hp]
    exact List.mem_append_right _ List.mem_cons_self
  | _ => cases hlists

theorem once_step (h : Referenced s) (hd : Does s a t) (ho : Orderly s a) (fd : Int) :
    s.closesBy a fd + (if t.ev.dirRefCount fd ≠ none then 1 else 0) =
      (if s.ev.dirRefCount fd ≠ none then 1 else 0) + if a.lists fd then 1 else 0 := by
  rw [closesBy_step h hd ho fd]
  by_cases hl : a.lists fd = true
  · obtain ⟨hs, ht⟩ := lists_step h hd hl
    simp [hs, ht, hl]
  · rw [Bool.not_eq_true] at hl
    by_cases hs : s.ev.dirRefCount fd = none
    · simp [hs, none_step hd hl hs, hl]
    · by_cases ht : t.ev.dirRefCount fd = none <;> simp [hs, ht, hl]

end Steps

/-! ## The result -/

theorem EventLoop.decreaseDirRef_ne_none {ev : EventLoop} {fd : Int} {n : Nat}
    (h : ev.dirRefCount fd = some (n + 1)) : ev.decreaseDirRef fd ≠ none := by
  unfold decreaseDirRef
  rw [h]
  rcases n with _ | n <;> exact Option.some_ne_none _

section Result
variable {s : Moment}

theorem Referenced.held (h : Referenced s) {fd : Int} (hfd : fd ≠ atFdcwd) (hpos : 0 < s.refs fd) :
    ∃ n, s.ev.dirRefCount fd = some (n + 1) := by
  refine ⟨s.refs fd - 1, ?_⟩
  rw [h.count fd hfd, if_neg (by omega)]
  congr 1
  omega

theorem Referenced.settle (h : Referenced s) {count : Nat} {sqe : Sqe} {res : Int} {op : Op}
    (hp : s.spot = .handling count sqe res op) : s.ev.behind op sqe.data.slot res ≠ none := by
  rcases op with _ | _ | _ | _
  · have hprep := h.owns.prep_openat hp
    have hgone : s.spot.gone = count := by
      rw [hp, Spot.gone, if_neg (by simp)]
    have hmem := Moment.mem_pending_of_cqe hgone (h.owns.cqe _ _ _ _ hp).1
    simp only [EventLoop.behind]
    split
    · simp
    · rename_i hcwd
      have hpos : 0 < s.refs (s.ev.openats.objects sqe.data.slot).fields.parentFd := by
        refine Nat.add_pos_right _ (Multiset.countP_pos.mpr ⟨_, hmem, ?_⟩)
        rw [hprep]
        exact rfl
      obtain ⟨n, hn⟩ := h.held hcwd hpos
      obtain ⟨mid, hmid⟩ := Option.ne_none_iff_exists'.mp (EventLoop.decreaseDirRef_ne_none hn)
      rw [hmid]
      simp
  · simp [EventLoop.behind]
  · simp only [EventLoop.behind]
    split
    · simp
    · split <;> simp
  · simp [EventLoop.behind]

theorem Referenced.closedOnce {past : List (Moment × Act)} (h : Referenced s)
    (hmoment : ∀ before x fd, past = before ++ [x] → 0 ≤ fd →
      x.1.closesBy x.2 fd = if 0 < x.1.refs fd ∧ s.refs fd = 0 then 1 else 0)
    (honce : ∀ fd, 0 ≤ fd →
      (past.map fun x => x.1.closesBy x.2 fd).sum + (if 0 < s.refs fd then 1 else 0) =
        past.countP fun x => x.2.lists fd) : ClosedOnce past s := by
  have hrefs {fd : Int} (hl : s.spot.Lists fd) : ∃ n, s.ev.dirRefCount fd = some (n + 1) := by
    refine h.held (h.ne_cwd hl) (Nat.add_pos_left ?_ _)
    rw [if_pos hl]
    exact Nat.one_pos
  refine ⟨h.count, ?_, ?_, fun _ _ _ _ hp => h.settle hp, hmoment, honce⟩
  · intro fd path flags hl hlt
    obtain ⟨n, hn⟩ := hrefs hl
    unfold EventLoop.queueOpenat
    rw [if_neg (h.ne_cwd hl), if_pos ⟨h.lists fd hl, hlt⟩, EventLoop.increaseDirRef, hn]
    simp
  · intro fd hl
    obtain ⟨n, hn⟩ := hrefs hl
    exact EventLoop.decreaseDirRef_ne_none hn

end Result

/-- As long as `pump` is not called again after `read_handler_` failed in it. -/
theorem directories_are_closed_once (entries size : Nat) {past : List (Moment × Act)} {s : Moment}
    (h : Run Does (fun s a => Orderly s a ∧ ¬ Reenters s a) (Moment.fresh entries size) past s) :
    ClosedOnce past s := by
  have hinv : Referenced s ∧ ClosedOnce past s := by
    refine h.invariant (fun past s => Referenced s ∧ ClosedOnce past s) ?_ ?_
    · refine ⟨referenced_fresh entries size, (referenced_fresh entries size).closedOnce ?_ ?_⟩
      · intro before x fd hnil
        exact absurd hnil (by simp)
      · intro fd _
        rfl
    · intro past s a t _ hin hok hd
      have ht := referenced_step hin.1 hd hok.1 hok.2
      refine ⟨ht, ht.closedOnce ?_ ?_⟩
      · intro before x fd hlast hfd
        have heq : x = (s, a) := by
          have := congrArg List.getLast? hlast
          simpa using this.symm
        rw [heq, closesBy_step hin.1 hd hok.1 fd]
        refine if_congr (and_congr (hin.1.refs_pos_iff hfd).symm ?_) rfl rfl
        have := ht.refs_pos_iff hfd
        rw [← not_iff_not, ← ne_eq, ← this, Nat.pos_iff_ne_zero]
      · intro fd hfd
        have hstep := once_step hin.1 hd hok.1 fd
        have hbefore := hin.2.once fd hfd
        simp only [← ht.refs_pos_iff hfd, ← hin.1.refs_pos_iff hfd] at hstep
        rw [List.map_append, List.sum_append, List.countP_append]
        simp only [List.map_cons, List.map_nil, List.sum_cons, List.sum_nil, Nat.add_zero,
          List.countP_cons, List.countP_nil]
        omega
  exact hinv.2

/-! ## Runs with one and with two directories -/

instance (fd : Int) (spot : Spot) : Decidable (spot.Reads fd) :=
  match spot with
  | .handling _ _ _ _ => inferInstanceAs (Decidable (_ ∧ _ ∧ _))
  | .phase _ | .aborted _ _ => .isFalse id

instance (fd : Int) (spot : Spot) : Decidable (spot.InHand fd) :=
  match spot with
  | .handling _ _ _ _ => inferInstanceAs (Decidable (_ ∧ _ ∧ _))
  | .phase _ | .aborted _ _ => .isFalse id

instance (spot : Spot) : Decidable spot.Outside :=
  match spot with
  | .phase (.outside _) | .aborted _ _ => .isTrue trivial
  | .phase .top | .phase (.listing _) | .phase (.inListing _ _) | .phase .overflow | .phase (.drain _)
  | .phase .check | .phase .submit | .phase .peek | .phase .wait | .phase (.reap _)
  | .handling _ _ _ _ => .isFalse id

instance (s : Moment) (fd : Int) : Decidable (s.Named fd) := inferInstanceAs (Decidable (_ ∨ _))

instance (s : Moment) (a : Act) : Decidable (Orderly s a) :=
  match a with
  | .call (.getdents _) => inferInstanceAs (Decidable (_ ∧ _ ∧ _))
  | .call (.close _) | .call (.read _ _) => inferInstanceAs (Decidable (_ ∧ _))
  | .complete _ _ => inferInstanceAs (Decidable (_ → _ → _))
  | .call (.openat _ _ _) | .call (.write _ _ _) | .enter | .swap | .list _ | .listed _ | .listedAll | .pop
  | .popped | .drain _ | .drained | .exit | .goOn | .submitFails _ | .submit | .peek | .sleep | .wake
  | .handle _ _ | .handled _ _ | .handlerFails _ | .advance | .freeRead _ => .isTrue trivial

/-- The number 5 is used twice: an openat that is queued in the listing of the directory 5 returns 5
again, in the batch in which the close of 5 completes. -/
def listTwice : List Move :=
  [.call (.openat atFdcwd "d" 0)] ++ List.replicate 7 Move.pump ++
    [.complete 0 5, .pump, .pump, .call (.getdents 5)] ++ List.replicate 4 Move.pump ++
    [.call (.openat 5 "f" 0), .call (.openat atFdcwd "e" 0)] ++ List.replicate 6 Move.pump ++
    [.complete 0 (-2)] ++ List.replicate 10 Move.pump ++
    [.complete 1 0, .complete 0 5] ++ List.replicate 4 Move.pump ++ [.call (.getdents 5)] ++
    List.replicate 5 Move.pump

/-- Each of the two directories is closed when it is listed and its files were tried. -/
theorem directories_are_closed_once_with_a_number_twice :
    ∃ past s, Run Does (fun s a => Orderly s a ∧ ¬ Reenters s a) (Moment.fresh 4096 4096) past s ∧
      (past.countP fun x => x.2.lists 5) = 2 ∧ (past.map fun x => x.1.closesBy x.2 5).sum = 2 ∧
      s.ev.dirRefCount 5 = none ∧ ClosedOnce past s := by
  have hplay : ∃ r ∈ (Moment.fresh 4096 4096).playAll listTwice,
      ((r.1.countP fun x => x.2.lists 5) = 2 ∧ (r.1.map fun x => x.1.closesBy x.2 5).sum = 2 ∧
        r.2.ev.dirRefCount 5 = none) ∧
      ∀ x ∈ r.1, Orderly x.1 x.2 ∧ ¬ x.2.Fails := by
    decide +kernel
  obtain ⟨past, s, hrun, ⟨hlists, hsum, hnone⟩, hok⟩ :=
    Moment.run_of_play (fun s a => Orderly s a ∧ ¬ a.Fails) hplay fun r hr => hr.2
  have honce : Run Does (fun s a => ¬ Reenters s a ∧ Orderly s a) (Moment.fresh 4096 4096) past s :=
    (run_without_reentry hrun fun _ _ => And.right).restrict fun x hx => (hok x hx).1
  have hrun' : Run Does (fun s a => Orderly s a ∧ ¬ Reenters s a) (Moment.fresh 4096 4096) past s :=
    honce.mono fun _ _ => And.symm
  exact ⟨past, s, hrun', hlists, hsum, hnone, directories_are_closed_once 4096 4096 hrun'⟩

/-- The directory 5 is opened and listed, and its one file cannot be opened. A block of the file 7 is
read at the same time. -/
def listOneFile : List Move :=
  [.call (.openat atFdcwd "d" 0), .call (.read 7 0)] ++ List.replicate 7 Move.pump ++
    [.complete 0 5, .pump, .pump, .call (.getdents 5)] ++ List.replicate 4 Move.pump ++
    [.call (.openat 5 "f" 0)] ++ List.replicate 6 Move.pump ++
    [.complete 1 (-2), .complete 0 10] ++ List.replicate 4 Move.pump

/-- Now `read_handler_` fails on the block, and `pump` is called again. The completion of the openat is
handled once more, and the contract of `decrease_dir_ref` fails. -/
theorem failed_handler_breaks_a_contract :
    ∃ past s count sqe res op, Run Does Orderly (Moment.fresh 4096 4096) past s ∧
      s.spot = .handling count sqe res op ∧ sqe.prep.OpensFrom 5 ∧ s.ev.decreaseDirRef 5 = none ∧
      ¬ ClosedOnce past s := by
  have hplay : ∃ r ∈ (Moment.fresh 4096 4096).playAll
      (listOneFile ++ [.fail "disk full"] ++ List.replicate 9 Move.pump),
      (match r.2.spot with
        | .handling _ sqe res op =>
          decide (sqe.prep.OpensFrom 5) && (r.2.ev.behind op sqe.data.slot res).isNone
        | _ => false) = true ∧
      r.2.ev.decreaseDirRef 5 = none ∧ ∀ x ∈ r.1, Orderly x.1 x.2 := by
    decide +kernel
  obtain ⟨past, s, hrun, hspot, hnone, -⟩ := Moment.run_of_play Orderly hplay fun r hr => hr.2.2
  split at hspot
  · rename_i count sqe res op hp
    obtain ⟨hopens, hbehind⟩ := Bool.and_eq_true_iff.mp hspot
    refine ⟨past, s, count, sqe, res, op, hrun, hp, of_decide_eq_true hopens, hnone, fun honce => ?_⟩
    exact honce.settle count sqe res op hp (Option.isNone_iff_eq_none.mp hbehind)
  · cases hspot

end Omnipp.Utils
