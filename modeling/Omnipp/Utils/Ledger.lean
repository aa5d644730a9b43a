import Mathlib.Algebra.Order.Group.Multiset
import Mathlib.Tactic.Abel
import Omnipp.Utils.Ownership

/-! # What is pending

The requests that were queued and whose completion has not been dealt with: parked in a pool, in the
submission queue, with the kernel, or in the completion queue.
-/

open Function

namespace Omnipp.Utils

/-- How often the object is in a list of entries. -/
def tally (entries : Multiset Sqe) (op : Op) (slot : Slot) : Nat :=
  (entries.map Sqe.data).count ⟨op, slot⟩

theorem tally_add (a b : Multiset Sqe) (op : Op) (slot : Slot) :
    tally (a + b) op slot = tally a op slot + tally b op slot := by
  simp [tally]

theorem tally_singleton (e : Sqe) (op : Op) (slot : Slot) :
    tally {e} op slot = if e.data = ⟨op, slot⟩ then 1 else 0 := by
  simp [tally, Multiset.count_singleton, eq_comm]

theorem tally_pos {entries : Multiset Sqe} {e : Sqe} (h : e ∈ entries) :
    0 < tally entries e.data.home e.data.slot :=
  Multiset.count_pos.mpr (Multiset.mem_map.mpr ⟨e, h, rfl⟩)

namespace Ring

/-- The entries of the ring, where `held` are those of the completions. -/
def entriesWith (r : Ring) (held : Multiset Sqe) : Multiset Sqe := ↑r.sq + ↑r.kernel + held

theorem entriesWith_push (r : Ring) (e : Sqe) (held : Multiset Sqe) :
    (r.push e).entriesWith held = r.entriesWith held + {e} := by
  simp only [entriesWith, Ring.push, ← Multiset.coe_add, Multiset.coe_singleton]
  abel

/-- Nothing was added to the submission queue, or one entry of the kind. -/
def Pushed (op : Op) (r r' : Ring) : Prop := r' = r ∨ ∃ e, e.data.home = op ∧ r' = r.push e

theorem Pushed.kernel {op : Op} {r r' : Ring} (h : Pushed op r r') : r'.kernel = r.kernel := by
  rcases h with rfl | ⟨e, -, rfl⟩ <;> rfl

theorem Pushed.cq {op : Op} {r r' : Ring} (h : Pushed op r r') : r'.cq = r.cq := by
  rcases h with rfl | ⟨e, -, rfl⟩ <;> rfl

end Ring

namespace RequestPool

variable {ρ : Type} [IsRequest ρ] {p : RequestPool ρ} {op : Op} {entries : Multiset Sqe}
  {away : Slot → Nat}

/-- Every object of the pool is in one place, where `away` counts those that are out and not in the
ring. What the ring holds of the pool is what the objects say. -/
structure Sound (p : RequestPool ρ) (op : Op) (entries : Multiset Sqe) (away : Slot → Nat) : Prop where
  owned : p.Owned op fun slot => tally entries op slot + away slot
  preps : ∀ e ∈ entries, e.data.home = op → e.prep = IsRequest.prep (p.objects e.data.slot).fields

theorem Sound.of_pushed {r r' : Ring} {held : Multiset Sqe} {op' : Op}
    (h : p.Sound op (r.entriesWith held) away) (hp : Ring.Pushed op' r r') (hne : op' ≠ op) :
    p.Sound op (r'.entriesWith held) away := by
  rcases hp with rfl | ⟨e, rfl, rfl⟩
  · exact h
  · rw [Ring.entriesWith_push]
    refine ⟨?_, fun x hx hop => ?_⟩
    · have htally : ∀ slot, tally (r.entriesWith held + {e}) op slot = tally (r.entriesWith held) op slot := by
        intro slot
        rw [tally_add, tally_singleton, if_neg, Nat.add_zero]
        intro he
        exact hne (congrArg Ptr.home he)
      simp only [htally]
      exact h.owned
    · rcases Multiset.mem_add.mp hx with hx | hx
      · exact h.preps x hx hop
      · rw [Multiset.mem_singleton.mp hx] at hop
        exact absurd hop hne

/-- A new entry for the object. -/
theorem Sound.push {q : RequestPool ρ} {slot : Slot} {prep : Prep} (h : p.Sound op entries away)
    (howned : q.Owned op (plus (fun slot => tally entries op slot + away slot) slot))
    (hslot : prep = IsRequest.prep (q.objects slot).fields)
    (hobj : ∀ e ∈ entries, e.data.home = op →
      IsRequest.prep (q.objects e.data.slot).fields = IsRequest.prep (p.objects e.data.slot).fields) :
    q.Sound op (entries + {⟨⟨op, slot⟩, prep⟩}) away := by
  refine ⟨?_, fun x hx hop => ?_⟩
  · have hout : (fun x => tally (entries + {⟨⟨op, slot⟩, prep⟩}) op x + away x) =
        plus (fun slot => tally entries op slot + away slot) slot := by
      funext x
      simp only [tally_add, tally_singleton, plus, Ptr.mk.injEq, true_and, eq_comm (a := slot)]
      omega
    rw [hout]
    exact howned
  · rcases Multiset.mem_add.mp hx with hx | hx
    · rw [hobj x hx hop]
      exact h.preps x hx hop
    · rw [Multiset.mem_singleton.mp hx]
      exact hslot

/-- What the pool and the ring have pending. -/
def pendingWith (p : RequestPool ρ) (entries : Multiset Sqe) : Multiset Prep :=
  ↑p.parked + entries.map Sqe.prep

theorem Sound.next {r : Ring} {held : Multiset Sqe} (h : p.Sound op (r.entriesWith held) away)
    (reset : ρ → ρ) {q : Prep} (hq : ∀ x, IsRequest.prep (reset x) = q) :
    Ring.Pushed op r (p.next r reset).2 ∧
      (p.next r reset).1.Sound op ((p.next r reset).2.entriesWith held) away ∧
      (p.next r reset).1.pendingWith ((p.next r reset).2.entriesWith held) =
        p.pendingWith (r.entriesWith held) + {q} ∧
      ∀ slot, 0 < away slot → (p.next r reset).1.objects slot = p.objects slot := by
  obtain ⟨slot, hout, hobj, hprep, hcase⟩ := h.owned.next r hq
  have hkeep : ∀ e ∈ r.entriesWith held, e.data.home = op →
      (p.next r reset).1.objects e.data.slot = p.objects e.data.slot := by
    intro e he hop
    refine hobj _ fun heq => ?_
    have := tally_pos he
    rw [hop, heq] at this
    omega
  have haway : ∀ x, 0 < away x → (p.next r reset).1.objects x = p.objects x := by
    intro x hx
    refine hobj x fun heq => ?_
    rw [heq] at hx
    omega
  rcases hcase with ⟨-, hring, howned, hparked⟩ | ⟨-, hring, howned, hparked⟩
  · refine ⟨.inr ⟨_, rfl, hring⟩, ?_, ?_, haway⟩
    · rw [hring, Ring.entriesWith_push]
      exact h.push howned hprep.symm fun e he hop => by rw [hkeep e he hop]
    · rw [hring, Ring.entriesWith_push, pendingWith, pendingWith, hparked, Multiset.map_add,
        Multiset.map_singleton, add_assoc]
  · refine ⟨.inl hring, ?_, ?_, haway⟩
    · rw [hring]
      refine ⟨howned, fun e he hop => ?_⟩
      rw [hkeep e he hop]
      exact h.preps e he hop
    · rw [hring, pendingWith, pendingWith, hparked, ← Multiset.coe_add, Multiset.coe_singleton]
      abel

theorem Sound.tryPopOverflow {r r' : Ring} {held : Multiset Sqe} {popped : RequestPool ρ}
    (h : p.Sound op (r.entriesWith held) away) (hpop : p.tryPopOverflow r = (true, popped, r')) :
    Ring.Pushed op r r' ∧ popped.Sound op (r'.entriesWith held) away ∧
      popped.pendingWith (r'.entriesWith held) = p.pendingWith (r.entriesWith held) ∧
      popped.objects = p.objects := by
  obtain ⟨slot, q, -, rfl, howned, hparked, hobj, rfl⟩ := h.owned.tryPopOverflow hpop
  refine ⟨.inr ⟨_, rfl, rfl⟩, ?_, ?_, hobj⟩
  · rw [Ring.entriesWith_push]
    exact h.push howned (by rw [hobj]) fun e he hop => by rw [hobj]
  · rw [Ring.entriesWith_push, pendingWith, pendingWith, hparked, Multiset.map_add,
      Multiset.map_singleton, ← Multiset.cons_coe, ← Multiset.singleton_add]
    abel

theorem free_parked (p : RequestPool ρ) (r : Ring) (slot : Slot) : (p.free r slot).1.parked = p.parked := by
  unfold RequestPool.free
  simp only
  split <;> rfl

omit [IsRequest ρ] in
theorem free_objects (p : RequestPool ρ) (r : Ring) (slot : Slot) : (p.free r slot).1.objects = p.objects := by
  unfold RequestPool.free
  simp only
  split <;> rfl

omit [IsRequest ρ] in
theorem free_ring (p : RequestPool ρ) (r : Ring) (slot : Slot) :
    (p.free r slot).2 = { r with inFlight := r.inFlight - 1 } := by
  unfold RequestPool.free
  simp only
  split <;> rfl

theorem tally_add_entry {e : Sqe} (he : e.data.home = op) (x : Slot) :
    tally (entries + {e}) op x = tally entries op x + if x = e.data.slot then 1 else 0 := by
  subst he
  have hptr : e.data = ⟨e.data.home, x⟩ ↔ x = e.data.slot :=
    ⟨fun h => (congrArg Ptr.slot h).symm, fun h => h ▸ rfl⟩
  rw [tally_add, tally_singleton, if_congr hptr rfl rfl]

/-- The object comes back from the ring. -/
theorem Sound.free {e : Sqe} (h : p.Sound op (entries + {e}) away) (he : e.data.home = op) (r : Ring) :
    (p.free r e.data.slot).1.Sound op entries away := by
  refine ⟨Owned.free e.data.slot ?_ r, fun x hx hop => ?_⟩
  · have hout : (fun x => tally (entries + {e}) op x + away x) =
        plus (fun slot => tally entries op slot + away slot) e.data.slot := by
      funext x
      simp only [tally_add_entry he, plus]
      omega
    rw [← hout]
    exact h.owned
  · rw [free_objects]
    exact h.preps x (Multiset.mem_add.mpr (.inl hx)) hop

theorem Sound.remove_other {e : Sqe} (h : p.Sound op (entries + {e}) away) (he : e.data.home ≠ op) :
    p.Sound op entries away := by
  refine ⟨?_, fun x hx hop => h.preps x (Multiset.mem_add.mpr (.inl hx)) hop⟩
  have htally : ∀ slot, tally (entries + {e}) op slot = tally entries op slot := by
    intro slot
    rw [tally_add, tally_singleton, if_neg, Nat.add_zero]
    intro heq
    exact he (congrArg Ptr.home heq)
  have howned := h.owned
  simp only [htally] at howned
  exact howned

/-- Who has the object now is outside the ring. -/
theorem Sound.lend {e : Sqe} (h : p.Sound op (entries + {e}) away) (he : e.data.home = op) :
    p.Sound op entries (plus away e.data.slot) := by
  refine ⟨?_, fun x hx hop => h.preps x (Multiset.mem_add.mpr (.inl hx)) hop⟩
  have hout : (fun x => tally (entries + {e}) op x + away x) =
      fun x => tally entries op x + plus away e.data.slot x := by
    funext x
    simp only [tally_add_entry he, plus]
    omega
  rw [← hout]
  exact h.owned

/-- The object comes back from outside the ring. -/
theorem Sound.returned {slot : Slot} (h : p.Sound op entries (plus away slot)) (r : Ring) :
    (p.free r slot).1.Sound op entries away := by
  refine ⟨Owned.free slot ?_ r, fun x hx hop => ?_⟩
  · have hout : (fun x => tally entries op x + plus away slot x) =
        plus (fun slot => tally entries op slot + away slot) slot := by
      funext x
      simp only [plus]
      omega
    rw [← hout]
    exact h.owned
  · rw [free_objects]
    exact h.preps x hx hop

end RequestPool

namespace EventLoop

variable {ev ev' ev'' : EventLoop} {held : Multiset Sqe} {away : Slot → Nat}

structure Sound (ev : EventLoop) (held : Multiset Sqe) (away : Slot → Nat) : Prop where
  openats : ev.openats.Sound .openat (ev.ring.entriesWith held) fun _ => 0
  closes : ev.closes.Sound .close (ev.ring.entriesWith held) fun _ => 0
  reads : ev.reads.Sound .read (ev.ring.entriesWith held) away
  writes : ev.writes.Sound .write (ev.ring.entriesWith held) fun _ => 0

def pending (ev : EventLoop) (held : Multiset Sqe) : Multiset Prep :=
  ↑ev.openats.parked + ↑ev.closes.parked + ↑ev.reads.parked + ↑ev.writes.parked +
    (ev.ring.entriesWith held).map Sqe.prep

/-! One pool with the ring, and the other pools. -/

def pendingApart (a b c : List Prep) : Multiset Prep := ↑a + ↑b + ↑c

theorem pending_openats (ev : EventLoop) (held : Multiset Sqe) :
    ev.pending held = pendingApart ev.closes.parked ev.reads.parked ev.writes.parked +
      ev.openats.pendingWith (ev.ring.entriesWith held) := by
  simp only [pending, pendingApart, RequestPool.pendingWith]
  abel

theorem pending_closes (ev : EventLoop) (held : Multiset Sqe) :
    ev.pending held = pendingApart ev.openats.parked ev.reads.parked ev.writes.parked +
      ev.closes.pendingWith (ev.ring.entriesWith held) := by
  simp only [pending, pendingApart, RequestPool.pendingWith]
  abel

theorem pending_reads (ev : EventLoop) (held : Multiset Sqe) :
    ev.pending held = pendingApart ev.openats.parked ev.closes.parked ev.writes.parked +
      ev.reads.pendingWith (ev.ring.entriesWith held) := by
  simp only [pending, pendingApart, RequestPool.pendingWith]
  abel

theorem pending_writes (ev : EventLoop) (held : Multiset Sqe) :
    ev.pending held = pendingApart ev.openats.parked ev.closes.parked ev.reads.parked +
      ev.writes.pendingWith (ev.ring.entriesWith held) := by
  simp only [pending, pendingApart, RequestPool.pendingWith]
  abel

/-- `qs` were queued between the two, and nothing else changed that matters to a request. -/
structure Queues (held : Multiset Sqe) (away : Slot → Nat) (ev ev' : EventLoop) (qs : Multiset Prep) :
    Prop where
  sound : ev'.Sound held away
  pending : ev'.pending held = ev.pending held + qs
  reads : ∀ slot, 0 < away slot → ev'.reads.objects slot = ev.reads.objects slot
  kernel : ev'.ring.kernel = ev.ring.kernel
  cq : ev'.ring.cq = ev.ring.cq
  frees : ev'.readFreeQueue = ev.readFreeQueue

theorem Sound.queues_refl (h : ev.Sound held away) : Queues held away ev ev 0 :=
  ⟨h, (add_zero _).symm, fun _ _ => rfl, rfl, rfl, rfl⟩

theorem Queues.trans {qs qs' : Multiset Prep} (h : Queues held away ev ev' qs)
    (h' : Queues held away ev' ev'' qs') : Queues held away ev ev'' (qs + qs') where
  sound := h'.sound
  pending := by rw [h'.pending, h.pending, add_assoc]
  reads slot hs := (h'.reads slot hs).trans (h.reads slot hs)
  kernel := h'.kernel.trans h.kernel
  cq := h'.cq.trans h.cq
  frees := h'.frees.trans h.frees

/-- The requests of the call `c`. -/
def Call.preps : Call → Multiset Prep
  | .openat parentFd path flags => {.openat parentFd path flags}
  | .getdents _ => 0
  | .close fd => {.close fd}
  | .read fd offset => {.read fd (64 * 1024) offset}
  | .write fd buffer offset => {.write fd buffer offset buffer.length}

theorem Sound.queueClose (h : ev.Sound held away) (fd : Int) :
    Queues held away ev (ev.queueClose fd) (Call.close fd).preps := by
  obtain ⟨hpush, hsound, hpending, -⟩ :=
    h.closes.next (fun _ => ⟨fd⟩) (q := .close fd) fun _ => rfl
  refine ⟨⟨h.openats.of_pushed hpush nofun, hsound, h.reads.of_pushed hpush nofun,
    h.writes.of_pushed hpush nofun⟩, ?_, fun _ _ => rfl, hpush.kernel, hpush.cq, rfl⟩
  rw [pending_closes, pending_closes ev, add_assoc]
  exact congrArg (pendingApart ev.openats.parked ev.reads.parked ev.writes.parked + ·) hpending

theorem Sound.queueRead (h : ev.Sound held away) (fd : Int) (offset : UInt64) :
    Queues held away ev (ev.queueRead fd offset) (Call.read fd offset).preps := by
  obtain ⟨hpush, hsound, hpending, hobj⟩ :=
    h.reads.next (fun req => { req with fd, offset }) (q := .read fd (64 * 1024) offset)
      fun _ => rfl
  refine ⟨⟨h.openats.of_pushed hpush nofun, h.closes.of_pushed hpush nofun, hsound,
    h.writes.of_pushed hpush nofun⟩, ?_, hobj, hpush.kernel, hpush.cq, rfl⟩
  rw [pending_reads, pending_reads ev, add_assoc]
  exact congrArg (pendingApart ev.openats.parked ev.closes.parked ev.writes.parked + ·) hpending

theorem Sound.queueWrite (h : ev.Sound held away) (fd : Int) (buffer : Bytes) (offset : UInt64) :
    Queues held away ev (ev.queueWrite fd buffer offset) (Call.write fd buffer offset).preps := by
  obtain ⟨hpush, hsound, hpending, -⟩ :=
    h.writes.next (fun _ => ⟨fd, offset, buffer⟩)
      (q := .write fd buffer offset buffer.length) fun _ => rfl
  refine ⟨⟨h.openats.of_pushed hpush nofun, h.closes.of_pushed hpush nofun,
    h.reads.of_pushed hpush nofun, hsound⟩, ?_, fun _ _ => rfl, hpush.kernel, hpush.cq, rfl⟩
  rw [pending_writes, pending_writes ev, add_assoc]
  exact congrArg (pendingApart ev.openats.parked ev.closes.parked ev.reads.parked + ·) hpending

/-- The part of `queue_openat` behind `increase_dir_ref`. -/
theorem Sound.nextOpenat (h : ev.Sound held away) (parentFd : Int) (path : String) (flags : Nat) :
    let r := ev.openats.next ev.ring fun _ => ⟨parentFd, path, flags⟩
    Queues held away ev { ev with openats := r.1, ring := r.2 }
      (Call.openat parentFd path flags).preps := by
  intro r
  obtain ⟨hpush, hsound, hpending, -⟩ :=
    h.openats.next (fun _ => ⟨parentFd, path, flags⟩) (q := .openat parentFd path flags)
      fun _ => rfl
  refine ⟨⟨hsound, h.closes.of_pushed hpush nofun, h.reads.of_pushed hpush nofun,
    h.writes.of_pushed hpush nofun⟩, ?_, fun _ _ => rfl, hpush.kernel, hpush.cq, rfl⟩
  rw [pending_openats, pending_openats ev, add_assoc]
  exact congrArg (pendingApart ev.closes.parked ev.reads.parked ev.writes.parked + ·) hpending

theorem Sound.dirRefs (h : ev.Sound held away) (refs : Int → Option Nat) :
    Queues held away ev { ev with dirRefCount := refs } 0 :=
  ⟨⟨h.openats, h.closes, h.reads, h.writes⟩, (add_zero _).symm, fun _ _ => rfl, rfl, rfl, rfl⟩

theorem Sound.getdents (h : ev.Sound held away) (queue : List Int) :
    Queues held away ev { ev with getdentsQueue := queue } 0 :=
  ⟨⟨h.openats, h.closes, h.reads, h.writes⟩, (add_zero _).symm, fun _ _ => rfl, rfl, rfl, rfl⟩

theorem Sound.queueOpenat (h : ev.Sound held away) {parentFd : Int} {path : String} {flags : Nat}
    (hc : ev.queueOpenat parentFd path flags = some ev') :
    Queues held away ev ev' (Call.openat parentFd path flags).preps := by
  unfold EventLoop.queueOpenat at hc
  split at hc
  · cases hc
    exact h.nextOpenat parentFd path flags
  · split at hc
    · simp only [EventLoop.increaseDirRef, Option.map_map, Option.map_eq_some_iff] at hc
      obtain ⟨n, -, rfl⟩ := hc
      have hrefs := h.dirRefs (update ev.dirRefCount parentFd (some (n + 1)))
      have := hrefs.trans (hrefs.sound.nextOpenat parentFd path flags)
      rwa [zero_add] at this
    · cases hc

theorem Sound.call (h : ev.Sound held away) {c : Call} (hc : ev.call c = some ev') :
    Queues held away ev ev' c.preps := by
  cases c with
  | openat parentFd path flags => exact h.queueOpenat hc
  | getdents fd =>
    cases hc
    exact h.getdents _
  | close fd =>
    cases hc
    exact h.queueClose fd
  | read fd offset =>
    cases hc
    exact h.queueRead fd offset
  | write fd buffer offset =>
    cases hc
    exact h.queueWrite fd buffer offset

/-- The calls that `decrease_dir_ref` makes. -/
def lastRef (ev : EventLoop) (fd : Int) : List Call :=
  if ev.dirRefCount fd = some 1 then [.close fd] else []

def preps (calls : List Call) : Multiset Prep := (calls.map Call.preps).sum

@[simp] theorem preps_nil : preps [] = 0 := rfl

@[simp] theorem preps_cons (c : Call) (calls : List Call) : preps (c :: calls) = c.preps + preps calls :=
  List.sum_cons

theorem preps_singleton (c : Call) : preps [c] = c.preps := by
  rw [preps_cons, preps_nil, add_zero]

theorem Sound.decreaseDirRef (h : ev.Sound held away) {fd : Int} (hc : ev.decreaseDirRef fd = some ev') :
    Queues held away ev ev' (preps (ev.lastRef fd)) := by
  unfold EventLoop.decreaseDirRef at hc
  split at hc
  · cases hc
  · cases hc
  · rename_i hone
    cases hc
    have hclose := h.queueClose fd
    have := hclose.trans (hclose.sound.dirRefs (update ev.dirRefCount fd none))
    rw [lastRef, if_pos hone]
    simpa using this
  · rename_i n hmore
    cases hc
    rw [lastRef, if_neg (by rw [hmore]; simp)]
    exact h.dirRefs _

theorem Sound.popOverflow (h : ev.Sound held away) {popped : Bool} (hc : ev.popOverflow = (popped, ev')) :
    Queues held away ev ev' 0 := by
  unfold EventLoop.popOverflow at hc
  split at hc
  · rename_i openats ring heq
    cases hc
    obtain ⟨hpush, hsound, hpending, -⟩ := h.openats.tryPopOverflow heq
    refine ⟨⟨hsound, h.closes.of_pushed hpush nofun, h.reads.of_pushed hpush nofun,
      h.writes.of_pushed hpush nofun⟩, ?_, fun _ _ => rfl, hpush.kernel, hpush.cq, rfl⟩
    rw [pending_openats, pending_openats ev, add_zero]
    exact congrArg (pendingApart ev.closes.parked ev.reads.parked ev.writes.parked + ·) hpending
  · split at hc
    · rename_i closes ring heq
      cases hc
      obtain ⟨hpush, hsound, hpending, -⟩ := h.closes.tryPopOverflow heq
      refine ⟨⟨h.openats.of_pushed hpush nofun, hsound, h.reads.of_pushed hpush nofun,
        h.writes.of_pushed hpush nofun⟩, ?_, fun _ _ => rfl, hpush.kernel, hpush.cq, rfl⟩
      rw [pending_closes, pending_closes ev, add_zero]
      exact congrArg (pendingApart ev.openats.parked ev.reads.parked ev.writes.parked + ·) hpending
    · split at hc
      · rename_i reads ring heq
        cases hc
        obtain ⟨hpush, hsound, hpending, hobj⟩ := h.reads.tryPopOverflow heq
        refine ⟨⟨h.openats.of_pushed hpush nofun, h.closes.of_pushed hpush nofun, hsound,
          h.writes.of_pushed hpush nofun⟩, ?_, fun _ _ => by rw [hobj], hpush.kernel, hpush.cq, rfl⟩
        rw [pending_reads, pending_reads ev, add_zero]
        exact congrArg (pendingApart ev.openats.parked ev.closes.parked ev.writes.parked + ·) hpending
      · cases hc
        exact h.queues_refl

/-! ## The end of a request -/

theorem entriesWith_add (r : Ring) (held : Multiset Sqe) (e : Sqe) :
    r.entriesWith (held + {e}) = r.entriesWith held + {e} := (add_assoc _ _ _).symm

theorem pending_add (ev : EventLoop) (held : Multiset Sqe) (e : Sqe) :
    ev.pending (held + {e}) = ev.pending held + {e.prep} := by
  simp only [pending, entriesWith_add, Multiset.map_add, Multiset.map_singleton, add_assoc]

/-- The completion of `e` is dealt with, and `qs` were queued for it. -/
structure Settles (held : Multiset Sqe) (away : Slot → Nat) (e : Sqe) (ev ev' : EventLoop)
    (qs : Multiset Prep) : Prop where
  sound : ev'.Sound held away
  pending : ev'.pending held + {e.prep} = ev.pending (held + {e}) + qs
  reads : ∀ slot, 0 < away slot → ev'.reads.objects slot = ev.reads.objects slot
  kernel : ev'.ring.kernel = ev.ring.kernel
  cq : ev'.ring.cq = ev.ring.cq
  frees : ev'.readFreeQueue = ev.readFreeQueue

theorem Queues.settles {e : Sqe} {qs : Multiset Prep} (h : Queues (held + {e}) away ev ev' qs)
    (h' : Settles held away e ev' ev'' 0) : Settles held away e ev ev'' qs where
  sound := h'.sound
  pending := by rw [h'.pending, h.pending, add_zero]
  reads slot hs := (h'.reads slot hs).trans (h.reads slot hs)
  kernel := h'.kernel.trans h.kernel
  cq := h'.cq.trans h.cq
  frees := h'.frees.trans h.frees

section Free
variable {e : Sqe} (h : ev.Sound (held + {e}) away)
include h

theorem Sound.freeOpenat (he : e.data.home = .openat) :
    Settles held away e ev (ev.freeOpenat e.data.slot) 0 := by
  obtain ⟨hopenats, hcloses, hreads, hwrites⟩ := h
  rw [entriesWith_add] at hopenats hcloses hreads hwrites
  simp only [EventLoop.freeOpenat, RequestPool.free_ring]
  refine ⟨⟨hopenats.free he ev.ring, hcloses.remove_other (by simp [he]),
    hreads.remove_other (by simp [he]), hwrites.remove_other (by simp [he])⟩, ?_, fun _ _ => rfl,
    rfl, rfl, rfl⟩
  rw [pending_add, add_zero, pending, pending, RequestPool.free_parked]
  rfl

theorem Sound.freeClose (he : e.data.home = .close) :
    Settles held away e ev (ev.freeClose e.data.slot) 0 := by
  obtain ⟨hopenats, hcloses, hreads, hwrites⟩ := h
  rw [entriesWith_add] at hopenats hcloses hreads hwrites
  simp only [EventLoop.freeClose, RequestPool.free_ring]
  refine ⟨⟨hopenats.remove_other (by simp [he]), hcloses.free he ev.ring,
    hreads.remove_other (by simp [he]), hwrites.remove_other (by simp [he])⟩, ?_, fun _ _ => rfl,
    rfl, rfl, rfl⟩
  rw [pending_add, add_zero, pending, pending, RequestPool.free_parked]
  rfl

theorem Sound.freeRead (he : e.data.home = .read) :
    Settles held away e ev (ev.freeRead e.data.slot) 0 := by
  obtain ⟨hopenats, hcloses, hreads, hwrites⟩ := h
  rw [entriesWith_add] at hopenats hcloses hreads hwrites
  simp only [EventLoop.freeRead, RequestPool.free_ring]
  refine ⟨⟨hopenats.remove_other (by simp [he]), hcloses.remove_other (by simp [he]),
    hreads.free he ev.ring, hwrites.remove_other (by simp [he])⟩, ?_, fun _ _ => ?_, rfl, rfl, rfl⟩
  · rw [pending_add, add_zero, pending, pending, RequestPool.free_parked]
    rfl
  · rw [RequestPool.free_objects]

theorem Sound.freeWrite (he : e.data.home = .write) :
    Settles held away e ev (ev.freeWrite e.data.slot) 0 := by
  obtain ⟨hopenats, hcloses, hreads, hwrites⟩ := h
  rw [entriesWith_add] at hopenats hcloses hreads hwrites
  simp only [EventLoop.freeWrite, RequestPool.free_ring]
  refine ⟨⟨hopenats.remove_other (by simp [he]), hcloses.remove_other (by simp [he]),
    hreads.remove_other (by simp [he]), hwrites.free he ev.ring⟩, ?_, fun _ _ => rfl, rfl, rfl, rfl⟩
  rw [pending_add, add_zero, pending, pending, RequestPool.free_parked]
  rfl

/-- A request that nobody frees. -/
theorem Sound.lend (he : e.data.home = .read) :
    Settles held (RequestPool.plus away e.data.slot) e ev ev 0 := by
  obtain ⟨hopenats, hcloses, hreads, hwrites⟩ := h
  rw [entriesWith_add] at hopenats hcloses hreads hwrites
  refine ⟨⟨hopenats.remove_other (by simp [he]), hcloses.remove_other (by simp [he]),
    hreads.lend he, hwrites.remove_other (by simp [he])⟩, ?_, fun _ _ => rfl, rfl, rfl, rfl⟩
  rw [pending_add, add_zero]

end Free

/-- `handRead` changes only `res`, which no request depends on. -/
theorem handRead_prep (ev : EventLoop) (slot : Slot) (res : Int) (x : Slot) :
    IsRequest.prep ((ev.handRead slot res).reads.objects x).fields =
      IsRequest.prep (ev.reads.objects x).fields := by
  unfold handRead
  by_cases hx : x = slot
  · subst hx
    simp [IsRequest.prep]
  · simp [update_of_ne hx]

theorem Sound.handRead (h : ev.Sound held away) (slot : Slot) (res : Int) :
    (ev.handRead slot res).Sound held away ∧ (ev.handRead slot res).pending held = ev.pending held := by
  have hprep := ev.handRead_prep slot res
  refine ⟨⟨h.openats, h.closes, ⟨⟨h.reads.owned.tag, fun x hx => ?_, h.reads.owned.once⟩, ?_⟩,
    h.writes⟩, ?_⟩
  · have htag := h.reads.owned.tags x hx
    unfold EventLoop.handRead
    by_cases hs : x = slot
    · subst hs
      simpa using htag
    · simpa [update_of_ne hs] using htag
  · intro x hx hop
    rw [hprep]
    exact h.reads.preps x hx hop
  · have hparked : (ev.handRead slot res).reads.parked = ev.reads.parked :=
      List.map_congr_left fun x _ => hprep x
    simp only [pending, hparked]
    rfl

/-- The calls that `pump` makes behind a handler. -/
def behindCalls (ev : EventLoop) (op : Op) (slot : Slot) (res : Int) : List Call :=
  match op with
  | .openat =>
    let parentFd := (ev.openats.objects slot).fields.parentFd
    if parentFd = atFdcwd then [] else ev.lastRef parentFd
  | .close => []
  | .read =>
    let req := (ev.reads.objects slot).fields
    if res = 0 then [.close req.fd]
    else if 0 < res then [.read req.fd (req.offset + UInt64.ofInt res)]
    else []
  | .write =>
    let req := (ev.writes.objects slot).fields
    let offset := req.offset + UInt64.ofInt res
    if offset.toNat ≠ req.buffer.length then [.write req.fd req.buffer offset] else []

/-- A completion is settled behind its handler, unless the request was handed over before. A read that
failed is lost. -/
theorem Sound.behind {e : Sqe} {res : Int} (h : ev.Sound (held + {e}) away)
    (hread : ¬ (e.data.home = .read ∧ 0 < res))
    (hc : ev.behind e.data.home e.data.slot res = some ev') :
    Settles held (if e.data.home = .read ∧ res < 0 then RequestPool.plus away e.data.slot else away)
      e ev ev' (preps (ev.behindCalls e.data.home e.data.slot res)) := by
  rcases hop : e.data.home with _ | _ | _ | _
  · rw [hop] at hc
    rw [if_neg (by simp)]
    obtain ⟨mid, rfl, ⟨hcwd, rfl⟩ | ⟨hcwd, hmid⟩⟩ := behind_openat hc
    · refine Queues.settles ?_ (h.freeOpenat hop)
      simp only [behindCalls, if_pos hcwd]
      exact h.queues_refl
    · have hq := h.decreaseDirRef hmid
      refine Queues.settles ?_ (hq.sound.freeOpenat hop)
      simp only [behindCalls, if_neg hcwd]
      exact hq
  · rw [hop] at hc
    cases hc
    rw [if_neg (by simp)]
    exact h.freeClose hop
  · rw [hop] at hc hread
    simp only [EventLoop.behind] at hc
    simp only [behindCalls]
    split at hc
    · rename_i hzero
      cases hc
      have hclose := h.queueClose (ev.reads.objects e.data.slot).fields.fd
      rw [if_neg (by omega), if_pos hzero]
      have := hclose.settles (hclose.sound.freeRead hop)
      simpa using this
    · rename_i hzero
      have hneg : res < 0 := by
        have : ¬ 0 < res := fun hpos => hread ⟨rfl, hpos⟩
        omega
      rw [if_neg (by omega)] at hc
      cases hc
      rw [if_pos ⟨trivial, hneg⟩, if_neg hzero, if_neg (by omega)]
      exact h.lend hop
  · rw [hop] at hc
    simp only [EventLoop.behind] at hc
    simp only [behindCalls]
    rw [if_neg (by simp)]
    cases hc
    split
    · have hwrite := h.queueWrite (ev.writes.objects e.data.slot).fields.fd
        (ev.writes.objects e.data.slot).fields.buffer
        ((ev.writes.objects e.data.slot).fields.offset + UInt64.ofInt res)
      have := hwrite.settles (hwrite.sound.freeWrite hop)
      simpa using this
    · exact h.freeWrite hop

/-- The next block of a file is queued behind `read_handler_`. -/
theorem Sound.behind_handed {slot : Slot} {res : Int} (h : ev.Sound held away) (hpos : 0 < res)
    (hc : ev.behind .read slot res = some ev') :
    Queues held away ev ev' (preps (ev.behindCalls .read slot res)) := by
  simp only [EventLoop.behind] at hc
  simp only [behindCalls]
  rw [if_neg (by omega), if_pos hpos] at hc
  cases hc
  rw [if_neg (by omega), if_pos hpos]
  simpa using h.queueRead (ev.reads.objects slot).fields.fd
    ((ev.reads.objects slot).fields.offset + UInt64.ofInt res)

/-- `read_request_pool_.free(req)` in the drain loop. -/
theorem Sound.drainRead {slot : Slot} (h : ev.Sound held (RequestPool.plus away slot)) :
    Queues held away ev (ev.drainRead slot) 0 := by
  simp only [EventLoop.drainRead, RequestPool.free_ring]
  refine ⟨⟨h.openats, h.closes, h.reads.returned ev.ring, h.writes⟩, ?_, fun _ _ => ?_, rfl, rfl, rfl⟩
  · rw [add_zero, pending, pending, RequestPool.free_parked]
    rfl
  · rw [RequestPool.free_objects]

/-! ## The ring -/

theorem Sound.of_entries (h : ev.Sound held away) {ring : Ring} {held' : Multiset Sqe}
    (hring : ring.entriesWith held' = ev.ring.entriesWith held) :
    { ev with ring }.Sound held' away ∧ { ev with ring }.pending held' = ev.pending held := by
  refine ⟨⟨?_, ?_, ?_, ?_⟩, ?_⟩
  · rw [hring]
    exact h.openats
  · rw [hring]
    exact h.closes
  · rw [hring]
    exact h.reads
  · rw [hring]
    exact h.writes
  · simp only [pending, hring]

/-- The tag of an object in the ring is that of its pool. -/
theorem Sound.opOf (h : ev.Sound held away) {e : Sqe} (he : e ∈ ev.ring.entriesWith held) :
    ev.opOf e.data = e.data.home := by
  have hpos := tally_pos he
  unfold EventLoop.opOf
  rcases hop : e.data.home with _ | _ | _ | _
  · rw [hop] at hpos
    exact h.openats.owned.tags _ (h.openats.owned.valid (by simpa using hpos))
  · rw [hop] at hpos
    exact h.closes.owned.tags _ (h.closes.owned.valid (by simpa using hpos))
  · rw [hop] at hpos
    exact h.reads.owned.tags _ (h.reads.owned.valid (Nat.add_pos_left hpos _))
  · rw [hop] at hpos
    exact h.writes.owned.tags _ (h.writes.owned.valid (by simpa using hpos))

end EventLoop

end Omnipp.Utils
