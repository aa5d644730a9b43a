import Omnipp.Lib.History
import Omnipp.Utils.Pump

/-! # `EventLoop::pump` in smaller steps

Here every call that a handler makes is a step of its own, so that the kernel and the other threads
may move between the calls, and between a handler and what `pump` does behind it. The steps have
labels. A step of `Pump` is a run of these.
-/

open Function Omnipp.History

namespace Omnipp.Utils

namespace EventLoop

/-- What happens in the `switch` before the handler is called. -/
def before (ev : EventLoop) (op : Op) (slot : Slot) (res : Int) : EventLoop :=
  if op = .read ∧ 0 < res then ev.handRead slot res else ev

section Before
variable (ev : EventLoop) (op : Op) (slot : Slot) (res : Int)

@[simp] theorem before_writes : (ev.before op slot res).writes = ev.writes := by
  unfold before
  split <;> rfl

@[simp] theorem before_getdentsQueue : (ev.before op slot res).getdentsQueue = ev.getdentsQueue := by
  unfold before
  split <;> rfl

@[simp] theorem before_dirRefCount : (ev.before op slot res).dirRefCount = ev.dirRefCount := by
  unfold before
  split <;> rfl

@[simp] theorem before_readFreeQueue : (ev.before op slot res).readFreeQueue = ev.readFreeQueue := by
  unfold before
  split <;> rfl

@[simp] theorem before_cq : (ev.before op slot res).ring.cq = ev.ring.cq := by
  unfold before
  split <;> rfl

end Before

/-- What happens behind the handler. -/
def behind (ev : EventLoop) (op : Op) (slot : Slot) (res : Int) : Option EventLoop :=
  match op with
  | .openat => do
    let parentFd := (ev.openats.objects slot).fields.parentFd
    let ev ← (if parentFd = atFdcwd then some ev else ev.decreaseDirRef parentFd)
    return ev.freeOpenat slot
  | .close => some (ev.freeClose slot)
  | .read =>
    let req := (ev.reads.objects slot).fields
    if res = 0 then some ((ev.queueClose req.fd).freeRead slot)
    else if 0 < res then some (ev.queueRead req.fd (req.offset + UInt64.ofInt res))
    else some ev
  | .write =>
    let req := (ev.writes.objects slot).fields
    let offset := req.offset + UInt64.ofInt res
    let ev := if offset.toNat ≠ req.buffer.length then ev.queueWrite req.fd req.buffer offset else ev
    some (ev.freeWrite slot)

/-- Behind `openat_handler_`, the directory that was opened from is given back, unless it is the working
directory. -/
theorem behind_openat {ev ev' : EventLoop} {slot : Slot} {res : Int}
    (h : ev.behind .openat slot res = some ev') :
    ∃ mid, ev' = mid.freeOpenat slot ∧
      ((ev.openats.objects slot).fields.parentFd = atFdcwd ∧ mid = ev ∨
        (ev.openats.objects slot).fields.parentFd ≠ atFdcwd ∧
          ev.decreaseDirRef (ev.openats.objects slot).fields.parentFd = some mid) := by
  obtain ⟨mid, hmid, hev⟩ := Option.bind_eq_some_iff.mp h
  refine ⟨mid, (Option.some.inj hev).symm, ?_⟩
  split at hmid
  · rename_i hcwd
    exact .inl ⟨hcwd, (Option.some.inj hmid).symm⟩
  · rename_i hcwd
    exact .inr ⟨hcwd, hmid⟩

end EventLoop

/-- The handler of the operation is called for this result. -/
def Op.Handles (op : Op) (res : Int) : Prop :=
  match op with
  | .openat => 0 ≤ res
  | .read => 0 < res
  | .close | .write => True

instance (op : Op) (res : Int) : Decidable (op.Handles res) := by
  cases op <;> unfold Op.Handles <;> infer_instance

/-- Where the thread that owns the loop stands. -/
inductive Spot where
  | phase (p : Phase)
  -- In the `switch`, at the completion that has `count` others before it in the batch.
  | handling (count : Nat) (sqe : Sqe) (res : Int) (op : Op)
  -- `read_handler_` failed and `pump` returned, after `count` completions of the batch.
  | aborted (count : Nat) (error : String)

namespace Spot

def Outside : Spot → Prop
  | .phase (.outside _) | .aborted _ _ => True
  | _ => False

theorem Outside.split {spot : Spot} (h : spot.Outside) :
    (∃ last, spot = .phase (.outside last)) ∨ ∃ count e, spot = .aborted count e := by
  rcases spot with p | _ | ⟨count, e⟩
  · rcases p with last | _ | _ | _ | _ | _ | _ | _ | _ | _ | _ <;> first | exact .inl ⟨last, rfl⟩ | exact h.elim
  · exact h.elim
  · exact .inr ⟨count, e, rfl⟩

/-- Code that is not the loop's own runs, and may call the loop. -/
def UserCode : Spot → Prop
  | .phase (.outside _) | .phase (.inListing _ _) | .aborted _ _ => True
  | .handling _ _ res op => op.Handles res
  | _ => False

/-- The completions of the batch whose requests are not out any more. -/
def gone : Spot → Nat
  | .phase p => p.handled
  | .handling count _ res op => if op = .read ∧ 0 < res then count + 1 else count
  | .aborted count _ => count

end Spot

structure Moment where
  ev : EventLoop
  spot : Spot
  handed : List Slot

inductive Act where
  | call (c : EventLoop.Call)
  | enter | swap
  | list (fd : Int)
  | listed (fd : Int)
  | listedAll | pop | popped
  | drain (slot : Slot)
  | drained | exit | goOn
  | submitFails (errno : Nat)
  | submit | peek | sleep | wake
  | handle (sqe : Sqe) (res : Int)
  | handled (sqe : Sqe) (res : Int)
  | handlerFails (error : String)
  | advance
  | complete (sqe : Sqe) (res : Int)
  | freeRead (slot : Slot)

inductive Does : Moment → Act → Moment → Prop
  | call {s : Moment} {ev : EventLoop} (c : EventLoop.Call) (hp : s.spot.UserCode)
      (hc : s.ev.call c = some ev) : Does s (.call c) { s with ev }
  | enter {s : Moment} (hp : s.spot.Outside) : Does s .enter { s with spot := .phase .top }
  | swap {s : Moment} (hp : s.spot = .phase .top) :
      Does s .swap { s with ev := { s.ev with getdentsQueue := [] }
                            spot := .phase (.listing s.ev.getdentsQueue) }
  | list {s : Moment} {fd : Int} {todo : List Int} (hp : s.spot = .phase (.listing (fd :: todo))) :
      Does s (.list fd)
        { s with ev := { s.ev with dirRefCount := update s.ev.dirRefCount fd (some 1) }
                 spot := .phase (.inListing fd todo) }
  | listed {s : Moment} {fd : Int} {todo : List Int} {ev : EventLoop}
      (hp : s.spot = .phase (.inListing fd todo)) (hc : s.ev.decreaseDirRef fd = some ev) :
      Does s (.listed fd) { s with ev, spot := .phase (.listing todo) }
  | listedAll {s : Moment} (hp : s.spot = .phase (.listing [])) :
      Does s .listedAll { s with spot := .phase .overflow }
  | pop {s : Moment} {ev : EventLoop} (hp : s.spot = .phase .overflow)
      (hc : s.ev.popOverflow = (true, ev)) : Does s .pop { s with ev }
  | popped {s : Moment} {ev : EventLoop} (hp : s.spot = .phase .overflow)
      (hc : s.ev.popOverflow = (false, ev)) :
      Does s .popped { s with ev := { ev with readFreeQueue := [] }
                              spot := .phase (.drain ev.readFreeQueue) }
  | drain {s : Moment} {slot : Slot} {todo : List Slot} (hp : s.spot = .phase (.drain (slot :: todo))) :
      Does s (.drain slot) { s with ev := s.ev.drainRead slot, spot := .phase (.drain todo) }
  | drained {s : Moment} (hp : s.spot = .phase (.drain [])) :
      Does s .drained { s with spot := .phase .check }
  | exit {s : Moment} (hp : s.spot = .phase .check) (hzero : s.ev.ring.inFlight = 0) :
      Does s .exit { s with spot := .phase (.outside (.ok ())) }
  | goOn {s : Moment} (hp : s.spot = .phase .check) (hne : s.ev.ring.inFlight ≠ 0) :
      Does s .goOn { s with spot := .phase .submit }
  | submitFails {s : Moment} (errno : Nat) (hp : s.spot = .phase .submit) :
      Does s (.submitFails errno)
        { s with spot := .phase (.outside (.error s!"failed to submit pending requests: {errno}")) }
  | submit {s : Moment} (hp : s.spot = .phase .submit) :
      Does s .submit { s with ev := { s.ev with ring := s.ev.ring.submitted }, spot := .phase .peek }
  | peek {s : Moment} (hp : s.spot = .phase .peek) (hne : s.ev.ring.cq ≠ []) :
      Does s .peek { s with spot := .phase (.reap 0) }
  | sleep {s : Moment} (hp : s.spot = .phase .peek) (hnil : s.ev.ring.cq = []) :
      Does s .sleep { s with spot := .phase .wait }
  | wake {s : Moment} (hp : s.spot = .phase .wait) (hne : s.ev.ring.cq ≠ []) :
      Does s .wake { s with spot := .phase (.reap 0) }
  | handle {s : Moment} {count : Nat} {sqe : Sqe} {res : Int} (hp : s.spot = .phase (.reap count))
      (hcq : s.ev.ring.cq[count]? = some (sqe, res)) :
      Does s (.handle sqe res)
        { ev := s.ev.before (s.ev.opOf sqe.data) sqe.data.slot res
          spot := .handling count sqe res (s.ev.opOf sqe.data)
          handed := s.handed ++ s.ev.handedBy sqe.data res }
  | handled {s : Moment} {count : Nat} {sqe : Sqe} {res : Int} {op : Op} {ev : EventLoop}
      (hp : s.spot = .handling count sqe res op)
      (hc : s.ev.behind op sqe.data.slot res = some ev) :
      Does s (.handled sqe res) { s with ev, spot := .phase (.reap (count + 1)) }
  | handlerFails {s : Moment} {count : Nat} {sqe : Sqe} {res : Int} (error : String)
      (hp : s.spot = .handling count sqe res .read) (hpos : 0 < res) :
      Does s (.handlerFails error) { s with spot := .aborted (count + 1) error }
  | advance {s : Moment} {count : Nat} (hp : s.spot = .phase (.reap count))
      (hend : s.ev.ring.cq[count]? = none) :
      Does s .advance
        { s with ev := { s.ev with ring := { s.ev.ring with cq := s.ev.ring.cq.drop count } }
                 spot := .phase .top }
  | complete {s : Moment} {before behind : List Sqe} {sqe : Sqe} (res : Int)
      (hk : s.ev.ring.kernel = before ++ sqe :: behind) :
      Does s (.complete sqe res)
        { s with ev := { s.ev with ring := { s.ev.ring with
          kernel := before ++ behind, cq := s.ev.ring.cq ++ [(sqe, res)] } } }
  | freeRead {s : Moment} (slot : Slot) (hs : slot ∈ s.handed) :
      Does s (.freeRead slot)
        { s with ev := { s.ev with readFreeQueue := s.ev.readFreeQueue ++ [slot] }
                 handed := s.handed.erase slot }

/-! ## The steps of `Pump` -/

abbrev Reached : Moment → List (Moment × Act) → Moment → Prop := Run Does fun _ _ => True

theorem Reached.step {a s t : Moment} {past : List (Moment × Act)} {act : Act} (h : Reached a past s)
    (hs : Does s act t) : Reached a (past ++ [(s, act)]) t := h.snoc trivial hs

/-- The same state, seen from `Pump`. -/
def Moment.Is (m : Moment) (s : Sys) : Prop :=
  m.ev = s.ev ∧ m.handed = s.handed ∧
    (m.spot = .phase s.phase ∨ ∃ count e, m.spot = .aborted count e ∧ s.phase = .outside (.error e))

theorem reached_calls {ev ev' : EventLoop} {spot : Spot} {calls : List EventLoop.Call}
    (hspot : spot.UserCode) (handed : List Slot) (h : ev.handle calls = some ev') :
    ∃ past, Reached ⟨ev, spot, handed⟩ past ⟨ev', spot, handed⟩ := by
  induction calls generalizing ev with
  | nil =>
    simp only [EventLoop.handle, List.foldlM_nil, Option.pure_def, Option.some.injEq] at h
    subst h
    exact ⟨[], .nil⟩
  | cons c calls ih =>
    simp only [EventLoop.handle, List.foldlM_cons, Option.bind_eq_bind, Option.bind_eq_some_iff] at h
    obtain ⟨mid, hmid, h⟩ := h
    obtain ⟨past, hpast⟩ := ih h
    exact ⟨_, (Reached.step .nil (.call c hspot hmid)).trans hpast⟩

/-- A completion is handled in three parts. The calls are those of the handler, if it is called. -/
theorem dispatch_parts {ev ev' : EventLoop} {ptr : Ptr} {res : Int} {calls : List EventLoop.Call}
    (h : ev.dispatch ptr res calls = some ev') :
    ∃ mid, (ev.before (ev.opOf ptr) ptr.slot res).handle
        (if (ev.opOf ptr).Handles res then calls else []) = some mid ∧
      mid.behind (ev.opOf ptr) ptr.slot res = some ev' := by
  unfold EventLoop.dispatch at h
  split at h
  · rename_i hop
    obtain ⟨mid, hmid, h⟩ := Option.bind_eq_some_iff.mp h
    refine ⟨mid, ?_, by rw [hop]; exact h⟩
    rw [hop, ← hmid, EventLoop.before, if_neg (by simp)]
    by_cases hres : 0 ≤ res
    · rw [if_pos hres, if_pos (show Op.Handles .openat res from hres)]
    · rw [if_neg hres, if_neg (show ¬ Op.Handles .openat res from hres)]
      rfl
  · rename_i hop
    obtain ⟨mid, hmid, h⟩ := Option.bind_eq_some_iff.mp h
    exact ⟨mid, by simpa [hop, EventLoop.before, Op.Handles] using hmid, by rw [hop]; exact h⟩
  · rename_i hop
    rw [hop]
    unfold EventLoop.onRead at h
    split at h
    · rename_i hzero
      subst hzero
      exact ⟨ev, rfl, by simpa [EventLoop.behind] using h⟩
    · split at h
      · rename_i hzero hpos
        simp only [Option.bind_eq_bind, Option.bind_eq_some_iff] at h
        obtain ⟨mid, hmid, h⟩ := h
        refine ⟨mid, ?_, by simpa [EventLoop.behind, hzero, hpos] using h⟩
        rw [EventLoop.before, if_pos ⟨rfl, hpos⟩, if_pos (show Op.Handles .read res from hpos)]
        exact hmid
      · rename_i hzero hpos
        refine ⟨ev, ?_, by simpa [EventLoop.behind, hzero, hpos] using h⟩
        rw [EventLoop.before, if_neg (by simp [hpos]), if_neg (show ¬ Op.Handles .read res from hpos)]
        rfl
  · rename_i hop
    obtain ⟨mid, hmid, h⟩ := Option.bind_eq_some_iff.mp h
    exact ⟨mid, by simpa [hop, EventLoop.before, Op.Handles] using hmid, by rw [hop]; exact h⟩

theorem Moment.Is.spot_eq {m : Moment} {s : Sys} (h : m.Is s) {p : Phase} (hp : s.phase = p)
    (hin : ∀ last, p ≠ .outside last) : m.spot = .phase p := by
  obtain ⟨-, -, hspot | ⟨count, e, -, hout⟩⟩ := h
  · rw [hspot, hp]
  · exact absurd (hp.symm.trans hout) (hin _)

theorem Moment.Is.outside {m : Moment} {s : Sys} (h : m.Is s) {last : Except String Unit}
    (hp : s.phase = .outside last) : m.spot.Outside ∧ m.spot.UserCode := by
  obtain ⟨-, -, hspot | ⟨count, e, hspot, -⟩⟩ := h
  · rw [hspot, hp]
    exact ⟨trivial, trivial⟩
  · rw [hspot]
    exact ⟨trivial, trivial⟩

/-- Every step of `Pump` is made here too, in one step or in several. -/
theorem step_in_parts {s t : Sys} {m : Moment} (hm : m.Is s) (h : Step s t) :
    ∃ past m', Reached m past m' ∧ m'.Is t := by
  obtain ⟨ev, spot, handed⟩ := m
  obtain ⟨rfl, rfl, -⟩ := id hm
  have one {act : Act} {m' : Moment} (hd : Does ⟨s.ev, spot, s.handed⟩ act m') (his : m'.Is t) :
      ∃ past m', Reached ⟨s.ev, spot, s.handed⟩ past m' ∧ m'.Is t :=
    ⟨_, m', Reached.step .nil hd, his⟩
  cases h with
  | call c hp hc => exact one (.call c (hm.outside hp).2 hc) ⟨rfl, rfl, hm.2.2⟩
  | enter hp => exact one (.enter (hm.outside hp).1) ⟨rfl, rfl, .inl rfl⟩
  | swap hp => exact one (.swap (hm.spot_eq hp nofun)) ⟨rfl, rfl, .inl rfl⟩
  | list hp => exact one (.list (hm.spot_eq hp nofun)) ⟨rfl, rfl, .inl rfl⟩
  | entry calls hp hc =>
    have hspot : spot = _ := hm.spot_eq hp nofun
    have huser : spot.UserCode := by
      rw [hspot]
      trivial
    obtain ⟨past, hpast⟩ := reached_calls huser s.handed hc
    exact ⟨past, _, hpast, rfl, rfl, hm.2.2⟩
  | listed hp hc => exact one (.listed (hm.spot_eq hp nofun) hc) ⟨rfl, rfl, .inl rfl⟩
  | listedAll hp => exact one (.listedAll (hm.spot_eq hp nofun)) ⟨rfl, rfl, .inl rfl⟩
  | pop hp hc => exact one (.pop (hm.spot_eq hp nofun) hc) ⟨rfl, rfl, hm.2.2⟩
  | popped hp hc => exact one (.popped (hm.spot_eq hp nofun) hc) ⟨rfl, rfl, .inl rfl⟩
  | drain hp => exact one (.drain (hm.spot_eq hp nofun)) ⟨rfl, rfl, .inl rfl⟩
  | drained hp => exact one (.drained (hm.spot_eq hp nofun)) ⟨rfl, rfl, .inl rfl⟩
  | exit hp hzero => exact one (.exit (hm.spot_eq hp nofun) hzero) ⟨rfl, rfl, .inl rfl⟩
  | goOn hp hne => exact one (.goOn (hm.spot_eq hp nofun) hne) ⟨rfl, rfl, .inl rfl⟩
  | submitFails errno hp =>
    exact one (.submitFails errno (hm.spot_eq hp nofun)) ⟨rfl, rfl, .inl rfl⟩
  | submit hp => exact one (.submit (hm.spot_eq hp nofun)) ⟨rfl, rfl, .inl rfl⟩
  | peek hp hne => exact one (.peek (hm.spot_eq hp nofun) hne) ⟨rfl, rfl, .inl rfl⟩
  | sleep hp hnil => exact one (.sleep (hm.spot_eq hp nofun) hnil) ⟨rfl, rfl, .inl rfl⟩
  | wake hp hne => exact one (.wake (hm.spot_eq hp nofun) hne) ⟨rfl, rfl, .inl rfl⟩
  | @reap count sqe res ev' calls hp hcq hc =>
    obtain ⟨mid, hmid, hbehind⟩ := dispatch_parts hc
    have hhandle := Reached.step .nil
      (Does.handle (s := ⟨s.ev, spot, s.handed⟩) (hm.spot_eq hp nofun) hcq)
    have hcalls : ∃ past, Reached ⟨s.ev.before (s.ev.opOf sqe.data) sqe.data.slot res,
        .handling count sqe res (s.ev.opOf sqe.data), s.handed ++ s.ev.handedBy sqe.data res⟩ past
        ⟨mid, .handling count sqe res (s.ev.opOf sqe.data), s.handed ++ s.ev.handedBy sqe.data res⟩ := by
      split at hmid
      · rename_i hhandles
        have huser : (Spot.handling count sqe res (s.ev.opOf sqe.data)).UserCode := hhandles
        exact reached_calls huser _ hmid
      · simp only [EventLoop.handle, List.foldlM_nil, Option.pure_def, Option.some.injEq] at hmid
        rw [hmid]
        exact ⟨[], .nil⟩
    obtain ⟨past, hpast⟩ := hcalls
    exact ⟨_, _, Reached.step (hhandle.trans hpast) (.handled rfl hbehind), rfl, rfl, .inl rfl⟩
  | @handlerFails count sqe res ev' calls error hp hcq hop hpos hc =>
    have hhandle := Reached.step .nil
      (Does.handle (s := ⟨s.ev, spot, s.handed⟩) (hm.spot_eq hp nofun) hcq)
    simp only [EventLoop.before, EventLoop.handedBy, hop, hpos, and_self, if_true] at hhandle
    have huser : (Spot.handling count sqe res .read).UserCode := hpos
    obtain ⟨past, hpast⟩ := reached_calls huser (s.handed ++ [sqe.data.slot]) hc
    exact ⟨_, _, Reached.step (hhandle.trans hpast) (.handlerFails error rfl hpos), rfl, rfl,
      .inr ⟨_, _, rfl, rfl⟩⟩
  | advance hp hend => exact one (.advance (hm.spot_eq hp nofun) hend) ⟨rfl, rfl, .inl rfl⟩
  | complete res hk => exact one (.complete res hk) ⟨rfl, rfl, hm.2.2⟩
  | freeRead slot hs => exact one (.freeRead slot hs) ⟨rfl, rfl, hm.2.2⟩

end Omnipp.Utils
