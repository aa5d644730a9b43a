import Mathlib.Logic.Relation
import Omnipp.Utils.EventLoop

/-! # `EventLoop::pump` as a machine

A step is one action of the thread in `pump`, a completion by the kernel, or a call of
`free_read_request` by another thread.
-/

open Function Relation

namespace Omnipp.Utils

/-- Where the thread that owns the loop stands. -/
inductive Phase where
  -- Not in `pump`, which returned `last` when it was called last.
  | outside (last : Except String Unit)
  -- Between two iterations.
  | top
  -- In the loop over `current_getdents_queue`.
  | listing (todo : List Int)
  | inListing (fd : Int) (todo : List Int)
  | overflow
  -- In the loop over the local `read_free_queue`.
  | drain (todo : List Slot)
  | check
  | submit
  | peek
  -- In `io_uring_wait_cqe`.
  | wait
  -- In `io_uring_for_each_cqe`, with `count` completions behind it.
  | reap (count : Nat)

/-- The loop, and the read requests that `read_handler_` got and nobody freed yet. -/
structure Sys where
  ev : EventLoop
  phase : Phase
  handed : List Slot

def Ring.submitted (r : Ring) : Ring := { r with sq := [], kernel := r.kernel ++ r.sq }

/-- The requests that `read_handler_` gets when the completion is handled. -/
def EventLoop.handedBy (ev : EventLoop) (ptr : Ptr) (res : Int) : List Slot :=
  if ev.opOf ptr = .read ∧ 0 < res then [ptr.slot] else []

inductive Step : Sys → Sys → Prop
  -- A call from outside.
  | call {s : Sys} {last : Except String Unit} {ev : EventLoop} (c : EventLoop.Call)
      (hp : s.phase = .outside last) (hc : s.ev.call c = some ev) : Step s { s with ev }
  | enter {s : Sys} {last : Except String Unit} (hp : s.phase = .outside last) :
      Step s { s with phase := .top }
  | swap {s : Sys} (hp : s.phase = .top) :
      Step s { s with ev := { s.ev with getdentsQueue := [] }, phase := .listing s.ev.getdentsQueue }
  | list {s : Sys} {fd : Int} {todo : List Int} (hp : s.phase = .listing (fd :: todo)) :
      Step s { s with ev := { s.ev with dirRefCount := update s.ev.dirRefCount fd (some 1) }
                      phase := .inListing fd todo }
  -- An entry of the directory, for which `getdents_handler_` makes the calls.
  | entry {s : Sys} {fd : Int} {todo : List Int} {ev : EventLoop} (calls : List EventLoop.Call)
      (hp : s.phase = .inListing fd todo) (hc : s.ev.handle calls = some ev) : Step s { s with ev }
  | listed {s : Sys} {fd : Int} {todo : List Int} {ev : EventLoop} (hp : s.phase = .inListing fd todo)
      (hc : s.ev.decreaseDirRef fd = some ev) : Step s { s with ev, phase := .listing todo }
  | listedAll {s : Sys} (hp : s.phase = .listing []) : Step s { s with phase := .overflow }
  | pop {s : Sys} {ev : EventLoop} (hp : s.phase = .overflow) (hc : s.ev.popOverflow = (true, ev)) :
      Step s { s with ev }
  | popped {s : Sys} {ev : EventLoop} (hp : s.phase = .overflow) (hc : s.ev.popOverflow = (false, ev)) :
      Step s { s with ev := { ev with readFreeQueue := [] }, phase := .drain ev.readFreeQueue }
  | drain {s : Sys} {slot : Slot} {todo : List Slot} (hp : s.phase = .drain (slot :: todo)) :
      Step s { s with ev := s.ev.drainRead slot, phase := .drain todo }
  | drained {s : Sys} (hp : s.phase = .drain []) : Step s { s with phase := .check }
  | exit {s : Sys} (hp : s.phase = .check) (hzero : s.ev.ring.inFlight = 0) :
      Step s { s with phase := .outside (.ok ()) }
  | goOn {s : Sys} (hp : s.phase = .check) (hne : s.ev.ring.inFlight ≠ 0) :
      Step s { s with phase := .submit }
  | submitFails {s : Sys} (errno : Nat) (hp : s.phase = .submit) :
      Step s { s with phase := .outside (.error s!"failed to submit pending requests: {errno}") }
  | submit {s : Sys} (hp : s.phase = .submit) :
      Step s { s with ev := { s.ev with ring := s.ev.ring.submitted }, phase := .peek }
  | peek {s : Sys} (hp : s.phase = .peek) (hne : s.ev.ring.cq ≠ []) : Step s { s with phase := .reap 0 }
  | sleep {s : Sys} (hp : s.phase = .peek) (hnil : s.ev.ring.cq = []) : Step s { s with phase := .wait }
  | wake {s : Sys} (hp : s.phase = .wait) (hne : s.ev.ring.cq ≠ []) : Step s { s with phase := .reap 0 }
  -- A completion. `calls` are those of its handler, which does not fail.
  | reap {s : Sys} {count : Nat} {sqe : Sqe} {res : Int} {ev : EventLoop} (calls : List EventLoop.Call)
      (hp : s.phase = .reap count) (hcq : s.ev.ring.cq[count]? = some (sqe, res))
      (hc : s.ev.dispatch sqe.data res calls = some ev) :
      Step s { s with ev, phase := .reap (count + 1), handed := s.handed ++ s.ev.handedBy sqe.data res }
  -- `read_handler_` makes the calls and fails.
  | handlerFails {s : Sys} {count : Nat} {sqe : Sqe} {res : Int} {ev : EventLoop}
      (calls : List EventLoop.Call) (error : String) (hp : s.phase = .reap count)
      (hcq : s.ev.ring.cq[count]? = some (sqe, res)) (hop : s.ev.opOf sqe.data = .read) (hpos : 0 < res)
      (hc : (s.ev.handRead sqe.data.slot res).handle calls = some ev) :
      Step s ⟨ev, .outside (.error error), s.handed ++ [sqe.data.slot]⟩
  | advance {s : Sys} {count : Nat} (hp : s.phase = .reap count) (hend : s.ev.ring.cq[count]? = none) :
      Step s { s with ev := { s.ev with ring := { s.ev.ring with cq := s.ev.ring.cq.drop count } }
                      phase := .top }
  -- The kernel completes a request that it holds, with any result.
  | complete {s : Sys} {before behind : List Sqe} {sqe : Sqe} (res : Int)
      (hk : s.ev.ring.kernel = before ++ sqe :: behind) :
      Step s { s with ev := { s.ev with ring := { s.ev.ring with
        kernel := before ++ behind, cq := s.ev.ring.cq ++ [(sqe, res)] } } }
  -- `free_read_request`
  | freeRead {s : Sys} (slot : Slot) (hs : slot ∈ s.handed) :
      Step s { s with ev := { s.ev with readFreeQueue := s.ev.readFreeQueue ++ [slot] }
                      handed := s.handed.erase slot }

/-- A new loop, with queues of `entries` and pools of `size` requests. -/
def start (entries size : Nat) : Sys where
  ev :=
    { ring := ⟨entries, [], [], [], 0⟩
      openats := .make .openat size
      closes := .make .close size
      reads := .make .read size
      writes := .make .write size
      getdentsQueue := []
      dirRefCount := fun _ => none
      readFreeQueue := [] }
  phase := .outside (.ok ())
  handed := []

/-- The runs whose every step is allowed. -/
def Runs (allowed : Sys → Sys → Prop) : Sys → Sys → Prop :=
  ReflTransGen fun s t => Step s t ∧ allowed s t

def HandlerFails (s t : Sys) : Prop :=
  ∃ count e, s.phase = .reap count ∧ t.phase = .outside (.error e)

abbrev Reaches : Sys → Sys → Prop := Runs fun s t => ¬ HandlerFails s t

theorem Reaches.step {a s t : Sys} (h : Reaches a s) (hs : Step s t)
    (ht : ∀ e, t.phase ≠ .outside (.error e)) : Reaches a t :=
  ReflTransGen.tail h ⟨hs, fun ⟨_, e, _, he⟩ => ht e he⟩

/-- The completions that are handled already and not passed by `io_uring_cq_advance` yet. -/
def Phase.handled : Phase → Nat
  | .reap count => count
  | _ => 0

/-- The requests that hold a submission entry and whose completion has not been handled. -/
def Sys.outstanding (s : Sys) : Nat :=
  s.ev.ring.sq.length + s.ev.ring.kernel.length + (s.ev.ring.cq.length - s.phase.handled)

end Omnipp.Utils
