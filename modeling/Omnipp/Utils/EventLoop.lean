import Omnipp.Utils.RequestPool

/-! # `EventLoop`

The state of the loop, the calls that queue requests, and the parts of `pump`.
-/

open Function

namespace Omnipp.Utils

structure OpenAtRequest where
  parentFd : Int
  path : String
  flags : Nat

structure CloseRequest where
  fd : Int

structure ReadRequest where
  fd : Int
  offset : UInt64
  res : Int

structure WriteRequest where
  fd : Int
  offset : UInt64
  buffer : Bytes

instance : IsRequest OpenAtRequest where
  default := ⟨-1, "", 0⟩
  prep req := .openat req.parentFd req.path req.flags

instance : IsRequest CloseRequest where
  default := ⟨-1⟩
  prep req := .close req.fd

instance : IsRequest ReadRequest where
  default := ⟨-1, 0, 0⟩
  prep req := .read req.fd (64 * 1024) req.offset

/-- The count is the size of the whole buffer, whatever the offset. -/
instance : IsRequest WriteRequest where
  default := ⟨-1, 0, []⟩
  prep req := .write req.fd req.buffer req.offset req.buffer.length

def atFdcwd : Int := -100

def safeMin : Int := 524288

structure EventLoop where
  ring : Ring
  openats : RequestPool OpenAtRequest
  closes : RequestPool CloseRequest
  reads : RequestPool ReadRequest
  writes : RequestPool WriteRequest
  getdentsQueue : List Int
  dirRefCount : Int → Option Nat
  readFreeQueue : List Slot

namespace EventLoop

/-! ## The calls

A call that breaks a contract gives `none`.
-/

def queueGetdents (ev : EventLoop) (fd : Int) : EventLoop :=
  { ev with getdentsQueue := ev.getdentsQueue ++ [fd] }

def queueClose (ev : EventLoop) (fd : Int) : EventLoop :=
  let r := ev.closes.next ev.ring fun _ => ⟨fd⟩
  { ev with closes := r.1, ring := r.2 }

def queueRead (ev : EventLoop) (fd : Int) (offset : UInt64) : EventLoop :=
  let r := ev.reads.next ev.ring fun req => { req with fd, offset }
  { ev with reads := r.1, ring := r.2 }

def queueWrite (ev : EventLoop) (fd : Int) (buffer : Bytes) (offset : UInt64) : EventLoop :=
  let r := ev.writes.next ev.ring fun _ => ⟨fd, offset, buffer⟩
  { ev with writes := r.1, ring := r.2 }

def increaseDirRef (ev : EventLoop) (fd : Int) : Option EventLoop :=
  (ev.dirRefCount fd).map fun n =>
    { ev with dirRefCount := update ev.dirRefCount fd (some (n + 1)) }

def decreaseDirRef (ev : EventLoop) (fd : Int) : Option EventLoop :=
  match ev.dirRefCount fd with
  | none => none
  | some 0 => none
  | some 1 => some { ev.queueClose fd with dirRefCount := update ev.dirRefCount fd none }
  | some (n + 2) => some { ev with dirRefCount := update ev.dirRefCount fd (some (n + 1)) }

def queueOpenat (ev : EventLoop) (parentFd : Int) (path : String) (flags : Nat) : Option EventLoop :=
  let queue (ev : EventLoop) : EventLoop :=
    let r := ev.openats.next ev.ring fun _ => ⟨parentFd, path, flags⟩
    { ev with openats := r.1, ring := r.2 }
  if parentFd = atFdcwd then some (queue ev)
  else if 0 ≤ parentFd ∧ parentFd < safeMin then (ev.increaseDirRef parentFd).map queue
  else none

inductive Call where
  | openat (parentFd : Int) (path : String) (flags : Nat)
  | getdents (fd : Int)
  | close (fd : Int)
  | read (fd : Int) (offset : UInt64)
  | write (fd : Int) (buffer : Bytes) (offset : UInt64)

def call (ev : EventLoop) : Call → Option EventLoop
  | .openat parentFd path flags => ev.queueOpenat parentFd path flags
  | .getdents fd => some (ev.queueGetdents fd)
  | .close fd => some (ev.queueClose fd)
  | .read fd offset => some (ev.queueRead fd offset)
  | .write fd buffer offset => some (ev.queueWrite fd buffer offset)

/-- What a handler does: calls, one after the other. -/
def handle (ev : EventLoop) (calls : List Call) : Option EventLoop := calls.foldlM call ev

/-! ## The parts of `pump` -/

/-- The condition of the overflow loop. The pools after the first that popped are not asked, and
the pool of the writes is never asked. -/
def popOverflow (ev : EventLoop) : Bool × EventLoop :=
  match ev.openats.tryPopOverflow ev.ring with
  | (true, openats, ring) => (true, { ev with openats, ring })
  | (false, _) =>
    match ev.closes.tryPopOverflow ev.ring with
    | (true, closes, ring) => (true, { ev with closes, ring })
    | (false, _) =>
      match ev.reads.tryPopOverflow ev.ring with
      | (true, reads, ring) => (true, { ev with reads, ring })
      | (false, _) => (false, ev)

/-- `read_request_pool_.free(req); ++in_flight_;` -/
def drainRead (ev : EventLoop) (slot : Slot) : EventLoop :=
  let r := ev.reads.free ev.ring slot
  { ev with reads := r.1, ring := { r.2 with inFlight := r.2.inFlight + 1 } }

def opOf (ev : EventLoop) (ptr : Ptr) : Op :=
  match ptr.home with
  | .openat => (ev.openats.objects ptr.slot).op
  | .close => (ev.closes.objects ptr.slot).op
  | .read => (ev.reads.objects ptr.slot).op
  | .write => (ev.writes.objects ptr.slot).op

def freeOpenat (ev : EventLoop) (slot : Slot) : EventLoop :=
  let r := ev.openats.free ev.ring slot
  { ev with openats := r.1, ring := r.2 }

def freeClose (ev : EventLoop) (slot : Slot) : EventLoop :=
  let r := ev.closes.free ev.ring slot
  { ev with closes := r.1, ring := r.2 }

def freeRead (ev : EventLoop) (slot : Slot) : EventLoop :=
  let r := ev.reads.free ev.ring slot
  { ev with reads := r.1, ring := r.2 }

def freeWrite (ev : EventLoop) (slot : Slot) : EventLoop :=
  let r := ev.writes.free ev.ring slot
  { ev with writes := r.1, ring := r.2 }

/-- The `OPENAT` case. `calls` are those of `openat_handler_`. -/
def onOpenat (ev : EventLoop) (slot : Slot) (res : Int) (calls : List Call) : Option EventLoop := do
  let ev ← (if 0 ≤ res then ev.handle calls else some ev)
  let parentFd := (ev.openats.objects slot).fields.parentFd
  let ev ← (if parentFd = atFdcwd then some ev else ev.decreaseDirRef parentFd)
  return ev.freeOpenat slot

def onClose (ev : EventLoop) (slot : Slot) (calls : List Call) : Option EventLoop := do
  let ev ← ev.handle calls
  return ev.freeClose slot

/-- The first half of the `READ` case with `res > 0`: up to the call of `read_handler_`. -/
def handRead (ev : EventLoop) (slot : Slot) (res : Int) : EventLoop :=
  let req := ev.reads.objects slot
  { ev with
    reads := { ev.reads with objects := update ev.reads.objects slot
                               { req with fields := { req.fields with res } } }
    ring := { ev.ring with inFlight := ev.ring.inFlight - 1 } }

/-- The `READ` case, when `read_handler_` does not fail. -/
def onRead (ev : EventLoop) (slot : Slot) (res : Int) (calls : List Call) : Option EventLoop :=
  if res = 0 then some ((ev.queueClose (ev.reads.objects slot).fields.fd).freeRead slot)
  else if 0 < res then do
    let ev ← (ev.handRead slot res).handle calls
    let req := (ev.reads.objects slot).fields
    return ev.queueRead req.fd (req.offset + UInt64.ofInt res)
  else some ev

/-- The `WRITE` case. The sum of `offset` and `res` is a `std::size_t`. -/
def onWrite (ev : EventLoop) (slot : Slot) (res : Int) (calls : List Call) : Option EventLoop := do
  let ev ← ev.handle calls
  let req := (ev.writes.objects slot).fields
  let offset := req.offset + UInt64.ofInt res
  let ev := if offset.toNat ≠ req.buffer.length then ev.queueWrite req.fd req.buffer offset else ev
  return ev.freeWrite slot

/-- The `switch` over `base_req->op`. -/
def dispatch (ev : EventLoop) (ptr : Ptr) (res : Int) (calls : List Call) : Option EventLoop :=
  match ev.opOf ptr with
  | .openat => ev.onOpenat ptr.slot res calls
  | .close => ev.onClose ptr.slot calls
  | .read => ev.onRead ptr.slot res calls
  | .write => ev.onWrite ptr.slot res calls

end EventLoop

end Omnipp.Utils
