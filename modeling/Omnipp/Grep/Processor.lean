import Omnipp.Grep.Tree
import Omnipp.Lib.Threads

/-!
# The workers of `impl::Processor`

`Processor::worker`, the end of `Processor::run` and `~Processor`, cut at every access to
what the threads share: `queue_`, `mutex_`, `cv_`, `running_` and `pending_`. A run of the
pipeline on one file is one step here, and it does not fail.
-/

namespace Omnipp.Grep

open Threads

/-- The members of `Processor`. `log` is not one: it keeps what the workers have done. -/
structure Shared (W : Type) where
  queue : List Dir
  pending : Nat
  running : Bool
  mutex : Option W
  -- The wait set of `cv_`.
  sleepers : Finset W
  log : List Event

/-- Where a thread stands. `rest` is what `getdents64` has not returned yet of the directory that
the worker holds, `span` is `res_span` and `found` is `local_dir_queue`. -/
inductive Pc where
  -- `while (running_)`
  | test
  -- `unique_lock{mutex_}` before the wait
  | lock
  -- in `cv_.wait`, with the mutex, about to evaluate the predicate
  | pred
  -- the predicate was false: about to release the mutex and join the wait set
  | sleep
  -- in the wait set, or notified and about to take the mutex again
  | waiting
  -- `if (!running_)`, with the mutex
  | recheck
  -- `queue_.front()`, `queue_.pop_front()`, with the mutex
  | pop
  | getdents (d : Dir) (rest : List Entry)
  -- `while (!empty(res_span))`
  | scan (d : Dir) (rest span : List Entry) (found : List Dir)
  | execute (file : Path) (d : Dir) (rest span : List Entry) (found : List Dir)
  | closeFile (file : Path) (d : Dir) (rest span : List Entry) (found : List Dir)
  -- `pending_.fetch_add`
  | add (d : Dir) (rest : List Entry) (found : List Dir)
  -- `unique_lock{mutex_}` before the append
  | appendLock (d : Dir) (rest : List Entry) (found : List Dir)
  -- `queue_.append_range`, with the mutex
  | append (d : Dir) (rest : List Entry) (found : List Dir)
  -- `cv_.notify_one()`
  | notifyOne (d : Dir) (rest : List Entry)
  | close (d : Dir)
  -- `pending_.fetch_sub`
  | sub
  -- `running_ = false` after the last `fetch_sub`
  | store
  | notifyAll
  -- left the loop: `get<2>(pipeline)()`
  | flush
  -- `running_ = false` in `~Processor`
  | dtorStore
  | dtorNotify
  -- `~Processor` joins the threads
  | joining
  -- the thread function has returned
  | done

/-- The directory that an entry of `d` names, once it is open. -/
def Dir.child (d : Dir) (name : Name) (entries : List Entry) : Dir := ⟨d.path ++ [name], entries⟩

/-- The branches of the entry loop that go on with the next entry: a dot entry, an `openat` that
fails, and an entry that is neither a directory nor a regular file. -/
def Entry.skipped : Entry → Bool
  | .reg _ opens => !opens
  | .dir name opens _ => isDot name || !opens
  | .other _ => true

variable {W : Type} [DecidableEq W]

/-- One step of thread `i`. The thread `main` runs `Processor::run`. -/
inductive Work (main : W) : Act W (Shared W) Pc
  | testRunning {i sh} (h : sh.running = true) : Work main i sh .test sh .lock
  | testStopped {i sh} (h : sh.running = false) : Work main i sh .test sh .flush
  | lock {i sh} (h : sh.mutex = none) : Work main i sh .lock { sh with mutex := some i } .pred
  | predTrue {i sh} (h : sh.queue ≠ [] ∨ sh.running = false) : Work main i sh .pred sh .recheck
  | predFalse {i sh} (hq : sh.queue = []) (hr : sh.running = true) : Work main i sh .pred sh .sleep
  | sleep {i sh} :
      Work main i sh .sleep { sh with mutex := none, sleepers := insert i sh.sleepers } .waiting
  | wake {i sh} (hi : i ∉ sh.sleepers) (h : sh.mutex = none) :
      Work main i sh .waiting { sh with mutex := some i } .pred
  | stop {i sh} (h : sh.running = false) :
      Work main i sh .recheck { sh with mutex := none } .flush
  | goOn {i sh} (h : sh.running = true) : Work main i sh .recheck sh .pop
  | pop {i sh d q} (h : sh.queue = d :: q) :
      Work main i sh .pop
        { sh with queue := q, mutex := none, log := sh.log ++ [.popped d.path] }
        (.getdents d d.entries)
  -- `getdents64` returns a part of what is left, as much as fits its buffer.
  | batch {i sh d span rest} (h : span ≠ []) :
      Work main i sh (.getdents d (span ++ rest)) sh (.scan d rest span [])
  -- `getdents64` returns 0 or an error.
  | listed {i sh d} :
      Work main i sh (.getdents d []) { sh with log := sh.log ++ [.listed d.path] } (.close d)
  | skip {i sh d rest e span found} (h : e.skipped = true) :
      Work main i sh (.scan d rest (e :: span) found) sh (.scan d rest span found)
  | openDir {i sh d rest name entries span found} (h : isDot name = false) :
      Work main i sh (.scan d rest (.dir name true entries :: span) found) sh
        (.scan d rest span (found ++ [d.child name entries]))
  | openFile {i sh d rest name span found} :
      Work main i sh (.scan d rest (.reg name true :: span) found) sh
        (.execute (d.path ++ [name]) d rest span found)
  | execute {i sh file d rest span found} :
      Work main i sh (.execute file d rest span found) { sh with log := sh.log ++ [.ran file] }
        (.closeFile file d rest span found)
  | closeFile {i sh file d rest span found} :
      Work main i sh (.closeFile file d rest span found)
        { sh with log := sh.log ++ [.closedFile file] } (.scan d rest span found)
  | scanned {i sh d rest found} : Work main i sh (.scan d rest [] found) sh (.add d rest found)
  | add {i sh d rest found} :
      Work main i sh (.add d rest found) { sh with pending := sh.pending + found.length }
        (.appendLock d rest found)
  | appendLock {i sh d rest found} (h : sh.mutex = none) :
      Work main i sh (.appendLock d rest found) { sh with mutex := some i } (.append d rest found)
  | append {i sh d rest found} :
      Work main i sh (.append d rest found) { sh with queue := sh.queue ++ found, mutex := none }
        (.notifyOne d rest)
  | notifyOne {i sh j d rest} (h : j ∈ sh.sleepers) :
      Work main i sh (.notifyOne d rest) { sh with sleepers := sh.sleepers.erase j }
        (.getdents d rest)
  | notifyNone {i sh d rest} (h : sh.sleepers = ∅) :
      Work main i sh (.notifyOne d rest) sh (.getdents d rest)
  | close {i sh d} : Work main i sh (.close d) { sh with log := sh.log ++ [.closed d.path] } .sub
  | subLast {i sh} (h : sh.pending = 1) : Work main i sh .sub { sh with pending := 0 } .store
  | sub {i sh} (h : sh.pending ≠ 1) :
      Work main i sh .sub { sh with pending := sh.pending - 1 } .test
  | store {i sh} : Work main i sh .store { sh with running := false } .notifyAll
  | notifyAll {i sh} : Work main i sh .notifyAll { sh with sleepers := ∅ } .test
  | flush {i sh} (h : i ≠ main) : Work main i sh .flush sh .done
  | flushMain {sh} : Work main main sh .flush sh .dtorStore
  | dtorStore {i sh} : Work main i sh .dtorStore { sh with running := false } .dtorNotify
  | dtorNotify {i sh} : Work main i sh .dtorNotify { sh with sleepers := ∅ } .joining

/-- What may happen to a thread: a step of its own, or a wakeup that nobody sent. -/
inductive Moves (main : W) : Act W (Shared W) Pc
  | work {i sh k sh' k'} (h : Work main i sh k sh' k') : Moves main i sh k sh' k'
  | spurious {i sh} (h : i ∈ sh.sleepers) :
      Moves main i sh .waiting { sh with sleepers := sh.sleepers.erase i } .waiting

/-- `Processor::run` has opened `location` and started the threads. -/
def start (root : Dir) : Config W (Shared W) Pc where
  shared := { queue := [root], pending := 1, running := true, mutex := none, sleepers := ∅, log := [] }
  pc := fun _ => .test

/-! ## What a thread holds -/

/-- One for a directory that was popped and not yet subtracted from `pending_`. -/
def Pc.held : Pc → Nat
  | .getdents .. | .scan .. | .execute .. | .closeFile .. | .add .. | .appendLock .. | .append ..
  | .notifyOne .. | .close .. | .sub => 1
  | _ => 0

def Pc.found : Pc → List Dir
  | .scan _ _ _ found | .execute _ _ _ _ found | .closeFile _ _ _ _ found | .add _ _ found
  | .appendLock _ _ found | .append _ _ found => found
  | _ => []

/-- The directories that are in `pending_` and not yet in `queue_`. -/
def Pc.added : Pc → Nat
  | .appendLock _ _ found | .append _ _ found => found.length
  | _ => 0

/-- The places where a thread has the mutex. -/
def Pc.HasMutex : Pc → Prop
  | .pred | .sleep | .recheck | .pop | .append .. => True
  | _ => False

def Pc.Left : Pc → Prop
  | .flush | .dtorStore | .dtorNotify | .joining | .done => True
  | _ => False

/-- What a thread still has to do with the directory it holds and with those it has found. -/
def Pc.todo : Pc → Multiset Event
  | .getdents d rest | .notifyOne d rest =>
    {.listed d.path} + {.closed d.path} + todoOf d.path rest
  | .scan d rest span found =>
    {.listed d.path} + {.closed d.path} + todoOf d.path span + todoOf d.path rest +
      (found.map Dir.todo).sum
  | .execute file d rest span found =>
    {.ran file} + {.closedFile file} + ({.listed d.path} + {.closed d.path} + todoOf d.path span +
      todoOf d.path rest + (found.map Dir.todo).sum)
  | .closeFile file d rest span found =>
    {.closedFile file} + ({.listed d.path} + {.closed d.path} + todoOf d.path span +
      todoOf d.path rest + (found.map Dir.todo).sum)
  | .add d rest found | .appendLock d rest found | .append d rest found =>
    {.listed d.path} + {.closed d.path} + todoOf d.path rest + (found.map Dir.todo).sum
  | .close d => {.closed d.path}
  | _ => 0

end Omnipp.Grep
