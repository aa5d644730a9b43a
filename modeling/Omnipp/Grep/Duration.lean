import Omnipp.Grep.EndToEnd
import Omnipp.Grep.Progress

/-!
# How long grep may run

The workers with their pipelines. A call of the pipeline is paid for by the file it runs on, a `write` by
the bytes that were pushed, the last flush by its worker. Reads and writes may fail.
-/

open Omnipp.Sink Omnipp.Threads Omnipp.Transform

namespace Omnipp.Grep

/-! ## Prices -/

/-- What the pipeline may do with these pushes: `Batch` takes each of them, and may call the sink. -/
def pushFuel (pushes : List Bytes) : Nat := 4 * pushes.length + pushes.flatten.length

def FileRun.price (hsScan : Bytes → Option (List Nat)) (file : FileRun) : Nat :=
  pushFuel (file.pushes hsScan).1 + 2

theorem pushFuel_cons (data : Bytes) (todo : List Bytes) :
    pushFuel (data :: todo) = 4 + data.length + pushFuel todo := by
  simp only [pushFuel, List.length_cons, List.flatten_cons, List.length_append, Nat.mul_add]
  omega

section Price
variable (hsScan : Bytes → Option (List Nat)) (files : Path → FileRun)

def Event.price (e : Event) : Nat :=
  match e with
  | .ran p => (files p).price hsScan
  | _ => 0

def priceOf (events : Multiset Event) : Nat := (events.map (Event.price hsScan files)).sum

@[simp] theorem priceOf_zero : priceOf hsScan files 0 = 0 := rfl

@[simp] theorem priceOf_add (xs ys : Multiset Event) :
    priceOf hsScan files (xs + ys) = priceOf hsScan files xs + priceOf hsScan files ys := by
  simp [priceOf]

@[simp] theorem priceOf_singleton (e : Event) : priceOf hsScan files {e} = e.price hsScan files := by
  simp [priceOf]

/-- The price of a log is the price of its files. -/
theorem priceOf_log (log : List Event) :
    priceOf hsScan files log = ((ranFiles log).map fun p => (files p).price hsScan).sum := by
  induction log with
  | nil => rfl
  | cons e log ih =>
    rw [← Multiset.cons_coe, ← Multiset.singleton_add, priceOf_add, priceOf_singleton, ih]
    cases e <;> simp [ranFiles, List.filterMap_cons, Event.ranFile, Event.price]

end Price

/-! ## The pipeline of a worker -/

def sinkFuel : Sink.Pc → Nat
  | .idle todo => 2 * todo.length + todo.flatten.length
  | .writing data amount todo => data.length - amount + 1 + (2 * todo.length + todo.flatten.length)
  | .failed _ _ => 0

theorem sinkMoves_pays {W : Type} {i : W} {s s' : Sink.Shared W} {k k' : Sink.Pc}
    (h : Sink.Moves i s k s' k') : sinkFuel k' + 1 ≤ sinkFuel k := by
  cases h with
  | lock _ =>
    simp only [sinkFuel, List.length_cons, List.flatten_cons, List.length_append]
    omega
  | pass hb =>
    obtain ⟨n, hpos, hle, hamount, -⟩ := pass_again hb
    simp only [sinkFuel, hamount]
    omega
  | done _ =>
    simp only [sinkFuel]
    omega
  | fail _ =>
    simp only [sinkFuel]
    omega

/-- What is to come behind the file that the pipeline runs on. -/
def Pc.behind : Pc → Multiset Event
  | .execute file d rest span found => (Pc.closeFile file d rest span found).todo
  | k => k.todo

/-- What a worker will still do, but for the file that its pipeline runs on. -/
def Local.ahead (l : Local) : Multiset Event :=
  match l.job with
  | .idle => l.control.todo
  | _ => l.control.behind

/-- The three steps of the last flush and its bytes. -/
def Pc.flushFuel (fill : Nat) : Pc → Nat
  | .dtorStore | .dtorNotify | .joining | .done => 0
  | _ => fill + 3

/-- What the pipeline of the worker may do from here, without the files to come. -/
def Local.fuel (l : Local) : Nat :=
  sinkFuel l.sink +
    match l.job with
    | .idle => l.control.flushFuel l.buffer.length
    | .pushing todo _ => pushFuel todo + l.buffer.length + 4
    | .delivering todo _ => pushFuel todo + 5
    | .flushing | .thrown => 0

theorem flushFuel_le (fill : Nat) (k : Pc) : k.flushFuel fill ≤ fill + 3 := by
  unfold Pc.flushFuel
  split <;> omega

theorem flushFuel_of_flushed {k : Pc} (h : k.Flushed) (fill : Nat) : k.flushFuel fill = 0 := by
  cases k with
  | dtorStore | dtorNotify | joining | done => rfl
  | _ => exact absurd h id

section Step
variable {W : Type} [DecidableEq W] {hsScan : Bytes → Option (List Nat)} {files : Path → FileRun}
  {main i : W} {sh sh' : Joint W} {l l' : Local}

theorem moves_flushFuel {p p' : Shared W} {k k' : Pc} (h : Moves main i p k p' k') (hk : ¬ k.Pipeline)
    (fill : Nat) : k'.flushFuel fill = k.flushFuel fill := by
  cases h with
  | spurious _ => rfl
  | work h =>
    cases h with
    | execute => exact absurd trivial hk
    | flush _ | flushMain => exact absurd trivial hk
    | _ => rfl

variable (hsScan files) in
/-- The price of the files in the queue and of those in the hands of a worker. -/
def due (p : Shared W) (ahead : Multiset Event) : Nat :=
  priceOf hsScan files (p.queue.map Dir.todo).sum + priceOf hsScan files ahead

theorem moves_due {p p' : Shared W} {k k' : Pc} (h : Moves main i p k p' k') (hk : ¬ k.Pipeline) :
    due hsScan files p' k'.todo = due hsScan files p k.todo := by
  have hbooks := congrArg (priceOf hsScan files) (moves_todo h)
  simp only [books, priceOf_add, priceOf_log, moves_ran h hk] at hbooks
  unfold due
  omega

/-- At the end of a pipeline its file is not to do any more. -/
theorem moves_behind {p p' : Shared W} {k k' : Pc} (h : Moves main i p k p' k') (hk : k.Pipeline) :
    due hsScan files p' k'.todo = due hsScan files p k.behind := by
  cases h with
  | spurious _ => exact absurd hk id
  | work h =>
    cases h with
    | execute | flush _ | flushMain => rfl
    | _ => exact absurd hk id

/-- A step is one of `worker`, or one of the pipeline, and the pipeline pays for it. -/
theorem joins_pays (h : Joins hsScan files main i sh l sh' l') :
    (Moves main i sh.processor l.control sh'.processor l'.control ∧
      due hsScan files sh'.processor l'.ahead + l'.fuel ≤ due hsScan files sh.processor l.ahead + l.fuel) ∨
    (sh'.processor = sh.processor ∧ l'.control = l.control ∧
      due hsScan files sh.processor l'.ahead + l'.fuel + 1 ≤
        due hsScan files sh.processor l.ahead + l.fuel) := by
  cases h with
  | control hjob hk h =>
    refine .inl ⟨h, ?_⟩
    simp only [Local.ahead, Local.fuel, hjob, moves_due h hk, moves_flushFuel h hk]
    omega
  | execute hjob hk =>
    refine .inr ⟨rfl, rfl, ?_⟩
    simp only [Local.ahead, Local.fuel, hjob, hk, due, Pc.behind, Pc.todo, Pc.flushFuel, priceOf_add,
      priceOf_singleton, Event.price, FileRun.price]
    omega
  | room hjob _ =>
    refine .inr ⟨rfl, rfl, ?_⟩
    simp only [Local.ahead, Local.fuel, hjob, pushFuel_cons, List.length_append]
    omega
  | full hjob _ =>
    refine .inr ⟨rfl, rfl, ?_⟩
    simp only [Local.ahead, Local.fuel, hjob, pushFuel_cons, sinkFuel, List.length_cons,
      List.length_nil, List.flatten_cons, List.flatten_nil, List.append_nil, List.length_append]
    omega
  | sink h =>
    refine .inr ⟨rfl, rfl, ?_⟩
    have hpays := sinkMoves_pays h
    simp only [Local.ahead, Local.fuel]
    omega
  | delivered hjob _ =>
    refine .inr ⟨rfl, rfl, ?_⟩
    simp only [Local.ahead, Local.fuel, hjob, List.length_nil]
    omega
  | rejected hjob _ | failed hjob =>
    refine .inr ⟨rfl, rfl, ?_⟩
    simp only [Local.ahead, Local.fuel, hjob]
    omega
  | @executed _ _ _ _ _ _ _ _ _ k hjob hk h =>
    refine .inl ⟨h, ?_⟩
    have hflush := flushFuel_le l.buffer.length k
    rw [hk] at h
    simp only [Local.ahead, Local.fuel, hjob, hk, moves_behind h trivial]
    omega
  | flush hjob hk =>
    refine .inr ⟨rfl, rfl, ?_⟩
    simp only [Local.ahead, Local.fuel, hjob, hk, Pc.behind, Pc.flushFuel, sinkFuel, List.length_cons,
      List.length_nil, List.flatten_cons, List.flatten_nil, List.append_nil]
    omega
  | flushed hjob hk _ h =>
    refine .inl ⟨h, ?_⟩
    rw [hk] at h
    simp only [Local.ahead, Local.fuel, hjob, hk, moves_behind h trivial, flushFuel_of_flushed (moves_flush h)]
    omega

end Step

/-! ## Every run -/

/-- A step of grep that the system does not make by itself. -/
def Advances {W : Type} [DecidableEq W] (hsScan : Bytes → Option (List Nat)) (files : Path → FileRun)
    (main : W) : Act W (Joint W) Local := fun i sh l sh' l' =>
  Joins hsScan files main i sh l sh' l' ∧ ¬ Idles l l'

/-- A wakeup that nobody sent. -/
def Dozes {W : Type} [DecidableEq W] (hsScan : Bytes → Option (List Nat)) (files : Path → FileRun)
    (main : W) : Act W (Joint W) Local := fun i sh l sh' l' =>
  Joins hsScan files main i sh l sh' l' ∧ Idles l l'

section Run
variable {W : Type} [DecidableEq W] [Fintype W] {hsScan : Bytes → Option (List Nat)}
  {files : Path → FileRun} {main : W} {root : Dir} {writes : Schedule}

variable (hsScan files) in
/-- The files to come and the pipelines. -/
def pipelineFuel (c : Config W (Joint W) Local) : Nat :=
  priceOf hsScan files (c.shared.processor.queue.map Dir.todo).sum +
    ∑ i, (priceOf hsScan files (c.pc i).ahead + (c.pc i).fuel)

variable (hsScan files) in
def grepFuel (c : Config W (Joint W) Local) : Nat :=
  runFuel (c.map Joint.processor Local.control) + pipelineFuel hsScan files c

variable (hsScan files) in
theorem pipelineFuel_move (c : Config W (Joint W) Local) (i : W) (sh : Joint W) (l : Local) :
    pipelineFuel hsScan files (c.move i sh l) +
        (due hsScan files c.shared.processor (c.pc i).ahead + (c.pc i).fuel) =
      pipelineFuel hsScan files c + (due hsScan files sh.processor l.ahead + l.fuel) := by
  have hsum := sum_move (fun l : Local => priceOf hsScan files l.ahead + l.fuel) c i sh l
  simp only [pipelineFuel, due, move_shared]
  omega

omit [DecidableEq W] in
theorem grepFuel_launched (root : Dir) (writes : Schedule) :
    grepFuel hsScan files (launched root writes : Config W (Joint W) Local) =
      runFuel (start root : Config W (Shared W) Pc) +
        ((visitedFiles root.visits).map fun p => (files p).price hsScan).sum + Fintype.card W * 3 := by
  have htree : priceOf hsScan files root.todo =
      ((visitedFiles root.visits).map fun p => (files p).price hsScan).sum := by
    rw [Dir.todo, eventsOf, priceOf_log, ranFiles_events]
  have hworker : ∀ i : W, priceOf hsScan files ((launched root writes).pc i).ahead +
      ((launched root writes : Config W (Joint W) Local).pc i).fuel = 3 := fun _ => rfl
  have hqueue : ((launched root writes : Config W (Joint W) Local).shared.processor.queue.map
      Dir.todo).sum = root.todo := by
    simp [launched, start]
  have hpart : (launched root writes : Config W (Joint W) Local).map Joint.processor Local.control =
      start root := rfl
  rw [grepFuel, pipelineFuel, hpart, hqueue, htree, Finset.sum_const_nat fun i _ => hworker i,
    Finset.card_univ]
  omega

omit [Fintype W] in
theorem Spurious.waiting {i : W} {sh sh' : Shared W} {k k' : Pc} (h : Spurious i sh k sh' k') :
    k = .waiting ∧ k' = .waiting := by
  cases h with
  | intro _ => exact ⟨rfl, rfl⟩

/-- Every step but a wakeup that nobody sent is paid for. -/
theorem grepFuel_step {c : Config W (Joint W) Local} {i : W} {sh : Joint W} {l : Local}
    (ha : Awake (c.map Joint.processor Local.control))
    (h : Joins hsScan files main i c.shared (c.pc i) sh l) :
    (¬ Idles (c.pc i) l → grepFuel hsScan files (c.move i sh l) + 1 +
        3 * c.shared.processor.sleepers.card ≤
      grepFuel hsScan files c + 3 * sh.processor.sleepers.card) ∧
    grepFuel hsScan files (c.move i sh l) + 3 * c.shared.processor.sleepers.card ≤
      grepFuel hsScan files c + 3 * sh.processor.sleepers.card + 3 := by
  have hpipe := pipelineFuel_move hsScan files c i sh l
  have hrun := runFuel_move (c.map Joint.processor Local.control) i sh.processor l.control
  unfold grepFuel
  rw [map_move]
  simp only [Config.map] at hrun ⊢
  rcases joins_pays h with ⟨hm, hpays⟩ | ⟨hsame, hcontrol, hpays⟩
  · rcases moves_work_or_spurious hm with hw | hs
    · have hpaid := work_pays hw rfl (ha.sleeper i)
      omega
    · have hpaid := spurious_pays (w := Fintype.card W) hs
      exact ⟨fun hidle => absurd hs.waiting hidle, by omega⟩
  · rw [hsame, hcontrol] at hrun
    rw [hsame] at hpipe
    rw [hsame, hcontrol]
    omega

theorem grep_spent {n s : Nat} {c : Config W (Joint W) Local}
    (h : Counted (Advances hsScan files main) (Dozes hsScan files main) (launched root writes) n s c) :
    n + grepFuel hsScan files c ≤
      grepFuel hsScan files (launched root writes : Config W (Joint W) Local) + 3 * s +
        3 * c.shared.processor.sleepers.card := by
  have hspent := Counted.spent (fun c => Reaches (Joins hsScan files main) (launched root writes) c)
    (grepFuel hsScan files) (fun c => 3 * c.shared.processor.sleepers.card) 3 ?_ ?_ h .refl
  · simpa [launched, start] using hspent.2
  · rintro c i sh l hc ⟨hj, hidle⟩
    exact ⟨hc.step i hj, (grepFuel_step (awake_run (traversal_of_joint hc)) hj).1 hidle⟩
  · rintro c i sh l hc ⟨hj, -⟩
    exact ⟨hc.step i hj, (grepFuel_step (awake_run (traversal_of_joint hc)) hj).2⟩

/-- However the workers are scheduled and whatever their reads and writes answer, grep makes no more
than this many steps. -/
theorem grep_comes_to_an_end (c : Config W (Joint W) Local)
    (h : Reaches (Joins hsScan files main) (launched root writes) c) :
    (∃ n s, Counted (Advances hsScan files main) (Dozes hsScan files main) (launched root writes) n s c) ∧
      ∀ n s, Counted (Advances hsScan files main) (Dozes hsScan files main) (launched root writes) n s c →
        n ≤ (3 * Fintype.card W + 10) * root.directories + 12 * root.listed +
          ((visitedFiles root.visits).map fun p => (files p).price hsScan).sum +
          Fintype.card W * (3 * Fintype.card W + 14) + 3 * s := by
  refine ⟨h.counted fun i sh l sh' l' hj => ?_, ?_⟩
  · by_cases hidle : Idles l l'
    · exact .inr ⟨hj, hidle⟩
    · exact .inl ⟨hj, hidle⟩
  · intro n s hcount
    have hspent := grep_spent hcount
    have hcard : c.shared.processor.sleepers.card ≤ Fintype.card W := Finset.card_le_univ _
    rw [grepFuel_launched, runFuel_start, fuel_eq] at hspent
    rw [Nat.mul_add (Fintype.card W)] at hspent ⊢
    omega

end Run

theorem grep_comes_to_an_end_of_one_file : ∃ c : Config Unit (Joint Unit) Local,
    Reaches (Joins scanA textA ()) (launched oneFile fun _ => .ok 2) c ∧
      ∀ n s, Counted (Advances scanA textA ()) (Dozes scanA textA ()) (launched oneFile fun _ => .ok 2) n s c →
        n ≤ 54 + 3 * s := by
  have h := run_to_flush fun _ => .ok 2
  exact ⟨_, h, (grep_comes_to_an_end _ h).2⟩

/-! ## The end is always within reach -/

section Finish
variable {W : Type} [DecidableEq W] [Fintype W] {hsScan : Bytes → Option (List Nat)}
  {files : Path → FileRun} {main : W} {root : Dir} {writes : Schedule} {c : Config W (Joint W) Local}

variable (hsScan files) in
/-- What may be done before everybody rests, with the debt of the sleepers. -/
def grepRank (c : Config W (Joint W) Local) : Nat :=
  grepFuel hsScan files c + 3 * (Fintype.card W - c.shared.processor.sleepers.card)

theorem grepRank_falls {i : W} {sh : Joint W} {l : Local}
    (h : Reaches (Joins hsScan files main) (launched root writes) c)
    (hj : Joins hsScan files main i c.shared (c.pc i) sh l) (hidle : ¬ Idles (c.pc i) l) :
    grepRank hsScan files (c.move i sh l) < grepRank hsScan files c := by
  have hpaid := (grepFuel_step (awake_run (traversal_of_joint h)) hj).1 hidle
  have hcard : c.shared.processor.sleepers.card ≤ Fintype.card W := Finset.card_le_univ _
  have hcard' : sh.processor.sleepers.card ≤ Fintype.card W := Finset.card_le_univ _
  simp only [grepRank, move_shared]
  omega

/-- The run can go on until nobody can move. -/
theorem runs_until_still (h : Runs (Joins hsScan files main) JointReady (launched root writes) c) :
    ∃ d, Runs (Joins hsScan files main) JointReady c d ∧
      Runs (Joins hsScan files main) JointReady (launched root writes) d ∧
      ∀ i, JointReady i d → ∀ sh l, Joins hsScan files main i d.shared (d.pc i) sh l → Idles (d.pc i) l := by
  obtain ⟨d, hrun, hd, hrest⟩ := Runs.comes_to_rest
    (fun c => Runs (Joins hsScan files main) JointReady (launched root writes) c)
    (fun l l' => ¬ Idles l l') (grepRank hsScan files)
    (fun c i sh l hc hg hj hidle => ⟨hc.step i hg hj, grepRank_falls hc.reaches hj hidle⟩) h
  exact ⟨d, hrun, hd, fun i hg sh l hj => not_not.mp (hrest i hg sh l hj)⟩

/-- While nothing fails and no wakeup is lost, every state of grep can still come to the end, with all
lines on stdout. -/
theorem grep_can_always_finish (hgood : ∀ p, (files p).Good hsScan) (hok : ∀ n, ¬ Fails (writes n))
    (h : Runs (Joins hsScan files main) JointReady (launched root writes) c) :
    ∃ d, Runs (Joins hsScan files main) JointReady c d ∧ Ended d ∧
      d.shared.sink.out.bytes = d.shared.sink.log.map Prod.snd ∧
      ∃ begun, SharedOut hsScan files root begun fun i => of i d.shared.sink.log := by
  obtain ⟨d, hrun, hd, hno⟩ := runs_until_still h
  have ht := tidy_run hd hgood hok
  have hend := ended_of_still hd ht (still_of_ready ht hno)
  exact ⟨d, hrun, hend, output_of_ended hgood hok hd hend⟩

end Finish

/-- Two workers that have not done anything yet. -/
theorem two_workers_can_finish : ∃ d : Config (Fin 2) (Joint (Fin 2)) Local,
    Runs (Joins scanA textA 0) JointReady (launched fileAndDir fun _ => .ok 2) d ∧ Ended d ∧
      d.shared.sink.out.bytes = d.shared.sink.log.map Prod.snd ∧
      ∃ begun, SharedOut scanA textA fileAndDir begun fun i => of i d.shared.sink.log :=
  grep_can_always_finish good_textA (by simp [Fails]) .refl

end Omnipp.Grep
