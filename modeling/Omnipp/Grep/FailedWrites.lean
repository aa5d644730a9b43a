import Omnipp.Grep.Traversal
import Omnipp.Grep.Worker
import Omnipp.Sink.Shared

/-!
# What grep writes when `write` may fail

The workers of `Processor` with their pipelines, over one stdout. `execute` throws when the
sink fails, and the result of the flush at the end of a worker is not looked at.
-/

open Omnipp.Sink Omnipp.Source Omnipp.Threads Omnipp.Transform

namespace Omnipp.Grep

/-! ## The pipeline on one file -/

/-- How the `pread` calls on a file go: it is read to its end, or one of them fails. -/
abbrev FileRun := Σ content : Bytes, Cut content ⊕ Broken content

def FileRun.reader : FileRun → Reader
  | ⟨_, .inl cut⟩ => cut.reader
  | ⟨_, .inr cut⟩ => cut.reader

def FileRun.blocks : FileRun → List Bytes
  | ⟨_, .inl cut⟩ => cut.blocks
  | ⟨_, .inr cut⟩ => cut.blocks

def FileRun.ends : FileRun → Bool
  | ⟨_, .inl _⟩ => true
  | ⟨_, .inr _⟩ => false

/-- What `VectorScan` gives to `Batch` for the file, and whether the pipeline returns a value when `Batch`
does. -/
def FileRun.pushes (hsScan : Bytes → Option (List Nat)) (file : FileRun) : List Bytes × Bool :=
  ((scanned hsScan file.blocks).1, (scanned hsScan file.blocks).2 && file.ends)

/-- The pipeline on a file calls the stage behind `VectorScan` with `pushes`. When none of these calls
fails, its result does not depend on them. -/
theorem execute_pushes (hsScan : Bytes → Option (List Nat)) (file : FileRun) :
    ∃ r : Expected, ((file.pushes hsScan).2 = true ↔ ¬ Fails r) ∧
      ∀ {σ : Type} (next : Stage Bytes σ) (s : σ),
        outcome (readFile (vectorScan hsScan next) 0 (file.reader, s)) =
          andThen (feed next (file.pushes hsScan).1 s) fun _ t => (r, t) := by
  obtain ⟨content, cut | cut⟩ := file
  · obtain ⟨r, hr, hfeed⟩ := feed_vectorScan hsScan cut.blocks
    refine ⟨r, by simpa [FileRun.pushes, FileRun.ends, FileRun.blocks] using hr, fun next s => ?_⟩
    rw [FileRun.reader, read_file_cut, hfeed]
    rfl
  · obtain ⟨r, hr, hfeed⟩ := feed_vectorScan hsScan cut.blocks
    cases r with
    | error e =>
      refine ⟨.error e, by simp [FileRun.pushes, FileRun.ends, Fails], fun next s => ?_⟩
      rw [FileRun.reader, read_file_broken, hfeed, andThen_assoc]
      rfl
    | ok n =>
      refine ⟨.error s!"failed to read: [{cut.blocks.flatten.length}/{0} bytes]",
        by simp [FileRun.pushes, FileRun.ends, Fails], fun next s => ?_⟩
      rw [FileRun.reader, read_file_broken, hfeed, andThen_assoc]
      rfl

/-! ## The workers and stdout -/

/-- What a worker does with its pipeline. -/
inductive Job where
  | idle
  -- in `execute`, with `todo` still to come for `Batch`, and what the pipeline returns behind them
  | pushing (todo : List Bytes) (ends : Bool)
  -- the same, where `Batch` has called its sink with a full buffer
  | delivering (todo : List Bytes) (ends : Bool)
  -- in `get<2>(pipeline)()`
  | flushing
  -- `execute` has thrown
  | thrown

/-- A worker: where it stands in `worker`, in its pipeline and in `sink::Write`, and `buffer_` of its
`Batch`. `pushed` is no member: it keeps all that `Batch` was given. -/
structure Local where
  control : Pc
  job : Job
  sink : Sink.Pc
  buffer : Bytes
  pushed : Bytes

structure Joint (W : Type) where
  processor : Shared W
  sink : Sink.Shared W

/-- The places where the pipeline runs. -/
def Pc.Pipeline : Pc → Prop
  | .execute .. | .flush => True
  | _ => False

/-- The flush is behind the thread. -/
def Pc.Flushed : Pc → Prop
  | .dtorStore | .dtorNotify | .joining | .done => True
  | _ => False

variable {W : Type} [DecidableEq W]

/-- One step of thread `i`. -/
inductive Joins (hsScan : Bytes → Option (List Nat)) (files : Path → FileRun) (main : W) :
    Act W (Joint W) Local
  | control {i sh l p k} (hjob : l.job = .idle) (hk : ¬ l.control.Pipeline)
      (h : Moves main i sh.processor l.control p k) :
      Joins hsScan files main i sh l { sh with processor := p } { l with control := k }
  | execute {i sh l file d rest span found} (hjob : l.job = .idle)
      (hk : l.control = .execute file d rest span found) :
      Joins hsScan files main i sh l sh
        { l with job := .pushing ((files file).pushes hsScan).1 ((files file).pushes hsScan).2 }
  | room {i sh l data todo ends} (hjob : l.job = .pushing (data :: todo) ends)
      (h : (l.buffer ++ data).length < bufferSize) :
      Joins hsScan files main i sh l sh
        { l with job := .pushing todo ends, buffer := l.buffer ++ data, pushed := l.pushed ++ data }
  | full {i sh l data todo ends} (hjob : l.job = .pushing (data :: todo) ends)
      (h : bufferSize ≤ (l.buffer ++ data).length) :
      Joins hsScan files main i sh l sh
        { l with job := .delivering todo ends, sink := .idle [l.buffer ++ data],
                 buffer := l.buffer ++ data, pushed := l.pushed ++ data }
  | sink {i sh l s k} (h : Sink.Moves i sh.sink l.sink s k) :
      Joins hsScan files main i sh l { sh with sink := s } { l with sink := k }
  | delivered {i sh l todo ends} (hjob : l.job = .delivering todo ends) (hsink : l.sink = .idle []) :
      Joins hsScan files main i sh l sh { l with job := .pushing todo ends, buffer := [] }
  | rejected {i sh l todo ends e left} (hjob : l.job = .delivering todo ends)
      (hsink : l.sink = .failed e left) :
      Joins hsScan files main i sh l sh { l with job := .thrown }
  | executed {i sh l file d rest span found p k} (hjob : l.job = .pushing [] true)
      (hk : l.control = .execute file d rest span found)
      (h : Moves main i sh.processor l.control p k) :
      Joins hsScan files main i sh l { sh with processor := p } { l with job := .idle, control := k }
  | failed {i sh l} (hjob : l.job = .pushing [] false) :
      Joins hsScan files main i sh l sh { l with job := .thrown }
  | flush {i sh l} (hjob : l.job = .idle) (hk : l.control = .flush) :
      Joins hsScan files main i sh l sh { l with job := .flushing, sink := .idle [l.buffer] }
  -- A value or an error, it makes no difference.
  | flushed {i sh l p k} (hjob : l.job = .flushing) (hk : l.control = .flush) (hsink : l.sink.Returned)
      (h : Moves main i sh.processor l.control p k) :
      Joins hsScan files main i sh l { sh with processor := p } { l with job := .idle, control := k }

/-- The threads are started, and nothing is on stdout. -/
def launched (root : Dir) (writes : Schedule) : Config W (Joint W) Local where
  shared := ⟨(start root : Config W (Shared W) Pc).shared, ⟨none, { bytes := [], writes := writes }, []⟩⟩
  pc := fun _ => ⟨.test, .idle, .idle [], [], []⟩

/-- `Processor::run` has returned and every worker has, none of them by an exception. -/
def Ended (c : Config W (Joint W) Local) : Prop :=
  ∀ i, (c.pc i).job = .idle ∧ (c.pc i).control.Flushed

/-- Stdout has the bytes of the workers, and of each worker all that its `Batch` was given. -/
def AllWritten (c : Config W (Joint W) Local) : Prop :=
  c.shared.sink.out.bytes = c.shared.sink.log.map Prod.snd ∧
    ∀ i, of i c.shared.sink.log = (c.pc i).pushed

/-- When the step of the worker is a `write` of its flush, it does not fail. -/
def FlushWrites (i : W) (c : Config W (Joint W) Local) : Prop :=
  (c.pc i).job = .flushing → ∀ data amount todo, (c.pc i).sink = .writing data amount todo →
    amount < data.length → ¬ Fails (c.shared.sink.out.writes c.shared.sink.out.calls)

/-! ## What is on its way -/

/-- Between two calls of the sink, all that is not written is in `buffer_`. -/
def Held (written : Bytes) (l : Local) : Prop := l.sink = .idle [] ∧ written ++ l.buffer = l.pushed

def Account (written : Bytes) (l : Local) : Prop :=
  match l.job with
  | .idle =>
    (¬ l.control.Flushed → Held written l) ∧
      (l.control.Flushed → l.sink.Returned ∧ Owed written l.pushed l.sink)
  | .pushing _ _ => Held written l
  | .delivering _ _ | .flushing => Owed written l.pushed l.sink
  | .thrown => True

section Step
variable {hsScan : Bytes → Option (List Nat)} {files : Path → FileRun} {main i : W}
  {sh sh' : Joint W} {l l' : Local}

theorem joins_log (h : Joins hsScan files main i sh l sh' l') :
    ∃ xs, sh'.sink.log = sh.sink.log ++ spread (i, xs) ∧ sh'.sink.out.bytes = sh.sink.out.bytes ++ xs := by
  cases h with
  | sink h => exact moves_log h
  | _ => exact ⟨[], by simp [spread]⟩

theorem moves_flushed {sh sh' : Shared W} {k k' : Pc} (h : Moves main i sh k sh' k') (hk : ¬ k.Pipeline) :
    k'.Flushed ↔ k.Flushed := by
  cases h with
  | spurious _ => rfl
  | work h => cases h <;> simp_all [Pc.Flushed, Pc.Pipeline]

theorem moves_execute {sh sh' : Shared W} {file : Path} {d : Dir} {rest span : List Entry}
    {found : List Dir} {k : Pc} (h : Moves main i sh (.execute file d rest span found) sh' k) :
    ¬ k.Flushed := by
  cases h with
  | work h =>
    cases h
    exact id

theorem moves_flush {sh sh' : Shared W} {k : Pc} (h : Moves main i sh .flush sh' k) : k.Flushed := by
  cases h with
  | work h => cases h <;> trivial

theorem account_sink {s : Sink.Shared W} {k : Sink.Pc} (h : Sink.Moves i sh.sink l.sink s k)
    (ha : Account (of i sh.sink.log) l) : Account (of i s.log) { l with sink := k } := by
  cases hjob : l.job with
  | idle =>
    simp only [Account, hjob] at ha
    refine absurd h (not_moves_of_returned ?_)
    by_cases hk : l.control.Flushed
    · exact (ha.2 hk).1
    · rw [(ha.1 hk).1]
      trivial
  | pushing todo ends =>
    simp only [Account, hjob] at ha
    refine absurd h (not_moves_of_returned ?_)
    rw [ha.1]
    trivial
  | delivering todo ends =>
    simp only [Account, hjob] at ha ⊢
    exact owed_step h ha
  | flushing =>
    simp only [Account, hjob] at ha ⊢
    exact owed_step h ha
  | thrown => simp only [Account]

theorem account_step (h : Joins hsScan files main i sh l sh' l') (ha : Account (of i sh.sink.log) l) :
    Account (of i sh'.sink.log) l' := by
  cases h with
  | sink h => exact account_sink h ha
  | control hjob hk h =>
    simp only [Account, hjob, moves_flushed h hk] at ha ⊢
    exact ha
  | execute hjob hk =>
    simp only [Account, hjob, hk] at ha ⊢
    exact ha.1 id
  | room hjob _ =>
    simp only [Account, hjob] at ha ⊢
    refine ⟨ha.1, ?_⟩
    rw [← ha.2, List.append_assoc]
  | full hjob _ =>
    simp only [Account, hjob] at ha ⊢
    simp [Owed, ← ha.2]
  | delivered hjob hsink =>
    simp only [Account, hjob, hsink, Owed, List.flatten_nil] at ha ⊢
    exact ⟨rfl, ha⟩
  | rejected _ _ => trivial
  | executed hjob hk h =>
    simp only [Account, hjob] at ha ⊢
    have hclosed : ¬ Pc.Flushed _ := moves_execute (hk ▸ h)
    exact ⟨fun _ => ha, fun hf => absurd hf hclosed⟩
  | failed _ => trivial
  | flush hjob hk =>
    simp only [Account, hjob, hk] at ha ⊢
    have hheld := (ha.1 id).2
    simpa [Owed] using hheld
  | flushed hjob hk hsink h =>
    simp only [Account, hjob] at ha ⊢
    have hleft : Pc.Flushed _ := moves_flush (hk ▸ h)
    exact ⟨fun hf => absurd hleft hf, fun _ => ⟨hsink, ha⟩⟩

/-! ## Flushes that fail -/

/-- The flush of the worker has failed. -/
def Local.Lost (l : Local) : Prop :=
  (l.job = .flushing ∨ l.job = .idle ∧ l.control.Flushed) ∧ ∃ e todo, l.sink = .failed e todo

theorem lost_stays (h : Joins hsScan files main i sh l sh' l') (hl : l.Lost) : l'.Lost := by
  obtain ⟨hflush, e, todo, hfailed⟩ := hl
  cases h with
  | control hjob hk h =>
    refine ⟨.inr ⟨hjob, ?_⟩, e, todo, hfailed⟩
    rcases hflush with hj | ⟨-, hc⟩
    · simp [hjob] at hj
    · exact (moves_flushed h hk).mpr hc
  | execute hjob hk => simp [hjob, hk, Pc.Flushed] at hflush
  | sink h =>
    rw [hfailed] at h
    exact absurd h (not_moves_of_returned trivial)
  | flush hjob hk => simp [hjob, hk, Pc.Flushed] at hflush
  | flushed hjob hk _ h => exact ⟨.inr ⟨rfl, moves_flush (hk ▸ h)⟩, e, todo, hfailed⟩
  | room hjob | full hjob | delivered hjob | rejected hjob | executed hjob | failed hjob =>
    simp [hjob] at hflush

theorem lost_of_failed_write {c : Config W (Joint W) Local} (hg : ¬ FlushWrites i c)
    (h : Joins hsScan files main i c.shared (c.pc i) sh' l') : l'.Lost := by
  simp only [FlushWrites, not_forall, not_not] at hg
  obtain ⟨hflush, data, amount, todo, hwriting, hlt, hfails⟩ := hg
  cases h with
  | sink h =>
    rw [hwriting] at h
    refine ⟨.inl hflush, ?_⟩
    cases h with
    | pass hb => exact absurd hfails (pass_not_fails hb)
    | done hb =>
      obtain ⟨-, -, hle⟩ := pass_done hb
      omega
    | fail hb => exact ⟨_, _, rfl⟩
  | flushed _ _ hsink _ =>
    rw [hwriting] at hsink
    exact absurd hsink id
  | control hjob | execute hjob | room hjob | full hjob | delivered hjob | rejected hjob | executed hjob
  | failed hjob | flush hjob => simp [hjob] at hflush

theorem not_lost_step {c : Config W (Joint W) Local} {written : Bytes} (ha : Account written (c.pc i))
    (hg : FlushWrites i c) (h : Joins hsScan files main i c.shared (c.pc i) sh' l')
    (hl : ¬ (c.pc i).Lost) : ¬ l'.Lost := by
  rintro ⟨hflush, e, todo, hfailed⟩
  cases h with
  | control hjob hk h =>
    rcases hflush with hj | ⟨-, hc⟩
    · simp [hjob] at hj
    · exact hl ⟨.inr ⟨hjob, (moves_flushed h hk).mp hc⟩, e, todo, hfailed⟩
  | sink h =>
    rcases hflush with hj | ⟨hj, hc⟩
    · generalize hp : (c.pc i).sink = p at h
      subst hfailed
      cases h with
      | fail hb =>
        obtain ⟨hlt, hfails, -⟩ := pass_failed hb
        exact hg hj _ _ _ hp hlt hfails
    · simp only [Account, show (c.pc i).job = .idle from hj] at ha
      exact not_moves_of_returned (ha.2 hc).1 h
  | executed hjob hk h =>
    rcases hflush with hj | ⟨-, hc⟩
    · cases hj
    · exact moves_execute (hk ▸ h) hc
  | flush => cases hfailed
  | flushed hjob hk hsink h => exact hl ⟨.inl hjob, e, todo, hfailed⟩
  | execute | room | full | delivered | rejected | failed => simp at hflush

end Step

/-! ## Every run -/

section Run
variable {hsScan : Bytes → Option (List Nat)} {files : Path → FileRun} {main : W} {root : Dir}
  {writes : Schedule} {c : Config W (Joint W) Local}

structure Accounted (c : Config W (Joint W) Local) : Prop where
  bytes : c.shared.sink.out.bytes = c.shared.sink.log.map Prod.snd
  account : ∀ i, Account (of i c.shared.sink.log) (c.pc i)

theorem accounted_launched (root : Dir) (writes : Schedule) :
    Accounted (launched root writes : Config W (Joint W) Local) where
  bytes := rfl
  account _ := ⟨fun _ => ⟨rfl, rfl⟩, fun h => absurd h id⟩

theorem accounted_step {i : W} {sh : Joint W} {l : Local} (ha : Accounted c)
    (h : Joins hsScan files main i c.shared (c.pc i) sh l) : Accounted (c.move i sh l) := by
  obtain ⟨xs, hlog, hbytes⟩ := joins_log h
  refine ⟨?_, ?_⟩
  · rw [move_shared, hlog, hbytes, ha.bytes]
    simp [spread, Function.comp_def]
  · apply forall_move c (P := fun j p => Account (of j sh.sink.log) p)
    · exact account_step h (ha.account i)
    · intro j hj
      rw [hlog, of_append, spread, of_map_of_ne (Ne.symm hj), List.append_nil]
      exact ha.account j

theorem accounted_run (h : Reaches (Joins hsScan files main) (launched root writes) c) : Accounted c :=
  h.invariant Accounted (fun _ _ _ _ ha _ hj => accounted_step ha hj) (accounted_launched root writes)

/-- A run of the workers with their pipelines is one of the workers alone. -/
theorem traversal_of_joint (h : Reaches (Joins hsScan files main) (launched root writes) c) :
    Reaches (Moves main) (start root) (c.map Joint.processor Local.control) := by
  refine h.map Joint.processor Local.control ?_
  intro i sh l sh' l' hstep
  cases hstep with
  | control _ _ h | executed _ _ h | flushed _ _ _ h => exact .inl h
  | _ => exact .inr ⟨rfl, rfl⟩

theorem left_of_flushed {k : Pc} (h : k.Flushed) : k.Left := by
  cases k <;> trivial

/-- In a run that ends, every file of the tree went through a pipeline. -/
theorem log_of_ended [Fintype W] (h : Reaches (Joins hsScan files main) (launched root writes) c)
    (hend : Ended c) : (c.shared.processor.log : Multiset Event) = eventsOf root.visits :=
  log_of_left (traversal_of_joint h) fun i => left_of_flushed (hend i).2

theorem not_lost_run (h : Runs (Joins hsScan files main) FlushWrites (launched root writes) c) :
    ∀ i, ¬ (c.pc i).Lost := by
  refine (h.invariant (fun c => Accounted c ∧ ∀ i, ¬ (c.pc i).Lost) ?_
    ⟨accounted_launched root writes, fun i hl => absurd hl.2.choose_spec (by simp [launched])⟩).2
  rintro c i sh l ⟨ha, hl⟩ hg hj
  refine ⟨accounted_step ha hj, ?_⟩
  exact forall_move c (P := fun _ p => ¬ p.Lost) (not_lost_step (ha.account i) hg hj (hl i)) fun j _ => hl j

theorem guarded_of_not_lost (h : Reaches (Joins hsScan files main) (launched root writes) c)
    (hl : ∀ i, ¬ (c.pc i).Lost) :
    Runs (Joins hsScan files main) FlushWrites (launched root writes) c := by
  refine Runs.of_unmarked (fun c => ∃ i, (c.pc i).Lost) ?_ ?_ h fun ⟨i, hi⟩ => hl i hi
  · rintro c i sh l ⟨j, hj⟩ hstep
    refine ⟨j, ?_⟩
    by_cases hji : j = i
    · subst hji
      rw [move_pc_self]
      exact lost_stays hstep hj
    · rwa [move_pc_of_ne c sh l hji]
  · intro c i sh l hg hstep
    refine ⟨i, ?_⟩
    rw [move_pc_self]
    exact lost_of_failed_write hg hstep

theorem written_iff {written : Bytes} {l : Local} (ha : Account written l) (hjob : l.job = .idle)
    (hk : l.control.Flushed) : written = l.pushed ↔ ¬ l.Lost := by
  simp only [Account, hjob] at ha
  obtain ⟨hreturned, howed⟩ := ha.2 hk
  cases hsink : l.sink with
  | idle todo =>
    rw [hsink] at hreturned howed
    cases todo with
    | nil =>
      have hlost : ¬ l.Lost := by
        rintro ⟨-, e, todo, hfailed⟩
        simp [hsink] at hfailed
      simpa [Owed, hlost] using howed
    | cons data todo => exact absurd hreturned id
  | writing data amount todo =>
    rw [hsink] at hreturned
    exact absurd hreturned id
  | failed e todo =>
    rw [hsink] at howed
    obtain ⟨lost, hne, hall⟩ := howed
    have hlost : l.Lost := ⟨.inr ⟨hjob, hk⟩, e, todo, hsink⟩
    simp [hlost, ← hall, hne]

/-- A run in which every worker returns has written all that was pushed exactly when no `write` of a
flush has failed in it. -/
theorem grep_output_iff (h : Reaches (Joins hsScan files main) (launched root writes) c) (hend : Ended c) :
    AllWritten c ↔ Runs (Joins hsScan files main) FlushWrites (launched root writes) c := by
  have ha := accounted_run h
  have hiff : AllWritten c ↔ ∀ i, ¬ (c.pc i).Lost := by
    rw [AllWritten, and_iff_right ha.bytes]
    exact forall_congr' fun i => written_iff (ha.account i) (hend i).1 (hend i).2
  rw [hiff]
  exact ⟨guarded_of_not_lost h, not_lost_run⟩

end Run

/-! ## One worker, one match -/

/-- A directory with the file `a`. -/
def oneFile : Dir := ⟨[], [.reg [97] true]⟩

/-- The file is `a\n`, read in one block. -/
def textA : Path → FileRun := fun _ => ⟨[97, 10], .inl ⟨[[97, 10]], rfl, by decide, by decide⟩⟩

/-- `a` is a match. -/
def scanA : Bytes → Option (List Nat) := fun _ => some [1]

/-- What the processor has done when its only worker has left the loop. -/
def visited : Shared Unit where
  queue := []
  pending := 0
  running := false
  mutex := none
  sleepers := ∅
  log := [.popped [], .ran [[97]], .closedFile [[97]], .listed [], .closed []]

/-- The worker is in the `write` of its flush, and nothing is on stdout yet. -/
theorem run_to_flush (writes : Schedule) :
    Reaches (Joins scanA textA ()) (launched oneFile writes)
      ⟨⟨visited, ⟨some (), { bytes := [], writes := writes }, []⟩⟩,
        fun _ => ⟨.flush, .flushing, .writing [97, 10] 0 [], [97, 10], [97, 10]⟩⟩ := by
  have h : Reaches (Joins scanA textA ()) (launched oneFile writes) (launched oneFile writes) := .refl
  have h := alone_step h (.control rfl id (.work (.testRunning rfl)))
  have h := alone_step h (.control rfl id (.work (.lock rfl)))
  have h := alone_step h (.control rfl id (.work (.predTrue (.inl (List.cons_ne_nil _ _)))))
  have h := alone_step h (.control rfl id (.work (.goOn rfl)))
  have h := alone_step h (.control rfl id (.work (.pop rfl)))
  have h := alone_step h (.control rfl id
    (.work (@Work.batch _ _ _ _ _ oneFile oneFile.entries [] (List.cons_ne_nil _ _))))
  have h := alone_step h (.control rfl id (.work .openFile))
  have h := alone_step h (.execute rfl rfl)
  have h := alone_step h (@Joins.room _ _ _ _ _ _ _ _ [97] [[10]] true rfl (by decide))
  have h := alone_step h (@Joins.room _ _ _ _ _ _ _ _ [10] [] true rfl (by decide))
  have h := alone_step h (.executed rfl rfl (.work .execute))
  have h := alone_step h (.control rfl id (.work .closeFile))
  have h := alone_step h (.control rfl id (.work .scanned))
  have h := alone_step h (.control rfl id (.work .add))
  have h := alone_step h (.control rfl id (.work (.appendLock rfl)))
  have h := alone_step h (.control rfl id (.work .append))
  have h := alone_step h (.control rfl id (.work (.notifyNone rfl)))
  have h := alone_step h (.control rfl id (.work .listed))
  have h := alone_step h (.control rfl id (.work .close))
  have h := alone_step h (.control rfl id (.work (.subLast rfl)))
  have h := alone_step h (.control rfl id (.work .store))
  have h := alone_step h (.control rfl id (.work .notifyAll))
  have h := alone_step h (.control rfl id (.work (.testStopped rfl)))
  have h := alone_step h (.flush rfl rfl)
  exact alone_step h (.sink (.lock rfl))

theorem grep_output_of_one_file : ∃ c : Config Unit (Joint Unit) Local,
    Ended c ∧ c.shared.sink.out.bytes = [97, 10] ∧
      Runs (Joins scanA textA ()) FlushWrites (launched oneFile fun _ => .ok 2) c := by
  have h := run_to_flush fun _ => .ok 2
  have h := alone_step h (.sink (.pass rfl))
  have h := alone_step h (.sink (.done rfl))
  have h := alone_step h (.flushed rfl rfl trivial (.work .flushMain))
  refine ⟨_, ?_, ?_, (grep_output_iff h ?_).mp ?_⟩
  · exact fun _ => ⟨rfl, trivial⟩
  · rfl
  · exact fun _ => ⟨rfl, trivial⟩
  · exact ⟨rfl, fun _ => rfl⟩

/-- The only `write` fails, in the flush. The worker returns, and stdout has nothing of the match. -/
theorem grep_loses_match_of_failed_flush : ∃ c : Config Unit (Joint Unit) Local,
    Reaches (Joins scanA textA ()) (launched oneFile fun _ => .error "Input/output error") c ∧
      Ended c ∧ (c.pc ()).pushed = [97, 10] ∧ c.shared.sink.out.bytes = [] ∧ ¬ AllWritten c := by
  have h := run_to_flush fun _ => .error "Input/output error"
  have h := alone_step h (.sink (.fail rfl))
  have h := alone_step h (.flushed rfl rfl trivial (.work .flushMain))
  refine ⟨_, h, fun _ => ⟨rfl, trivial⟩, rfl, rfl, ?_⟩
  rintro ⟨-, hall⟩
  exact absurd (hall ()) (by decide)

end Omnipp.Grep
