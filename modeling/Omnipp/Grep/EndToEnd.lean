import Omnipp.Grep.FailedWrites
import Omnipp.Grep.Halted

/-!
# From the tree to stdout

The workers with their pipelines and the two mutexes, `mutex_` of `Processor` and the one of
`sink::Write`. When nothing fails and no wakeup is lost, grep cannot get stuck, and what is on stdout
in the end is the matched lines of every file of the tree, once.
-/

open Omnipp.Sink Omnipp.Threads Omnipp.Transform

namespace Omnipp.Grep

/-! ## The lines of a file -/

def FileRun.lines (hsScan : Bytes → Option (List Nat)) (file : FileRun) : List Bytes :=
  file.blocks.flatMap (emitted hsScan)

theorem scanned_lines {hsScan : Bytes → Option (List Nat)} {blocks : List Bytes}
    (h : (scanned hsScan blocks).2 = true) :
    (scanned hsScan blocks).1 = printed (blocks.flatMap (emitted hsScan)) := by
  induction blocks with
  | nil => rfl
  | cons block blocks ih =>
    cases hs : hsScan block with
    | none => simp [scanned, hs] at h
    | some ends =>
      simp only [scanned, hs] at h ⊢
      rw [ih h, List.flatMap_cons, printed_append]

/-- The file can be read and scanned to its end. -/
def FileRun.Good (hsScan : Bytes → Option (List Nat)) (file : FileRun) : Prop :=
  (file.pushes hsScan).2 = true

theorem pushes_text {hsScan : Bytes → Option (List Nat)} {file : FileRun} (h : file.Good hsScan) :
    (file.pushes hsScan).1.flatten = text (file.lines hsScan) := by
  simp only [FileRun.Good, FileRun.pushes, Bool.and_eq_true] at h
  rw [FileRun.pushes, scanned_lines h.1, printed_flatten]
  rfl

section Step
variable {W : Type} [DecidableEq W] {hsScan : Bytes → Option (List Nat)} {files : Path → FileRun}
  {main i : W} {sh sh' : Joint W} {l l' : Local}

/-! ## Nothing fails -/

/-- What a worker does fits the place where it is, and nothing has failed. -/
structure Local.Fine (l : Local) : Prop where
  sound : ∀ e todo, l.sink ≠ .failed e todo
  job : match l.job with
    | .idle => True
    | .pushing _ ends | .delivering _ ends =>
      ends = true ∧ ∃ file d rest span found, l.control = .execute file d rest span found
    | .flushing => l.control = .flush
    | .thrown => False

omit [DecidableEq W] in
theorem sinkMoves_sound {s s' : Sink.Shared W} {k k' : Sink.Pc} (h : Sink.Moves i s k s' k')
    (hok : ∀ n, ¬ Fails (s.out.writes n)) :
    (∀ e todo, k' ≠ .failed e todo) ∧ s'.out.writes = s.out.writes := by
  cases h with
  | lock _ => exact ⟨by simp, rfl⟩
  | pass hb =>
    obtain ⟨n, -, -, -, hwrites, -⟩ := pass_again hb
    exact ⟨by simp, hwrites⟩
  | done hb =>
    obtain ⟨-, rfl, -⟩ := pass_done hb
    exact ⟨by simp, rfl⟩
  | fail hb => exact absurd (pass_failed hb).2.1 (hok _)

theorem joins_fine (h : Joins hsScan files main i sh l sh' l') (hgood : ∀ p, (files p).Good hsScan)
    (hok : ∀ n, ¬ Fails (sh.sink.out.writes n)) (hl : l.Fine) :
    l'.Fine ∧ sh'.sink.out.writes = sh.sink.out.writes := by
  obtain ⟨hsound, hfits⟩ := hl
  cases h with
  | control hjob hk h => exact ⟨⟨hsound, by simp only [hjob]⟩, rfl⟩
  | execute hjob hk => exact ⟨⟨hsound, hgood _, _, _, _, _, _, hk⟩, rfl⟩
  | room hjob h =>
    rw [hjob] at hfits
    exact ⟨⟨hsound, hfits⟩, rfl⟩
  | full hjob h =>
    rw [hjob] at hfits
    exact ⟨⟨by simp, hfits⟩, rfl⟩
  | sink h =>
    obtain ⟨hnew, hwrites⟩ := sinkMoves_sound h hok
    exact ⟨⟨hnew, hfits⟩, hwrites⟩
  | delivered hjob hsink =>
    rw [hjob] at hfits
    exact ⟨⟨hsound, hfits⟩, rfl⟩
  | rejected hjob hsink => exact absurd hsink (hsound _ _)
  | executed hjob hk h => exact ⟨⟨hsound, trivial⟩, rfl⟩
  | failed hjob =>
    rw [hjob] at hfits
    exact absurd hfits.1 (by simp)
  | flush hjob hk => exact ⟨⟨by simp, hk⟩, rfl⟩
  | flushed hjob hk hsink h => exact ⟨⟨hsound, trivial⟩, rfl⟩

/-- Between two calls of the sink, `buffer_` is not full. -/
def Local.Room (l : Local) : Prop :=
  match l.job with
  | .idle => ¬ l.control.Flushed → l.buffer.length < bufferSize
  | .pushing _ _ => l.buffer.length < bufferSize
  | _ => True

theorem joins_room (h : Joins hsScan files main i sh l sh' l') (hl : l.Room) : l'.Room := by
  unfold Local.Room at hl ⊢
  cases h with
  | control hjob hk h =>
    simp only [hjob, moves_flushed h hk] at hl ⊢
    exact hl
  | execute hjob hk =>
    simp only [hjob, hk] at hl ⊢
    exact hl id
  | room hjob h => exact h
  | delivered hjob hsink => simp [bufferSize]
  | executed hjob hk h =>
    simp only [hjob] at hl ⊢
    exact fun _ => hl
  | flushed hjob hk hsink h =>
    have hleft : Pc.Flushed _ := moves_flush (hk ▸ h)
    exact fun hf => absurd hleft hf
  | sink h => exact hl
  | full | rejected | failed | flush => trivial

/-! ## Who has the mutex of the sink -/

omit [DecidableEq W] in
theorem sinkMoves_lock {s s' : Sink.Shared W} {k k' : Sink.Pc} (h : Sink.Moves i s k s' k')
    (hk : k.Writing → s.owner = some i) : LockStep Sink.Shared.owner Sink.Pc.Writing i s k s' k' := by
  cases h with
  | lock hfree => exact .inr (.inl ⟨hfree, rfl, trivial⟩)
  | pass _ => exact .inl ⟨rfl, Iff.rfl⟩
  | done _ | fail _ => exact .inr (.inr ⟨hk trivial, rfl, id⟩)

omit [DecidableEq W] in
theorem sinkMoves_writing (i : W) (s : Sink.Shared W) {k : Sink.Pc} (hk : k.Writing) :
    ∃ s' k', Sink.Moves i s k s' k' := by
  cases k with
  | writing data amount todo =>
    cases hb : (writeLoop data).body ⟨amount, s.out⟩ with
    | again w => exact ⟨_, _, .pass hb⟩
    | leave r =>
      obtain ⟨res, o⟩ := r
      cases res with
      | ok n => exact ⟨_, _, .done hb⟩
      | error e => exact ⟨_, _, .fail hb⟩
  | _ => exact absurd hk id

/-- Outside of a call of the sink, the worker is not in it. -/
theorem Account.quiet {written : Bytes} (h : Account written l)
    (hjob : l.job = .idle ∨ ∃ todo ends, l.job = .pushing todo ends) : ¬ l.sink.Writing := by
  have hreturned : l.sink.Returned := by
    rcases hjob with hjob | ⟨todo, ends, hjob⟩
    · simp only [Account, hjob] at h
      by_cases hk : l.control.Flushed
      · exact (h.2 hk).1
      · rw [(h.1 hk).1]
        trivial
    · simp only [Account, hjob] at h
      rw [h.1]
      trivial
  cases hs : l.sink with
  | writing data amount todo =>
    rw [hs] at hreturned
    exact absurd hreturned id
  | _ => exact id

theorem joins_lock {written : Bytes} (h : Joins hsScan files main i sh l sh' l')
    (ha : Account written l) (hk : l.sink.Writing → sh.sink.owner = some i) :
    LockStep (fun sh : Joint W => sh.sink.owner) (fun l : Local => l.sink.Writing) i sh l sh' l' := by
  cases h with
  | sink h => exact sinkMoves_lock h hk
  | full hjob _ => exact .inl ⟨rfl, iff_of_false id (ha.quiet (.inr ⟨_, _, hjob⟩))⟩
  | flush hjob _ => exact .inl ⟨rfl, iff_of_false id (ha.quiet (.inl hjob))⟩
  | _ => exact .inl ⟨rfl, Iff.rfl⟩

/-! ## One worker can go on -/

/-- The worker waits for the mutex of the sink. -/
def Local.Queued (l : Local) : Prop := ∃ data todo, l.sink = .idle (data :: todo)

omit [DecidableEq W] in
theorem sink_works (i : W) (hl : l.Fine) :
    (∃ s k, Sink.Moves i sh.sink l.sink s k) ∨ (l.Queued ∧ sh.sink.owner ≠ none) ∨ l.sink = .idle [] := by
  cases hs : l.sink with
  | idle todo =>
    cases todo with
    | nil => exact .inr (.inr rfl)
    | cons data todo =>
      by_cases hfree : sh.sink.owner = none
      · exact .inl ⟨_, _, .lock hfree⟩
      · exact .inr (.inl ⟨⟨data, todo, hs⟩, hfree⟩)
  | writing data amount todo => exact .inl (sinkMoves_writing i sh.sink trivial)
  | failed e todo => exact absurd hs (hl.sound e todo)

theorem flush_works (main i : W) (p : Shared W) : ∃ p' k, Work main i p .flush p' k := by
  by_cases hi : i = main
  · subst hi
    exact ⟨_, _, .flushMain⟩
  · exact ⟨_, _, .flush hi⟩

/-- Where a pipeline runs, the worker can go on unless it waits for the sink. -/
theorem pipeline_works (hsScan : Bytes → Option (List Nat)) (files : Path → FileRun) (main i : W)
    (sh : Joint W) (hl : l.Fine) :
    (l.job = .idle ∧ ¬ l.control.Pipeline) ∨
    (l.control.Pipeline ∧ ((∃ sh' l', Joins hsScan files main i sh l sh' l') ∨
      (l.Queued ∧ sh.sink.owner ≠ none))) := by
  have hfits := hl.job
  cases hjob : l.job with
  | idle =>
    cases hk : l.control with
    | execute file d rest span found => exact .inr ⟨trivial, .inl ⟨_, _, .execute hjob hk⟩⟩
    | flush => exact .inr ⟨trivial, .inl ⟨_, _, .flush hjob hk⟩⟩
    | _ => exact .inl ⟨rfl, id⟩
  | pushing todo ends =>
    rw [hjob] at hfits
    obtain ⟨rfl, file, d, rest, span, found, hk⟩ := hfits
    refine .inr ⟨by rw [hk]; trivial, .inl ?_⟩
    cases todo with
    | nil => exact ⟨_, _, .executed hjob hk (by rw [hk]; exact .work .execute)⟩
    | cons data todo =>
      by_cases hroom : (l.buffer ++ data).length < bufferSize
      · exact ⟨_, _, .room hjob hroom⟩
      · exact ⟨_, _, .full hjob (by omega)⟩
  | delivering todo ends =>
    rw [hjob] at hfits
    obtain ⟨-, file, d, rest, span, found, hk⟩ := hfits
    refine .inr ⟨by rw [hk]; trivial, ?_⟩
    rcases sink_works i hl with ⟨s, k, hs⟩ | hqueued | hidle
    · exact .inl ⟨_, _, .sink hs⟩
    · exact .inr hqueued
    · exact .inl ⟨_, _, .delivered hjob hidle⟩
  | flushing =>
    rw [hjob] at hfits
    refine .inr ⟨by rw [hfits]; trivial, ?_⟩
    rcases sink_works i hl with ⟨s, k, hs⟩ | hqueued | hidle
    · exact .inl ⟨_, _, .sink hs⟩
    · exact .inr hqueued
    · obtain ⟨p, k, hw⟩ := flush_works main i sh.processor
      exact .inl ⟨_, _, .flushed hjob hfits (by rw [hidle]; trivial) (by rw [hfits]; exact .work hw)⟩
  | thrown =>
    rw [hjob] at hfits
    exact absurd hfits id

/-! ## The files of a worker -/

def Pc.file : Pc → List Path
  | .execute file _ _ _ _ => [file]
  | _ => []

/-- The file that the pipeline is running on. -/
def Local.current (l : Local) : List Path :=
  match l.job with
  | .pushing _ _ | .delivering _ _ => l.control.file
  | _ => []

/-- What `Batch` will still be given of that file. -/
def Local.coming (l : Local) : Bytes :=
  match l.job with
  | .pushing todo _ | .delivering todo _ => todo.flatten
  | _ => []

theorem moves_ran {p p' : Shared W} {k k' : Pc} (h : Moves main i p k p' k') (hk : ¬ k.Pipeline) :
    ranFiles p'.log = ranFiles p.log := by
  cases h with
  | spurious _ => rfl
  | work h =>
    cases h with
    | execute => exact absurd trivial hk
    | _ => simp [ranFiles, Event.ranFile]

/-- What a step of a worker means for the files it has begun. -/
def Begins (hsScan : Bytes → Option (List Nat)) (files : Path → FileRun) (new : List Path)
    (sh : Joint W) (l : Local) (sh' : Joint W) (l' : Local) : Prop :=
  l'.pushed ++ l'.coming =
      l.pushed ++ l.coming ++ new.flatMap (fun p => ((files p).pushes hsScan).1.flatten) ∧
    ranFiles sh'.processor.log ++ l'.current = ranFiles sh.processor.log ++ l.current ++ new

theorem joins_begins (h : Joins hsScan files main i sh l sh' l') (hl : l.Fine) :
    ∃ new, Begins hsScan files new sh l sh' l' := by
  have hfits := hl.job
  cases h with
  | control hjob hk h =>
    refine ⟨[], ?_, ?_⟩
    · simp [Local.coming, hjob]
    · simp [Local.current, hjob, moves_ran h hk]
  | @execute _ _ _ file _ _ _ _ hjob hk =>
    refine ⟨[file], ?_, ?_⟩
    · simp [Local.coming, hjob]
    · simp [Local.current, hjob, hk, Pc.file]
  | room hjob _ | full hjob _ | delivered hjob _ | flush hjob _ =>
    refine ⟨[], ?_, ?_⟩
    · simp [Local.coming, hjob]
    · simp [Local.current, hjob]
  | sink _ => exact ⟨[], by simp [Local.coming], by simp [Local.current]⟩
  | rejected _ hsink => exact absurd hsink (hl.sound _ _)
  | executed hjob hk h =>
    refine ⟨[], by simp [Local.coming, hjob], ?_⟩
    rw [hk] at h
    cases h with
    | work h =>
      cases h
      simp [Local.current, hjob, hk, Pc.file, ranFiles, Event.ranFile]
  | failed hjob =>
    rw [hjob] at hfits
    exact absurd hfits.1 (by simp)
  | flushed hjob hk _ h =>
    refine ⟨[], by simp [Local.coming, hjob], ?_⟩
    rw [hk] at h
    cases h with
    | work h => cases h <;> simp [Local.current, hjob]

end Step

/-! ## Every run -/

section Run
variable {W : Type} [DecidableEq W] {hsScan : Bytes → Option (List Nat)} {files : Path → FileRun}
  {main : W} {root : Dir} {writes : Schedule} {c : Config W (Joint W) Local}

structure Tidy (writes : Schedule) (c : Config W (Joint W) Local) : Prop where
  accounted : Accounted c
  fine : ∀ i, (c.pc i).Fine
  room : ∀ i, (c.pc i).Room
  answers : c.shared.sink.out.writes = writes
  mutex : Exclusive (fun sh : Joint W => sh.sink.owner) (fun l : Local => l.sink.Writing) c

theorem tidy_step {i : W} {sh : Joint W} {l : Local} (h : Tidy writes c)
    (hj : Joins hsScan files main i c.shared (c.pc i) sh l) (hgood : ∀ p, (files p).Good hsScan)
    (hok : ∀ n, ¬ Fails (writes n)) : Tidy writes (c.move i sh l) := by
  have hok' : ∀ n, ¬ Fails (c.shared.sink.out.writes n) := by
    rw [h.answers]
    exact hok
  obtain ⟨hfine, hwrites⟩ := joins_fine hj hgood hok' (h.fine i)
  have hlock := joins_lock hj (h.accounted.account i) (h.mutex i).mp
  exact ⟨accounted_step h.accounted hj, forall_move c (P := fun _ p => p.Fine) hfine fun j _ => h.fine j,
    forall_move c (P := fun _ p => p.Room) (joins_room hj (h.room i)) fun j _ => h.room j,
    hwrites.trans h.answers, h.mutex.move hlock⟩

theorem tidy_launched (root : Dir) (writes : Schedule) :
    Tidy writes (launched root writes : Config W (Joint W) Local) where
  accounted := accounted_launched root writes
  fine i := ⟨by simp [launched], trivial⟩
  room i := by simp [launched, Local.Room, bufferSize]
  answers := rfl
  mutex i := by simp [launched, Sink.Pc.Writing]

/-- The files that each worker has begun: their lines are what `Batch` was given and will be, and they
are the files of the log and those that a pipeline is running on. -/
def Tracked [Fintype W] (hsScan : Bytes → Option (List Nat)) (files : Path → FileRun)
    (c : Config W (Joint W) Local) (begun : W → List Path) : Prop :=
  (∀ i, (c.pc i).pushed ++ (c.pc i).coming =
      (begun i).flatMap fun p => ((files p).pushes hsScan).1.flatten) ∧
    ∑ i, (begun i : Multiset Path) =
      (ranFiles c.shared.processor.log : Multiset Path) + ∑ i, ((c.pc i).current : Multiset Path)

theorem tracked_step [Fintype W] {i : W} {sh : Joint W} {l : Local} {begun : W → List Path}
    (h : Tracked hsScan files c begun) (hj : Joins hsScan files main i c.shared (c.pc i) sh l)
    (hl : (c.pc i).Fine) : ∃ begun', Tracked hsScan files (c.move i sh l) begun' := by
  obtain ⟨new, hbytes, hfiles⟩ := joins_begins hj hl
  refine ⟨Function.update begun i (begun i ++ new), ?_, ?_⟩
  · intro j
    by_cases hji : j = i
    · subst hji
      rw [move_pc_self, Function.update_self, hbytes, h.1 j, List.flatMap_append]
    · rw [move_pc_of_ne c sh l hji, Function.update_of_ne hji, h.1 j]
  · have hbegun := sum_move (fun ps : List Path => (ps : Multiset Path)) ⟨(), begun⟩ i () (begun i ++ new)
    have hcurrent := sum_move (fun l : Local => (l.current : Multiset Path)) c i sh l
    have hfiles := congrArg (fun ps : List Path => (ps : Multiset Path)) hfiles
    simp only [Config.move, ← Multiset.coe_add] at hbegun hfiles
    rw [move_shared]
    apply add_right_cancel (b := (begun i : Multiset Path) + (c.pc i).current)
    calc ∑ j, (Function.update begun i (begun i ++ new) j : Multiset Path) +
          ((begun i : Multiset Path) + ((c.pc i).current : Multiset Path))
        = ∑ j, (begun j : Multiset Path) + (begun i + new) + (c.pc i).current := by
          rw [← hbegun]; abel
      _ = ((ranFiles c.shared.processor.log : Multiset Path) + (c.pc i).current + new) +
          ∑ j, ((c.pc j).current : Multiset Path) + begun i := by rw [h.2]; abel
      _ = (ranFiles sh.processor.log : Multiset Path) +
          (∑ j, ((c.pc j).current : Multiset Path) + l.current) + begun i := by rw [← hfiles]; abel
      _ = (ranFiles sh.processor.log : Multiset Path) +
          ∑ j, (((c.move i sh l).pc j).current : Multiset Path) +
          ((begun i : Multiset Path) + ((c.pc i).current : Multiset Path)) := by rw [← hcurrent]; abel

/-- `notify_all` is called when no worker is between its predicate and its sleep. -/
def JointReady (i : W) (c : Config W (Joint W) Local) : Prop :=
  NotifyReady i (c.map Joint.processor Local.control)

theorem guarded_traversal_of_joint (h : Runs (Joins hsScan files main) JointReady (launched root writes) c) :
    Runs (Moves main) NotifyReady (start root) (c.map Joint.processor Local.control) := by
  refine h.map Joint.processor Local.control (fun _ _ hg => hg) ?_
  intro i sh l sh' l' hstep
  cases hstep with
  | control _ _ h | executed _ _ h | flushed _ _ _ h => exact .inl h
  | _ => exact .inr ⟨rfl, rfl⟩

theorem tidy_run {guard : W → Config W (Joint W) Local → Prop}
    (h : Runs (Joins hsScan files main) guard (launched root writes) c)
    (hgood : ∀ p, (files p).Good hsScan) (hok : ∀ n, ¬ Fails (writes n)) : Tidy writes c :=
  h.invariant (Tidy writes) (fun _ _ _ _ ht _ hj => tidy_step ht hj hgood hok) (tidy_launched root writes)

theorem tracked_run [Fintype W] {guard : W → Config W (Joint W) Local → Prop}
    (h : Runs (Joins hsScan files main) guard (launched root writes) c)
    (hgood : ∀ p, (files p).Good hsScan) (hok : ∀ n, ¬ Fails (writes n)) :
    ∃ begun, Tracked hsScan files c begun := by
  refine (h.invariant (fun c => Tidy writes c ∧ ∃ begun, Tracked hsScan files c begun) ?_
    ⟨tidy_launched root writes, fun _ => [], ?_⟩).2
  · rintro c i sh l ⟨ht, begun, hb⟩ - hj
    exact ⟨tidy_step ht hj hgood hok, tracked_step hb hj (ht.fine i)⟩
  · simp [Tracked, launched, Local.coming, Local.current, start, ranFiles]

/-! ## When nobody can move -/

/-- What the system does when it wakes a sleeper without a reason. -/
def Idles (l l' : Local) : Prop := l.control = .waiting ∧ l'.control = .waiting

/-- No worker can move. -/
def Still (hsScan : Bytes → Option (List Nat)) (files : Path → FileRun) (main : W)
    (c : Config W (Joint W) Local) : Prop :=
  ∀ i sh l, Joins hsScan files main i c.shared (c.pc i) sh l → Idles (c.pc i) l

theorem Still.not_joins (h : Still hsScan files main c) {i : W} (hk : (c.pc i).control.Pipeline)
    {sh : Joint W} {l : Local} : ¬ Joins hsScan files main i c.shared (c.pc i) sh l := by
  intro hj
  rw [(h i sh l hj).1] at hk
  exact hk

theorem Local.Fine.pipeline {l : Local} (h : l.Fine) (hjob : l.job ≠ .idle) : l.control.Pipeline := by
  have hfits := h.job
  cases hj : l.job with
  | idle => exact absurd hj hjob
  | pushing todo ends | delivering todo ends =>
    rw [hj] at hfits
    obtain ⟨-, file, d, rest, span, found, hk⟩ := hfits
    rw [hk]
    trivial
  | flushing =>
    rw [hj] at hfits
    rw [hfits]
    trivial
  | thrown =>
    rw [hj] at hfits
    exact absurd hfits id

/-- Whoever has the sink can write on, so nobody has it. -/
theorem sink_free_of_still (ht : Tidy writes c) (h : Still hsScan files main c) :
    c.shared.sink.owner = none := by
  cases ho : c.shared.sink.owner with
  | none => rfl
  | some j =>
    have hw := (ht.mutex j).mpr ho
    have hjob : (c.pc j).job ≠ .idle := fun hj => (ht.accounted.account j).quiet (.inl hj) hw
    obtain ⟨s, k, hs⟩ := sinkMoves_writing j c.shared.sink hw
    exact absurd (.sink hs) (h.not_joins ((ht.fine j).pipeline hjob))

theorem idle_of_still (ht : Tidy writes c) (h : Still hsScan files main c) (i : W) :
    (c.pc i).job = .idle ∧ ¬ (c.pc i).control.Pipeline := by
  rcases pipeline_works hsScan files main i c.shared (ht.fine i) with
    hidle | ⟨hk, ⟨sh, l, hj⟩ | ⟨-, howned⟩⟩
  · exact hidle
  · exact absurd hj (h.not_joins hk)
  · exact absurd (sink_free_of_still ht h) howned

theorem work_leaves_waiting {i : W} {sh sh' : Shared W} : ¬ Work main i sh .waiting sh' .waiting := by
  rintro ⟨⟩

theorem no_work_of_still (ht : Tidy writes c) (h : Still hsScan files main c) (i : W) (p : Shared W)
    (k : Pc) : ¬ Work main i c.shared.processor (c.pc i).control p k := by
  intro hw
  obtain ⟨hjob, hk⟩ := idle_of_still ht h i
  obtain ⟨hfrom, hto⟩ := h i _ _ (.control hjob hk (.work hw))
  rw [hfrom, show k = .waiting from hto] at hw
  exact work_leaves_waiting hw

/-- A worker that is about to notify is held back only by one that can go to sleep. -/
theorem still_of_ready (ht : Tidy writes c)
    (h : ∀ i, JointReady i c → ∀ sh l, Joins hsScan files main i c.shared (c.pc i) sh l → Idles (c.pc i) l) :
    Still hsScan files main c := by
  have hsleep : ∀ j, (c.pc j).control ≠ .sleep := by
    intro j hj
    have hready : JointReady j c := notifyReady_of_quiet (by simp [Config.map, hj, Pc.notifies])
    have hjob : (c.pc j).job = .idle := by
      by_contra hjob
      have hk := (ht.fine j).pipeline hjob
      rw [hj] at hk
      exact hk
    have hw : Work main j c.shared.processor (c.pc j).control
        { c.shared.processor with mutex := none, sleepers := insert j c.shared.processor.sleepers }
        .waiting := by
      rw [hj]
      exact .sleep
    have hidles := h j hready _ _ (.control hjob (by rw [hj]; exact id) (.work hw))
    rw [Idles, hj] at hidles
    exact absurd hidles.1 (by simp)
  intro i sh l hj
  exact h i (fun _ => hsleep) sh l hj

/-- A worker at rest whose pipeline is at rest does not move. -/
theorem idles_of_resting {i : W} {sh sh' : Joint W} {l l' : Local} (hjob : l.job = .idle)
    (hsink : l.sink.Returned) (hk : Resting i sh.processor l.control)
    (h : Joins hsScan files main i sh l sh' l') : Idles l l' := by
  cases h with
  | control _ _ h =>
    rcases hk with hk | hk | ⟨hk, hi⟩
    · rw [hk] at h
      cases h with
      | work h => exact absurd h joining_stays
    · rw [hk] at h
      cases h with
      | work h => exact absurd h done_stays
    · refine ⟨hk, ?_⟩
      rw [hk] at h
      cases h with
      | work h => exact absurd h (sleeper_waits hi)
      | spurious _ => rfl
  | execute _ hc | flush _ hc => simp [Resting, hc] at hk
  | sink h => exact absurd h (not_moves_of_returned hsink)
  | room hj | full hj | delivered hj | rejected hj | executed hj | failed hj | flushed hj =>
    simp [hjob] at hj

/-! ## What is on stdout -/

/-- The files of the tree are shared out among the workers, and `out` of a worker is the matched lines
of its files. -/
def SharedOut [Fintype W] (hsScan : Bytes → Option (List Nat)) (files : Path → FileRun) (root : Dir)
    (begun : W → List Path) (out : W → Bytes) : Prop :=
  ∑ i, (begun i : Multiset Path) = (visitedFiles root.visits : Multiset Path) ∧
    ∀ i, out i = (begun i).flatMap fun p => text ((files p).lines hsScan)

omit [DecidableEq W] in
theorem Tracked.shared_out [Fintype W] {begun : W → List Path} (h : Tracked hsScan files c begun)
    (hidle : ∀ i, (c.pc i).job = .idle)
    (hlog : (c.shared.processor.log : Multiset Event) = eventsOf root.visits)
    (hgood : ∀ p, (files p).Good hsScan) :
    SharedOut hsScan files root begun fun i => (c.pc i).pushed := by
  obtain ⟨hbytes, hfiles⟩ := h
  refine ⟨?_, fun i => ?_⟩
  · have hnone : ∀ i, ((c.pc i).current : Multiset Path) = 0 := fun i => by simp [Local.current, hidle i]
    rw [hfiles, Finset.sum_eq_zero fun i _ => hnone i, add_zero]
    exact Multiset.coe_eq_coe.mpr (ranFiles_perm hlog)
  · have hcoming : (c.pc i).coming = [] := by simp [Local.coming, hidle i]
    have hi := hbytes i
    rw [hcoming, List.append_nil] at hi
    simp only [hi, pushes_text (hgood _)]

theorem Tidy.written_of_flushed (ht : Tidy writes c) {i : W} (hjob : (c.pc i).job = .idle)
    (hk : (c.pc i).control.Flushed) : of i c.shared.sink.log = (c.pc i).pushed := by
  have hkept : ¬ (c.pc i).Lost := by
    rintro ⟨-, e, todo, hfailed⟩
    exact (ht.fine i).sound e todo hfailed
  exact (written_iff (ht.accounted.account i) hjob hk).mpr hkept

theorem Tidy.kept_of_waiting (ht : Tidy writes c) {i : W} (hjob : (c.pc i).job = .idle)
    (hk : ¬ (c.pc i).control.Flushed) :
    of i c.shared.sink.log ++ (c.pc i).buffer = (c.pc i).pushed ∧ (c.pc i).buffer.length < bufferSize := by
  have ha := ht.accounted.account i
  have hroom := ht.room i
  simp only [Account, Local.Room, hjob] at ha hroom
  exact ⟨(ha.1 hk).2, hroom hk⟩

/-- What is left in the buffer of a worker that will not flush it. -/
def Local.kept (l : Local) : Bytes :=
  match l.control with
  | .waiting => l.buffer
  | _ => []

omit [DecidableEq W] in
/-- A worker at rest has left, with nothing in its buffer, or it sleeps. -/
theorem Local.kept_of_resting {l : Local} {i : W} {sh : Shared W} (h : Resting i sh l.control) :
    (l.control.Flushed ∧ l.kept = []) ∨ (l.control = .waiting ∧ i ∈ sh.sleepers ∧ l.kept = l.buffer) := by
  unfold Local.kept
  rcases h with hk | hk | ⟨hk, hi⟩ <;> simp only [hk]
  · exact .inl ⟨trivial, trivial⟩
  · exact .inl ⟨trivial, trivial⟩
  · exact .inr ⟨trivial, hi, trivial⟩

theorem Tidy.written (ht : Tidy writes c) (i : W) (hjob : (c.pc i).job = .idle)
    (hk : Resting i c.shared.processor (c.pc i).control) :
    of i c.shared.sink.log ++ (c.pc i).kept = (c.pc i).pushed ∧
      ((c.pc i).control.Flushed ∨ ((c.pc i).control = .waiting ∧ i ∈ c.shared.processor.sleepers ∧
        (c.pc i).kept.length < bufferSize)) := by
  rcases Local.kept_of_resting hk with ⟨hflushed, hkept⟩ | ⟨hwaits, hi, hkept⟩
  · rw [hkept, List.append_nil]
    exact ⟨ht.written_of_flushed hjob hflushed, .inl hflushed⟩
  · rw [hkept]
    obtain ⟨hbytes, hroom⟩ := ht.kept_of_waiting hjob (by rw [hwaits]; exact id)
    exact ⟨hbytes, .inr ⟨hwaits, hi, hroom⟩⟩

/-- Every file can be read and scanned, and no `write` fails. Then a run that cannot go on has begun
every file of the tree, once. Each worker has left and has printed the lines of its files, or it sleeps
and has kept the end of them, less than a buffer. -/
theorem halted_grep_keeps_its_buffers [Fintype W] (hgood : ∀ p, (files p).Good hsScan)
    (hok : ∀ n, ¬ Fails (writes n)) (h : Reaches (Joins hsScan files main) (launched root writes) c)
    (hstill : Still hsScan files main c) :
    c.shared.sink.out.bytes = c.shared.sink.log.map Prod.snd ∧
      (∃ begun, SharedOut hsScan files root begun fun i => of i c.shared.sink.log ++ (c.pc i).kept) ∧
      ∀ i, (c.pc i).control.Flushed ∨
        ((c.pc i).control = .waiting ∧ i ∈ c.shared.processor.sleepers ∧
          (c.pc i).kept.length < bufferSize) := by
  have ht := tidy_run h hgood hok
  have hidle := fun i => (idle_of_still ht hstill i).1
  obtain ⟨-, hlog, hrest⟩ := halted (traversal_of_joint h) (no_work_of_still ht hstill)
  obtain ⟨begun, hbegun⟩ := tracked_run h hgood hok
  have hwritten := fun i => ht.written i (hidle i) (hrest i)
  refine ⟨ht.accounted.bytes, ⟨begun, ?_⟩, fun i => (hwritten i).2⟩
  simp only [fun i => (hwritten i).1]
  exact hbegun.shared_out hidle hlog hgood

end Run

/-- The file `a` and an empty directory. -/
def fileAndDir : Dir := ⟨[], [.reg [97] true, .dir [98] true []]⟩

theorem good_textA (p : Path) : (textA p).Good scanA := rfl

/-- The main thread has run on the file and is on its way to sleep when thread 1, with the directory, stops
grep. The match stays in the buffer of the main thread. -/
theorem halted_grep_with_a_match_in_a_buffer : ∃ c : Config (Fin 2) (Joint (Fin 2)) Local,
    Reaches (Joins scanA textA 0) (launched fileAndDir fun _ => .ok 2) c ∧ Still scanA textA 0 c ∧
      c.shared.sink.out.bytes = [] ∧ (c.pc 0).kept = [97, 10] ∧
      ∃ begun, SharedOut scanA textA fileAndDir begun fun i => of i c.shared.sink.log ++ (c.pc i).kept := by
  have h : Reaches (Joins scanA textA (0 : Fin 2)) (launched fileAndDir fun _ => .ok 2)
    (launched fileAndDir fun _ => .ok 2) := .refl
  have h := h.step 0 (.control rfl id (.work (.testRunning rfl)))
  have h := h.step 0 (.control rfl id (.work (.lock rfl)))
  have h := h.step 0 (.control rfl id (.work (.predTrue (.inl (List.cons_ne_nil _ _)))))
  have h := h.step 0 (.control rfl id (.work (.goOn rfl)))
  have h := h.step 0 (.control rfl id (.work (.pop rfl)))
  have h := h.step 0 (.control rfl id
    (.work (@Work.batch _ _ _ _ _ fileAndDir fileAndDir.entries [] (List.cons_ne_nil _ _))))
  have h := h.step 0 (.control rfl id (.work .openFile))
  have h := h.step 0 (.execute rfl rfl)
  have h := h.step 0 (@Joins.room _ _ _ _ _ _ _ _ [97] [[10]] true rfl (by decide))
  have h := h.step 0 (@Joins.room _ _ _ _ _ _ _ _ [10] [] true rfl (by decide))
  have h := h.step 0 (.executed rfl rfl (.work .execute))
  have h := h.step 0 (.control rfl id (.work .closeFile))
  have h := h.step 0 (.control rfl id (.work (.openDir rfl)))
  have h := h.step 0 (.control rfl id (.work .scanned))
  have h := h.step 0 (.control rfl id (.work .add))
  have h := h.step 0 (.control rfl id (.work (.appendLock rfl)))
  have h := h.step 0 (.control rfl id (.work .append))
  have h := h.step 0 (.control rfl id (.work (.notifyNone rfl)))
  have h := h.step 0 (.control rfl id (.work .listed))
  have h := h.step 0 (.control rfl id (.work .close))
  have h := h.step 0 (.control rfl id (.work (.sub (by decide))))
  have h := h.step 1 (.control rfl id (.work (.testRunning rfl)))
  have h := h.step 1 (.control rfl id (.work (.lock rfl)))
  have h := h.step 1 (.control rfl id (.work (.predTrue (.inl (List.cons_ne_nil _ _)))))
  have h := h.step 1 (.control rfl id (.work (.goOn rfl)))
  have h := h.step 1 (.control rfl id (.work (.pop rfl)))
  have h := h.step 0 (.control rfl id (.work (.testRunning rfl)))
  have h := h.step 0 (.control rfl id (.work (.lock rfl)))
  have h := h.step 0 (.control rfl id (.work (.predFalse rfl rfl)))
  have h := h.step 1 (.control rfl id (.work .listed))
  have h := h.step 1 (.control rfl id (.work .close))
  have h := h.step 1 (.control rfl id (.work (.subLast rfl)))
  have h := h.step 1 (.control rfl id (.work .store))
  have h := h.step 1 (.control rfl id (.work .notifyAll))
  have h := h.step 0 (.control rfl id (.work .sleep))
  have h := h.step 1 (.control rfl id (.work (.testStopped rfl)))
  have h := h.step 1 (.flush rfl rfl)
  have h := h.step 1 (.sink (.lock rfl))
  have h := h.step 1 (.sink (.done rfl))
  have h := h.step 1 (.flushed rfl rfl trivial (.work (.flush (by decide))))
  refine ⟨_, h, ?still, rfl, rfl, (halted_grep_keeps_its_buffers good_textA ?_ h ?still).2.1⟩
  · exact Fin.forall_fin_two.mpr
      ⟨fun _ _ => idles_of_resting rfl trivial (.inr (.inr ⟨rfl, by decide⟩)),
        fun _ _ => idles_of_resting rfl trivial (.inr (.inl rfl))⟩
  · simp [Fails]

/-! ## Without lost wakeups -/

section Ready
variable {W : Type} [DecidableEq W] [Fintype W] {hsScan : Bytes → Option (List Nat)}
  {files : Path → FileRun} {main : W} {root : Dir} {writes : Schedule} {c : Config W (Joint W) Local}

/-- When no wakeup was lost, a run that cannot go on is over. -/
theorem ended_of_still (h : Runs (Joins hsScan files main) JointReady (launched root writes) c)
    (ht : Tidy writes c) (hstill : Still hsScan files main c) : Ended c := by
  have hrun := guarded_traversal_of_joint h
  have hno := no_work_of_still ht hstill
  obtain ⟨hr, -, hrest⟩ := halted hrun.reaches hno
  have hawake := sleepers_of_halted hrun hr hno
  intro i
  refine ⟨(idle_of_still ht hstill i).1, ?_⟩
  rcases Local.kept_of_resting (hrest i) with ⟨hflushed, -⟩ | ⟨-, hi, -⟩
  · exact hflushed
  · simp [hawake] at hi

/-- What a run that is over has put on stdout. -/
theorem output_of_ended {guard : W → Config W (Joint W) Local → Prop}
    (hgood : ∀ p, (files p).Good hsScan) (hok : ∀ n, ¬ Fails (writes n))
    (h : Runs (Joins hsScan files main) guard (launched root writes) c) (hend : Ended c) :
    c.shared.sink.out.bytes = c.shared.sink.log.map Prod.snd ∧
      ∃ begun, SharedOut hsScan files root begun fun i => of i c.shared.sink.log := by
  have ht := tidy_run h hgood hok
  have hidle := fun i => (hend i).1
  obtain ⟨begun, hbegun⟩ := tracked_run h hgood hok
  refine ⟨ht.accounted.bytes, begun, ?_⟩
  simp only [fun i => ht.written_of_flushed (hidle i) (hend i).2]
  exact hbegun.shared_out hidle (log_of_ended h.reaches hend) hgood

/-- Where every file can be read and scanned, no `write` fails and no wakeup is lost, grep does not get
stuck: a run that cannot go on has ended. Every file of the tree was begun by one worker, once, and
stdout is the bytes of the workers, those of each worker being the matched lines of its files. -/
theorem grep_prints_every_match (hgood : ∀ p, (files p).Good hsScan)
    (hok : ∀ n, ¬ Fails (writes n))
    (h : Runs (Joins hsScan files main) JointReady (launched root writes) c)
    (hno : ∀ i, JointReady i c → ∀ sh l, Joins hsScan files main i c.shared (c.pc i) sh l →
      Idles (c.pc i) l) :
    Ended c ∧ c.shared.sink.out.bytes = c.shared.sink.log.map Prod.snd ∧
      ∃ begun, SharedOut hsScan files root begun fun i => of i c.shared.sink.log := by
  have ht := tidy_run h hgood hok
  have hend := ended_of_still h ht (still_of_ready ht hno)
  exact ⟨hend, output_of_ended hgood hok h hend⟩

end Ready

theorem ready_alone (c : Config Unit (Joint Unit) Local) (i : Unit) : JointReady i c := by
  intro hn j hj
  rw [show i = j from rfl, hj] at hn
  simp [Pc.notifies] at hn

/-- A worker that is alone loses no wakeup. -/
theorem guarded_alone {act : Act Unit (Joint Unit) Local} {c d : Config Unit (Joint Unit) Local}
    (h : Reaches act c d) : Runs act JointReady c d :=
  Runs.of_unmarked (fun _ => False) (fun _ _ _ _ hf _ => hf)
    (fun c i _ _ hg _ => hg (ready_alone c i)) h id

theorem grep_prints_the_match_of_one_file : ∃ c : Config Unit (Joint Unit) Local,
    Runs (Joins scanA textA ()) JointReady (launched oneFile fun _ => .ok 2) c ∧ Ended c ∧
      c.shared.sink.out.bytes = [97, 10] ∧
      ∃ begun, SharedOut scanA textA oneFile begun fun i => of i c.shared.sink.log := by
  have h := run_to_flush fun _ => .ok 2
  have h := alone_step h (.sink (.pass rfl))
  have h := alone_step h (.sink (.done rfl))
  have h := alone_step h (.flushed rfl rfl trivial (.work .flushMain))
  have h := alone_step h (.control rfl id (.work .dtorStore))
  have h := alone_step h (.control rfl id (.work .dtorNotify))
  have hguarded := guarded_alone h
  obtain ⟨hend, -, hout⟩ := grep_prints_every_match good_textA (by simp [Fails]) hguarded
    fun _ _ _ _ => idles_of_resting rfl trivial (.inl rfl)
  exact ⟨_, hguarded, hend, rfl, hout⟩

end Omnipp.Grep
