import Omnipp.Grep.EndToEnd
import Omnipp.Grep.Progress

/-!
# One worker

Where `hardware_concurrency()` is 1 the thread of `run` is the only worker. Then the queue is that of a
breadth-first search: neither the buffers of `getdents64` nor the `write` calls change what is printed, or
in which order.
-/

open Omnipp.Sink Omnipp.Threads Omnipp.Transform

namespace Omnipp.Grep

/-! ## The order of a breadth-first search -/

def Entry.fileAt (p : Path) : Entry → List Path
  | .reg name opens => if opens then [p ++ [name]] else []
  | _ => []

def Entry.dirAt (d : Dir) : Entry → List Dir
  | .dir name opens entries => if opens && !isDot name then [d.child name entries] else []
  | _ => []

/-- The regular files among some entries of `d`. -/
def Dir.filesIn (d : Dir) (es : List Entry) : List Path := es.flatMap (Entry.fileAt d.path)

/-- The directories among some entries of `d`. -/
def Dir.dirsIn (d : Dir) (es : List Entry) : List Dir := es.flatMap (Entry.dirAt d)

theorem directories_dirAt (d : Dir) (e : Entry) :
    ((e.dirAt d).map Dir.directories).sum = (e.visits d.path).countP Visit.isDir := by
  cases e with
  | reg name opens => cases opens <;> rfl
  | dir name opens entries =>
    simp only [Entry.dirAt, Entry.visits]
    split
    · simp [Dir.directories, Dir.visits, Dir.child]
    · rfl
  | other name => rfl

theorem directories_dirsIn (d : Dir) (es : List Entry) :
    ((d.dirsIn es).map Dir.directories).sum = (visitsOf d.path es).countP Visit.isDir := by
  induction es with
  | nil => rfl
  | cons e es ih =>
    rw [Dir.dirsIn, List.flatMap_cons, List.map_append, List.sum_append, directories_dirAt, ← Dir.dirsIn, ih,
      visitsOf, List.countP_append]

theorem directories_eq (d : Dir) :
    d.directories = ((d.dirsIn d.entries).map Dir.directories).sum + 1 := by
  rw [directories_dirsIn, Dir.directories, Dir.visits, List.countP_cons]
  rfl

/-- The files of a breadth-first search that has these directories in its queue. -/
def breadthFirst : List Dir → List Path
  | [] => []
  | d :: queue => d.filesIn d.entries ++ breadthFirst (queue ++ d.dirsIn d.entries)
termination_by queue => (queue.map Dir.directories).sum
decreasing_by
  have hd := directories_eq d
  simp only [List.map_append, List.sum_append, List.map_cons, List.sum_cons]
  omega

/-! ## All files, once -/

def Dir.files (d : Dir) : List Path := visitedFiles d.visits

theorem files_of_entry (d : Dir) (e : Entry) :
    visitedFiles (e.visits d.path) = e.fileAt d.path ++ (e.dirAt d).flatMap Dir.files := by
  cases e with
  | reg name opens => cases opens <;> rfl
  | dir name opens entries =>
    simp only [Entry.fileAt, Entry.dirAt, Entry.visits]
    split
    · simp [Dir.files, Dir.visits, Dir.child]
    · rfl
  | other name => rfl

theorem files_of_entries (d : Dir) (es : List Entry) :
    (visitedFiles (visitsOf d.path es)).Perm (d.filesIn es ++ (d.dirsIn es).flatMap Dir.files) := by
  induction es with
  | nil => exact .refl _
  | cons e es ih =>
    have hsplit : visitedFiles (visitsOf d.path (e :: es)) =
        e.fileAt d.path ++ (e.dirAt d).flatMap Dir.files ++ visitedFiles (visitsOf d.path es) := by
      rw [← files_of_entry, visitsOf, visitedFiles, List.flatMap_append]
      rfl
    rw [hsplit]
    simp only [Dir.filesIn, Dir.dirsIn, List.flatMap_cons, List.flatMap_append, List.append_assoc] at ih ⊢
    refine List.Perm.append_left _ ((List.Perm.append_left _ ih).trans ?_)
    rw [← List.append_assoc, ← List.append_assoc]
    exact List.perm_append_comm.append_right _

theorem breadthFirst_perm (queue : List Dir) :
    (breadthFirst queue).Perm (queue.flatMap Dir.files) := by
  induction queue using breadthFirst.induct with
  | case1 => simp [breadthFirst]
  | case2 d queue ih =>
    have hd : d.files = visitedFiles (visitsOf d.path d.entries) := rfl
    rw [breadthFirst, List.flatMap_cons, hd]
    rw [List.flatMap_append] at ih
    calc List.Perm (d.filesIn d.entries ++ breadthFirst (queue ++ d.dirsIn d.entries))
          (d.filesIn d.entries ++ (queue.flatMap Dir.files ++ (d.dirsIn d.entries).flatMap Dir.files)) :=
          ih.append_left _
      List.Perm _
          (d.filesIn d.entries ++ ((d.dirsIn d.entries).flatMap Dir.files ++ queue.flatMap Dir.files)) :=
          List.perm_append_comm.append_left _
      List.Perm _ (visitedFiles (visitsOf d.path d.entries) ++ queue.flatMap Dir.files) := by
          rw [← List.append_assoc]
          exact (files_of_entries d d.entries).symm.append_right _

/-! ## The place of a worker -/

/-- What a worker that is alone will run on, in this order. -/
def Pc.order (queue : List Dir) : Pc → List Path
  | .execute file d rest span found =>
    file :: (d.filesIn (span ++ rest) ++ breadthFirst (queue ++ found ++ d.dirsIn (span ++ rest)))
  | .closeFile _ d rest span found | .scan d rest span found =>
    d.filesIn (span ++ rest) ++ breadthFirst (queue ++ found ++ d.dirsIn (span ++ rest))
  | .add d rest found | .appendLock d rest found | .append d rest found =>
    d.filesIn rest ++ breadthFirst (queue ++ found ++ d.dirsIn rest)
  | .notifyOne d rest | .getdents d rest => d.filesIn rest ++ breadthFirst (queue ++ d.dirsIn rest)
  | _ => breadthFirst queue

theorem filesIn_skipped {d : Dir} {e : Entry} (h : e.skipped = true) (es : List Entry) :
    d.filesIn (e :: es) = d.filesIn es ∧ d.dirsIn (e :: es) = d.dirsIn es := by
  unfold Dir.filesIn Dir.dirsIn
  cases e with
  | reg name opens => simp_all [Entry.fileAt, Entry.dirAt, Entry.skipped]
  | dir name opens entries => cases opens <;> simp_all [Entry.fileAt, Entry.dirAt, Entry.skipped]
  | other name => simp [Entry.fileAt, Entry.dirAt]

/-! ## One step -/

section Step
variable {W : Type} [DecidableEq W] {main i : W} {sh sh' : Shared W} {k k' : Pc}

theorem moves_order (h : Moves main i sh k sh' k') :
    ranFiles sh'.log ++ k'.order sh'.queue = ranFiles sh.log ++ k.order sh.queue := by
  cases h with
  | spurious _ => rfl
  | work h =>
    cases h with
    | pop hq => simp [ranFiles, Event.ranFile, Pc.order, hq, breadthFirst]
    | batch _ => simp [Pc.order]
    | listed => simp [ranFiles, Event.ranFile, Pc.order, Dir.filesIn, Dir.dirsIn]
    | @skip _ _ d rest e span found hs =>
      simp only [Pc.order, List.cons_append, filesIn_skipped hs]
    | openDir hd => simp [Pc.order, Dir.filesIn, Dir.dirsIn, Entry.fileAt, Entry.dirAt, hd]
    | openFile => simp [Pc.order, Dir.filesIn, Dir.dirsIn, Entry.fileAt, Entry.dirAt]
    | execute => simp [ranFiles, Event.ranFile, Pc.order]
    | closeFile => simp [ranFiles, Event.ranFile, Pc.order]
    | scanned => simp [Pc.order]
    | append => simp [Pc.order]
    | close => simp [ranFiles, Event.ranFile, Pc.order]
    | _ => rfl

end Step

theorem order_of_flushed {k : Pc} (h : k.Flushed) (queue : List Dir) :
    k.order queue = breadthFirst queue := by
  cases k with
  | dtorStore | dtorNotify | joining | done => rfl
  | _ => exact absurd h id

theorem Pc.file_starts (k : Pc) (queue : List Dir) : k.file <+: k.order queue := by
  cases k with
  | execute file d rest span found => exact ⟨_, rfl⟩
  | _ => exact List.nil_prefix

theorem Local.current_starts (l : Local) (queue : List Dir) : l.current <+: l.control.order queue := by
  unfold Local.current
  split
  · exact l.control.file_starts queue
  · exact l.control.file_starts queue
  · exact List.nil_prefix

/-- What is on stdout of a worker is the start of what its `Batch` was given. -/
theorem Account.starts {written : Bytes} {l : Local} (h : Account written l) (hl : l.Fine) :
    written <+: l.pushed := by
  have howed : Owed written l.pushed l.sink ∨ written ++ l.buffer = l.pushed := by
    unfold Account at h
    have hjob := hl.job
    split at h
    · by_cases hk : l.control.Flushed
      · exact .inl (h.2 hk).2
      · exact .inr (h.1 hk).2
    · exact .inr h.2
    · exact .inl h
    · exact .inl h
    · rename_i hthrown
      rw [hthrown] at hjob
      exact absurd hjob id
  rcases howed with howed | hheld
  · cases hs : l.sink with
    | idle todo =>
      rw [hs] at howed
      exact ⟨_, howed⟩
    | writing data amount todo =>
      rw [hs] at howed
      exact ⟨_, howed⟩
    | failed e todo => exact absurd hs (hl.sound e todo)
  · exact ⟨_, hheld⟩

/-! ## Every run -/

section Run
variable {hsScan : Bytes → Option (List Nat)} {files : Path → FileRun} {root : Dir} {writes : Schedule}
  {c : Config Unit (Joint Unit) Local}

theorem order_run {c : Config Unit (Shared Unit) Pc} (h : Reaches (Moves ()) (start root) c) :
    ranFiles c.shared.log ++ (c.pc ()).order c.shared.queue = breadthFirst [root] := by
  refine h.invariant
    (fun c => ranFiles c.shared.log ++ (c.pc ()).order c.shared.queue = breadthFirst [root]) ?_ rfl
  rintro c ⟨⟩ sh k hc - hm
  rw [move_shared, move_pc_self, moves_order hm, hc]

/-- The lines of some files. -/
def linesAt (hsScan : Bytes → Option (List Nat)) (files : Path → FileRun) (ps : List Path) : Bytes :=
  ps.flatMap fun p => text ((files p).lines hsScan)

/-- `Batch` is given the files in the order of the log. -/
theorem pushed_run (h : Reaches (Joins hsScan files ()) (launched root writes) c)
    (hgood : ∀ p, (files p).Good hsScan) (hok : ∀ n, ¬ Fails (writes n)) :
    (c.pc ()).pushed ++ (c.pc ()).coming =
      linesAt hsScan files (ranFiles c.shared.processor.log ++ (c.pc ()).current) := by
  refine (h.invariant (fun c => Tidy writes c ∧ (c.pc ()).pushed ++ (c.pc ()).coming =
    linesAt hsScan files (ranFiles c.shared.processor.log ++ (c.pc ()).current)) ?_
    ⟨tidy_launched root writes, rfl⟩).2
  rintro c ⟨⟩ sh l ⟨ht, hc⟩ - hj
  obtain ⟨new, hbytes, hfiles⟩ := joins_begins hj (ht.fine ())
  refine ⟨tidy_step ht hj hgood hok, ?_⟩
  rw [move_shared, move_pc_self, hbytes, hfiles, hc]
  simp only [linesAt, List.flatMap_append, pushes_text (hgood _)]

theorem queue_of_ended (h : Reaches (Joins hsScan files ()) (launched root writes) c) (hend : Ended c) :
    c.shared.processor.queue = [] := by
  have hinv := (halting_run (traversal_of_joint h)).inv
  have hr := hinv.left () (left_of_flushed (hend ()).2)
  exact (hinv.empty (hinv.stopped hr)).1

theorem of_alone {α : Type} (log : List (Unit × α)) : of () log = log.map Prod.snd := by
  simp [of]

/-- With one worker, stdout is at every moment a start of the lines of a breadth-first search, and they are
complete when the worker cannot go on, which it can until it has returned. The search has every file of the
tree, once. -/
theorem alone_grep_is_breadth_first (hgood : ∀ p, (files p).Good hsScan) (hok : ∀ n, ¬ Fails (writes n))
    (h : Reaches (Joins hsScan files ()) (launched root writes) c) :
    (breadthFirst [root]).Perm (visitedFiles root.visits) ∧
      c.shared.sink.out.bytes <+: linesAt hsScan files (breadthFirst [root]) ∧
      (Still hsScan files () c →
        Ended c ∧ c.shared.sink.out.bytes = linesAt hsScan files (breadthFirst [root])) := by
  have ht := tidy_run h hgood hok
  have horder : ranFiles c.shared.processor.log ++ (c.pc ()).control.order c.shared.processor.queue =
      breadthFirst [root] := order_run (traversal_of_joint h)
  have hpushed := pushed_run h hgood hok
  have hbytes : c.shared.sink.out.bytes = of () c.shared.sink.log := by
    rw [ht.accounted.bytes, of_alone]
  refine ⟨by simpa [Dir.files] using breadthFirst_perm [root], ?_, fun hstill => ?_⟩
  · obtain ⟨later, hlater⟩ := (c.pc ()).current_starts c.shared.processor.queue
    have hstart : (c.pc ()).pushed <+: linesAt hsScan files (breadthFirst [root]) := by
      refine ⟨(c.pc ()).coming ++ linesAt hsScan files later, ?_⟩
      rw [← horder, ← List.append_assoc, hpushed]
      simp only [← hlater, linesAt, List.flatMap_append, List.append_assoc]
    rw [hbytes]
    exact ((ht.accounted.account ()).starts (ht.fine ())).trans hstart
  · have hend := ended_of_still (guarded_alone h) ht hstill
    refine ⟨hend, ?_⟩
    have hran : ranFiles c.shared.processor.log = breadthFirst [root] := by
      rw [← horder, order_of_flushed (hend ()).2, queue_of_ended h hend, breadthFirst, List.append_nil]
    have hidle := (hend ()).1
    have hcurrent : (c.pc ()).current = [] := by simp [Local.current, hidle]
    have hcoming : (c.pc ()).coming = [] := by simp [Local.coming, hidle]
    rw [hcurrent, hcoming, List.append_nil, List.append_nil, hran] at hpushed
    rw [hbytes, ht.written_of_flushed hidle (hend ()).2, hpushed]

end Run

theorem alone_grep_of_one_file : ∃ c : Config Unit (Joint Unit) Local,
    Reaches (Joins scanA textA ()) (launched oneFile fun _ => .ok 2) c ∧ Ended c ∧
      c.shared.sink.out.bytes = [97, 10] ∧
      c.shared.sink.out.bytes = linesAt scanA textA (breadthFirst [oneFile]) := by
  have h := run_to_flush fun _ => .ok 2
  have h := alone_step h (.sink (.pass rfl))
  have h := alone_step h (.sink (.done rfl))
  have h := alone_step h (.flushed rfl rfl trivial (.work .flushMain))
  have h := alone_step h (.control rfl id (.work .dtorStore))
  have h := alone_step h (.control rfl id (.work .dtorNotify))
  obtain ⟨-, -, hlast⟩ := alone_grep_is_breadth_first good_textA (by simp [Fails]) h
  obtain ⟨hend, hbytes⟩ := hlast fun _ _ _ => idles_of_resting rfl trivial (.inl rfl)
  exact ⟨_, h, hend, rfl, hbytes⟩

end Omnipp.Grep
