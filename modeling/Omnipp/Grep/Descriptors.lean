import Omnipp.Grep.Halted
import Omnipp.Grep.Progress
import Mathlib.Data.Nat.Digits.Lemmas

/-!
# Descriptors

A directory in `queue_` is open already, and so are those in a worker's `local_dir_queue`. When the
process has no descriptor left, `openat` fails with EMFILE and the worker goes on with the next
entry, as it does for an entry that it may not open.
-/

open Omnipp.Threads

namespace Omnipp.Grep

/-! ## What is open -/

/-- The directory that a thread reads, and those that it has found. -/
def Pc.openDirs : Pc → Nat
  | .getdents .. | .notifyOne .. | .close _ => 1
  | .scan _ _ _ found | .execute _ _ _ _ found | .closeFile _ _ _ _ found | .add _ _ found
  | .appendLock _ _ found | .append _ _ found => 1 + found.length
  | _ => 0

/-- `next_file`, from its `openat` to its `close`. -/
def Pc.openFiles : Pc → Nat
  | .execute .. | .closeFile .. => 1
  | _ => 0

def Pc.fds (k : Pc) : Nat := k.openDirs + k.openFiles

/-- The descriptors that the workers have, beside those the process started with. -/
def openFds {W : Type} [Fintype W] (c : Config W (Shared W) Pc) : Nat :=
  c.shared.queue.length + ∑ i, (c.pc i).fds

/-- The next `openat` would succeed if there is a descriptor for it. -/
def Pc.opening : Pc → Bool
  | .scan _ _ (e :: _) _ => !e.skipped
  | _ => false

theorem openFiles_le (k : Pc) : k.openFiles ≤ 1 ∧ k.openFiles ≤ k.openDirs := by
  cases k <;> simp [Pc.openFiles, Pc.openDirs]

section Step
variable {W : Type} [DecidableEq W] {main i : W} {sh sh' : Shared W} {k k' : Pc}

theorem moves_fds (h : Moves main i sh k sh' k') (hk : k.opening = false) :
    sh'.queue.length + k'.fds ≤ sh.queue.length + k.fds := by
  cases h with
  | spurious _ => exact le_rfl
  | work h =>
    cases h with
    | pop hq => simp [hq, Pc.fds, Pc.openDirs, Pc.openFiles]
    | openDir hdot => simp [Pc.opening, Entry.skipped, hdot] at hk
    | openFile => simp [Pc.opening, Entry.skipped] at hk
    | append => simp only [Pc.fds, Pc.openDirs, Pc.openFiles, List.length_append]; omega
    | _ => simp [Pc.fds, Pc.openDirs, Pc.openFiles]

theorem moves_fds_of_opening (h : Moves main i sh k sh' k') (hk : k.opening = true) :
    sh'.queue.length + k'.fds = sh.queue.length + k.fds + 1 := by
  cases h with
  | spurious _ => simp [Pc.opening] at hk
  | work h =>
    cases h with
    | skip hs => simp [Pc.opening, hs] at hk
    | openDir _ =>
      simp only [Pc.fds, Pc.openDirs, Pc.openFiles, List.length_append, List.length_singleton]
      omega
    | openFile => simp only [Pc.fds, Pc.openDirs, Pc.openFiles]; omega
    | _ => simp [Pc.opening] at hk

theorem opening_works (main i : W) (sh : Shared W) (hk : k.opening = true) :
    ∃ sh' k', Work main i sh k sh' k' := by
  cases k with
  | scan d rest span found => exact scan_works main i sh d rest span found
  | _ => simp [Pc.opening] at hk

theorem scan_of_opening (hk : k.opening = true) :
    ∃ d rest e span found, k = .scan d rest (e :: span) found ∧ e.skipped = false := by
  cases k with
  | scan d rest span found =>
    cases span with
    | nil => simp [Pc.opening] at hk
    | cons e span => exact ⟨d, rest, e, span, found, rfl, by simpa [Pc.opening] using hk⟩
  | _ => simp [Pc.opening] at hk

variable [Fintype W]

theorem openFds_move (c : Config W (Shared W) Pc) (i : W) (sh : Shared W) (k : Pc) :
    openFds (c.move i sh k) + (c.shared.queue.length + (c.pc i).fds) =
      openFds c + (sh.queue.length + k.fds) := by
  have hsum := sum_move Pc.fds c i sh k
  simp only [openFds, move_shared]
  omega

end Step

/-! ## At most every directory, and a file for each worker -/

def Event.isClosed : Event → Bool
  | .closed _ => true
  | _ => false

/-- The directories that somebody still has to close. -/
def toClose (s : Multiset Event) : Nat := s.countP fun e => e.isClosed

theorem toClose_add (s t : Multiset Event) : toClose (s + t) = toClose s + toClose t :=
  Multiset.countP_add _ s t

theorem toClose_sum {ι : Type} [Fintype ι] (f : ι → Multiset Event) :
    toClose (∑ i, f i) = ∑ i, toClose (f i) :=
  map_sum (Multiset.countPAddMonoidHom fun e : Event => e.isClosed) f Finset.univ

@[simp] theorem toClose_closed (p : Path) : toClose {.closed p} = 1 := rfl

theorem toClose_eventsOf (vs : List Visit) : toClose (eventsOf vs) = vs.countP Visit.isDir := by
  induction vs with
  | nil => rfl
  | cons v vs ih =>
    rw [eventsOf_cons, toClose_add, ih, List.countP_cons]
    cases v with
    | dir p => exact Nat.add_comm _ _
    | file p => exact Nat.zero_add _

theorem toClose_dir (d : Dir) : 1 ≤ toClose d.todo := by
  rw [Dir.todo_eq, toClose_add, toClose_add, toClose_add, toClose_closed]
  omega

theorem length_le_toClose (ds : List Dir) : ds.length ≤ toClose (ds.map Dir.todo).sum := by
  induction ds with
  | nil => exact Nat.zero_le _
  | cons d ds ih =>
    have hd := toClose_dir d
    rw [List.map_cons, List.sum_cons, toClose_add, List.length_cons]
    omega

theorem openDirs_le_toClose (k : Pc) : k.openDirs ≤ toClose k.todo := by
  cases k with
  | scan d rest span found | execute file d rest span found | closeFile file d rest span found
  | add d rest found | appendLock d rest found | append d rest found =>
    have hfound := length_le_toClose found
    simp only [Pc.openDirs, Pc.todo, toClose_add, toClose_closed]
    omega
  | getdents d rest | notifyOne d rest =>
    simp only [Pc.openDirs, Pc.todo, toClose_add, toClose_closed]
    omega
  | close d => exact le_rfl
  | _ => exact Nat.zero_le _

section Run
variable {W : Type} [DecidableEq W] [Fintype W] {main : W} {root : Dir} {c : Config W (Shared W) Pc}

theorem openDirs_le_directories (h : Reaches (Moves main) (start root) c) :
    c.shared.queue.length + ∑ i, (c.pc i).openDirs ≤ root.directories := by
  have htodo : toClose root.todo = toClose (books c.shared) + ∑ i, toClose (c.pc i).todo := by
    rw [todo_run h, toClose_add, toClose_sum]
  have hqueue : c.shared.queue.length ≤ toClose (books c.shared) := by
    have := length_le_toClose c.shared.queue
    rw [books, toClose_add]
    omega
  have hpcs : ∑ i, (c.pc i).openDirs ≤ ∑ i, toClose (c.pc i).todo :=
    Finset.sum_le_sum fun i _ => openDirs_le_toClose (c.pc i)
  rw [Dir.todo, toClose_eventsOf] at htodo
  unfold Dir.directories
  omega

theorem openFds_le (h : Reaches (Moves main) (start root) c) :
    openFds c ≤ root.directories + min (Fintype.card W) root.directories := by
  have hdirs := openDirs_le_directories h
  have hone : ∑ i, (c.pc i).openFiles ≤ Fintype.card W := by
    refine (Finset.sum_le_sum fun i _ => (openFiles_le (c.pc i)).1).trans ?_
    simp
  have hmany : ∑ i, (c.pc i).openFiles ≤ ∑ i, (c.pc i).openDirs :=
    Finset.sum_le_sum fun i _ => (openFiles_le (c.pc i)).2
  simp only [openFds, Pc.fds, Finset.sum_add_distrib]
  omega

end Run

/-! ## Under a limit -/

section Limit
variable {W : Type} [DecidableEq W] [Fintype W]

/-- A run of the workers with at most `limit` descriptors. `dropped` counts the entries that were
skipped because `openat` had none left. -/
inductive LimitedRun (limit : Nat) (main : W) (c₀ : Config W (Shared W) Pc) :
    Nat → Config W (Shared W) Pc → Prop
  | refl : LimitedRun limit main c₀ 0 c₀
  | moves {dropped c} (i : W) {sh : Shared W} {k : Pc} (h : LimitedRun limit main c₀ dropped c)
      (hroom : (c.pc i).opening = true → openFds c < limit)
      (hm : Moves main i c.shared (c.pc i) sh k) : LimitedRun limit main c₀ dropped (c.move i sh k)
  | emfile {dropped c} (i : W) {d : Dir} {rest : List Entry} {e : Entry} {span : List Entry}
      {found : List Dir} (h : LimitedRun limit main c₀ dropped c) (hfull : limit ≤ openFds c)
      (hpc : c.pc i = .scan d rest (e :: span) found) (he : e.skipped = false) :
      LimitedRun limit main c₀ (dropped + 1) (c.move i c.shared (.scan d rest span found))

variable {main : W} {root : Dir} {limit dropped : Nat} {c : Config W (Shared W) Pc}

/-- With room for every descriptor, nothing is dropped. -/
theorem LimitedRun.reaches (h : LimitedRun limit main (start root) dropped c)
    (hroom : root.directories + min (Fintype.card W) root.directories ≤ limit) :
    dropped = 0 ∧ Reaches (Moves main) (start root) c := by
  induction h with
  | refl => exact ⟨rfl, .refl⟩
  | moves i _ _ hm ih => exact ⟨ih.1, ih.2.step i hm⟩
  | @emfile _ c i d rest e span found _ hfull hpc he ih =>
    -- Without the limit, the `openat` leads to a state with one more descriptor.
    have hopening : (c.pc i).opening = true := by simp [hpc, Pc.opening, he]
    obtain ⟨sh, k, hw⟩ := opening_works main i c.shared hopening
    have hmore := moves_fds_of_opening (.work hw) hopening
    have hmove := openFds_move c i sh k
    have hmax := openFds_le (ih.2.step i (.work hw))
    omega

/-- A run that needs too many descriptors meets the limit on its way. -/
theorem limited_of_reaches (h : Reaches (Moves main) (start root) c) (limit : Nat) :
    (LimitedRun limit main (start root) 0 c ∧ openFds c ≤ max limit 1) ∨
      ∃ c', LimitedRun limit main (start root) 1 c' := by
  induction h with
  | refl => exact .inl ⟨.refl, by simp [openFds, start, Pc.fds, Pc.openDirs, Pc.openFiles]⟩
  | @tail c _ _ hs ih =>
    obtain ⟨i, -, hm⟩ := hs
    rename_i sh k
    rcases ih with ⟨hrun, hle⟩ | hdrop
    · have hmove := openFds_move c i sh k
      cases hopening : (c.pc i).opening with
      | false =>
        have hless := moves_fds hm hopening
        exact .inl ⟨hrun.moves i (by simp [hopening]) hm, by omega⟩
      | true =>
        have hmore := moves_fds_of_opening hm hopening
        by_cases hroom : openFds c < limit
        · exact .inl ⟨hrun.moves i (fun _ => hroom) hm, by omega⟩
        · obtain ⟨d, rest, e, span, found, hpc, he⟩ := scan_of_opening hopening
          exact .inr ⟨_, hrun.emfile i (by omega) hpc he⟩
    · exact .inr hdrop

end Limit

/-! ## A tree that needs them all -/

/-- Names of directories: a letter and a number. -/
def numbered (n : Nat) : Name := 100 :: (Nat.digits 10 n).map fun x => UInt8.ofNat (x + 48)

def justFile : List Entry := [.reg [102] true]

/-- `n` directories with a file each, and behind them a file. -/
def wide (n : Nat) : Dir :=
  ⟨[], (List.range n).map (fun j => .dir (numbered j) true justFile) ++ justFile⟩

def wideChild (j : Nat) : Dir := ⟨[numbered j], justFile⟩

theorem numbered_inj {m n : Nat} (h : numbered m = numbered n) : m = n := by
  have hdigits : ∀ n, (numbered n).tail.map (fun b => b.toNat - 48) = Nat.digits 10 n := by
    intro n
    simp only [numbered, List.tail_cons, List.map_map]
    conv_rhs => rw [← List.map_id (Nat.digits 10 n)]
    apply List.map_congr_left
    intro x hx
    have hx := Nat.digits_lt_base (by decide) hx
    simp only [Function.comp_apply, UInt8.toNat_ofNat', id_eq]
    omega
  apply Nat.digits_inj_iff (b := 10) |>.mp
  rw [← hdigits, ← hdigits, h]

theorem numbered_not_dot (n : Nat) : isDot (numbered n) = false := by
  simp [isDot, numbered]

theorem numbered_visits (j : Nat) (es : List Entry) :
    visitsOf [] (.dir (numbered j) true justFile :: es) =
      .dir [numbered j] :: .file [numbered j, [102]] :: visitsOf [] es := by
  simp [visitsOf, Entry.visits, numbered_not_dot, justFile]

theorem wide_directories (n : Nat) : (wide n).directories = n + 1 := by
  have hvisits : ∀ js : List Nat, (visitsOf [] (js.map (fun j => .dir (numbered j) true justFile) ++
      justFile)).countP Visit.isDir = js.length := by
    intro js
    induction js with
    | nil => rfl
    | cons j js ih =>
      rw [List.map_cons, List.cons_append, numbered_visits, List.countP_cons, List.countP_cons, ih]
      rfl
  simp only [Dir.directories, Dir.visits, wide, List.countP_cons, hvisits, List.length_range]
  rfl

theorem wide_distinct (n : Nat) : DistinctNames (wide n).entries := by
  have hnames : ∀ js : List Nat, js.Nodup →
      DistinctNames (js.map (fun j => .dir (numbered j) true justFile) ++ justFile) := by
    intro js hjs
    induction js with
    | nil => simp [justFile, DistinctNames, Entry.Distinct]
    | cons j js ih =>
      obtain ⟨hj, hjs⟩ := List.nodup_cons.mp hjs
      refine ⟨?_, ?_, ih hjs⟩
      · intro f hf
        rcases List.mem_append.mp hf with hf | hf
        · obtain ⟨m, hm, rfl⟩ := List.mem_map.mp hf
          exact fun hname => hj (numbered_inj hname ▸ hm)
        · rw [List.mem_singleton.mp hf]
          simp [Entry.name, numbered]
      · simp [Entry.Distinct, justFile, DistinctNames]
  exact hnames _ List.nodup_range

section Peak
variable {W : Type} [DecidableEq W] {main : W}

/-- A worker opens directory after directory. -/
theorem opens_all (c : Config W (Shared W) Pc) {i : W} {sh : Shared W} {d : Dir}
    {rest span : List Entry} (hd : d.path = []) (js : List Nat) (found : List Dir)
    (h : Reaches (Moves main) (start d) (c.move i sh
      (.scan d rest (js.map (fun j => .dir (numbered j) true justFile) ++ span) found))) :
    Reaches (Moves main) (start d)
      (c.move i sh (.scan d rest span (found ++ js.map wideChild))) := by
  induction js generalizing found with
  | nil => simpa using h
  | cons j js ih =>
    have hchild : d.child (numbered j) justFile = wideChild j := by simp [Dir.child, hd, wideChild]
    have hnext := h.again (.work (.openDir (numbered_not_dot j)))
    rw [hchild] at hnext
    simpa using ih _ hnext

/-- The workers `busy` read a directory and a file each, `main` is about to see the last file of the
tree, and the others have not started. -/
structure Filling (main : W) (root : Dir) (busy : Finset W) (queue : List Dir)
    (c : Config W (Shared W) Pc) : Prop where
  run : Reaches (Moves main) (start root) c
  queued : c.shared.queue = queue
  running : c.shared.running = true
  free : c.shared.mutex = none
  reads : c.pc main = .getdents root justFile
  works : ∀ i ∈ busy, (c.pc i).fds = 2
  idle : ∀ i, i ≠ main → i ∉ busy → c.pc i = .test

/-- A thread goes from the top of its loop to the directory that it pops. -/
theorem pops {root : Dir} {c : Config W (Shared W) Pc} {i : W} {d : Dir} {queue : List Dir}
    (h : Reaches (Moves main) (start root) c) (hi : c.pc i = .test) (hq : c.shared.queue = d :: queue)
    (hr : c.shared.running = true) (hfree : c.shared.mutex = none) :
    Reaches (Moves main) (start root) (c.move i
      { c.shared with queue := queue, mutex := none, log := c.shared.log ++ [.popped d.path] }
      (.getdents d d.entries)) := by
  have htest : Moves main i c.shared (c.pc i) c.shared .lock := by
    rw [hi]
    exact .work (.testRunning hr)
  have h := (h.step i htest).again (.work (.lock hfree))
  have h := h.again (.work (.predTrue (.inl (by simp [hq]))))
  have h := h.again (.work (.goOn hr))
  exact h.again (.work (.pop hq))

/-- A thread that has a directory with one file opens that file. -/
theorem opens_file {root : Dir} {c : Config W (Shared W) Pc} {i : W} {sh : Shared W} {d : Dir}
    (h : Reaches (Moves main) (start root) (c.move i sh (.getdents d justFile))) :
    Reaches (Moves main) (start root)
      (c.move i sh (.execute (d.path ++ [[102]]) d [] [] [])) := by
  have h := h.again (.work (@Work.batch _ _ _ _ _ d justFile [] (List.cons_ne_nil _ _)))
  exact h.again (.work .openFile)

theorem Filling.next {root : Dir} {busy : Finset W} {j : Nat} {queue : List Dir}
    {c : Config W (Shared W) Pc} (h : Filling main root busy (wideChild j :: queue) c) {i : W}
    (hi : i ≠ main) (hbusy : i ∉ busy) : ∃ c', Filling main root (insert i busy) queue c' := by
  have hrun := opens_file (pops h.run (h.idle i hi hbusy) h.queued h.running h.free)
  refine ⟨_, hrun, rfl, h.running, rfl, ?_, ?_, ?_⟩
  · rw [move_pc_of_ne _ _ _ (Ne.symm hi), h.reads]
  · apply forall_move c (P := fun j p => j ∈ insert i busy → p.fds = 2)
    · exact fun _ => rfl
    · exact fun j hji hj => h.works j (Finset.mem_of_mem_insert_of_ne hj hji)
  · apply forall_move c (P := fun j p => j ≠ main → j ∉ insert i busy → p = .test)
    · exact fun _ hmem => absurd (Finset.mem_insert_self i busy) hmem
    · exact fun j _ hj hmem => h.idle j hj fun hmem' => hmem (Finset.mem_insert_of_mem hmem')

theorem Filling.first (main : W) (n : Nat) :
    ∃ c, Filling main (wide n) ∅ ((List.range n).map wideChild) c := by
  have hstart : Reaches (Moves main) (start (wide n)) (start (wide n)) := .refl
  have hpop := pops (i := main) hstart rfl rfl rfl rfl
  cases n with
  | zero =>
    refine ⟨_, hpop, rfl, rfl, rfl, move_pc_self _ _ _ _, by simp, ?_⟩
    exact fun j hj _ => move_pc_of_ne _ _ _ hj
  | succ n =>
    have h := hpop.again (.work (@Work.batch _ _ _ _ _ (wide (n + 1))
      ((List.range (n + 1)).map fun j => .dir (numbered j) true justFile) justFile (by simp)))
    rw [← List.append_nil (List.map _ (List.range (n + 1)))] at h
    have h := opens_all _ rfl _ _ h
    have h := h.again (.work .scanned)
    have h := h.again (.work .add)
    have h := h.again (.work (.appendLock rfl))
    have h := h.again (.work .append)
    have h := h.again (.work (.notifyNone rfl))
    refine ⟨_, h, by simp, rfl, rfl, move_pc_self _ _ _ _, by simp, ?_⟩
    exact fun j hj _ => move_pc_of_ne _ _ _ hj

theorem Filling.all (n : Nat) (busy : Finset W) (hmain : main ∉ busy) (hn : busy.card ≤ n) :
    ∃ c, Filling main (wide n) busy (((List.range n).drop busy.card).map wideChild) c := by
  induction busy using Finset.induction_on with
  | empty => exact Filling.first main n
  | insert i busy hi ih =>
    rw [Finset.card_insert_of_notMem hi] at hn ⊢
    obtain ⟨c, hc⟩ := ih (fun hm => hmain (Finset.mem_insert_of_mem hm)) (by omega)
    rw [List.drop_eq_getElem_cons (by simpa using hn), List.map_cons] at hc
    exact hc.next (fun hm => hmain (hm ▸ Finset.mem_insert_self i busy)) hi

variable [Fintype W]

omit [DecidableEq W] in
theorem sum_fds {c : Config W (Shared W) Pc} (workers : Finset W)
    (hworks : ∀ i ∈ workers, (c.pc i).fds = 2) (hidle : ∀ i, i ∉ workers → (c.pc i).fds = 0) :
    ∑ i, (c.pc i).fds = 2 * workers.card := by
  rw [← Finset.sum_subset (Finset.subset_univ workers) fun i _ hi => hidle i hi,
    Finset.sum_const_nat hworks, Nat.mul_comm]

/-- `main` and `busy` each have a directory and a file, and every other directory is open too. -/
theorem peak_reached (n : Nat) (busy : Finset W) (hmain : main ∉ busy) (hn : busy.card ≤ n) :
    ∃ c, Reaches (Moves main) (start (wide n)) c ∧ openFds c = n + busy.card + 2 := by
  obtain ⟨c, hc⟩ := Filling.all n busy hmain hn
  have hself : c.move main c.shared (.getdents (wide n) justFile) = c := by
    rw [← hc.reads, move_self]
  have hrun := opens_file (hself.symm ▸ hc.run)
  refine ⟨_, hrun, ?_⟩
  have hqueue : c.shared.queue.length = n - busy.card := by simp [hc.queued]
  have hsum := sum_fds (c := c.move main c.shared (.execute ((wide n).path ++ [[102]]) (wide n) [] [] []))
    (insert main busy) ?_ ?_
  · rw [Finset.card_insert_of_notMem hmain] at hsum
    rw [openFds, hsum, move_shared]
    omega
  · apply forall_move c (P := fun i p => i ∈ insert main busy → p.fds = 2)
    · exact fun _ => rfl
    · exact fun i hi hmem => hc.works i (Finset.mem_of_mem_insert_of_ne hmem hi)
  · apply forall_move c (P := fun i p => i ∉ insert main busy → p.fds = 0)
    · exact fun hmem => absurd (Finset.mem_insert_self main busy) hmem
    · intro i hi hmem
      rw [hc.idle i hi fun hb => hmem (Finset.mem_insert_of_mem hb)]
      rfl

theorem limit_met (main : W) (n limit : Nat) (h : limit < n + 1 + min (Fintype.card W) (n + 1)) :
    ∃ c, LimitedRun limit main (start (wide n)) 1 c := by
  have hcard : (Finset.univ.erase main).card = Fintype.card W - 1 :=
    Finset.card_erase_of_mem (Finset.mem_univ main)
  have hpos : 0 < Fintype.card W := Fintype.card_pos_iff.mpr ⟨main⟩
  obtain ⟨busy, hsub, hbusy⟩ :=
    Finset.exists_subset_card_eq (s := Finset.univ.erase main) (n := min (Fintype.card W - 1) n)
      (by omega)
  have hmain : main ∉ busy := fun hm => Finset.notMem_erase main _ (hsub hm)
  obtain ⟨c, hrun, hfds⟩ := peak_reached n busy hmain (by omega)
  rcases limited_of_reaches hrun limit with ⟨-, hle⟩ | hdrop
  · omega
  · exact hdrop

/-- For every tree of `n` directories to be visited whole, `n` descriptors and one for a file of
each worker that can have a directory are enough, and no fewer are. -/
theorem descriptors_suffice_iff (main : W) (n limit : Nat) :
    (∀ root : Dir, DistinctNames root.entries → root.directories ≤ n →
      ∀ dropped c, LimitedRun limit main (start root) dropped c → dropped = 0) ↔
    n + min (Fintype.card W) n ≤ limit := by
  constructor
  · intro h
    cases n with
    | zero => simp
    | succ n =>
      by_contra hless
      obtain ⟨c, hc⟩ := limit_met main n limit (by omega)
      have := h (wide n) (wide_distinct n) (wide_directories n).le 1 c hc
      omega
  · intro hroom root _ hn dropped c h
    exact (h.reaches (by omega)).1

end Peak

/-! ## What a limit costs -/

section Cost
variable {W : Type} [DecidableEq W] {i : W} {c : Config W (Shared W) Pc} {d : Dir}
  {rest span : List Entry} {e : Entry} {found : List Dir}

theorem inv_drop [Fintype W] (h : Inv c) (hpc : c.pc i = .scan d rest (e :: span) found) :
    Inv (c.move i c.shared (.scan d rest span found)) := by
  refine ⟨h.balance.move i _ _ ?_, h.stopped, ?_, ?_⟩
  · simp [hpc, Pc.held, Pc.added]
  · exact fun j hj => h.store j (pc_of_move hj (by simp))
  · apply forall_move c (P := fun _ p => p.Left → c.shared.running = false)
    · exact fun hleft => absurd hleft id
    · exact fun j _ => h.left j

theorem awake_drop (h : Awake c) (hpc : c.pc i = .scan d rest (e :: span) found) :
    Awake (c.move i c.shared (.scan d rest span found)) := by
  refine ⟨⟨h.seen.mutex.move (.inl ⟨rfl, by simp [hpc, Pc.HasMutex]⟩), ?_, ?_⟩, ?_, ?_, h.awake⟩
  · exact fun j hj => h.seen.recheck j (pc_of_move hj (by simp))
  · exact fun j hj => h.seen.pop j (pc_of_move hj (by simp))
  · exact fun j hj => h.sleep j (pc_of_move hj (by simp))
  · apply forall_move c (P := fun j p => j ∈ c.shared.sleepers → p = .waiting)
    · intro hi
      rw [h.sleeper i hi] at hpc
      cases hpc
    · exact fun j _ => h.sleeper j

variable [Fintype W] {main : W}

theorem halting_drop (h : Halting main c) (hpc : c.pc i = .scan d rest (e :: span) found) :
    Halting main (c.move i c.shared (.scan d rest span found)) := by
  refine ⟨inv_drop h.inv hpc, ?_, forall_move c trivial fun j _ => h.fits j⟩
  intro hp
  rcases h.stops hp with hr | ⟨j, hj⟩
  · exact .inl hr
  · refine .inr ⟨j, ?_⟩
    rw [move_pc_of_ne c _ _ ?_, hj]
    rintro rfl
    rw [hj] at hpc
    cases hpc

omit [Fintype W] [DecidableEq W] in
theorem visits_ne_nil (p : Path) (he : e.skipped = false) : e.visits p ≠ [] := by
  cases e with
  | reg name opens => simp_all [Entry.skipped, Entry.visits]
  | dir name opens entries => simp_all [Entry.skipped, Entry.visits]
  | other name => simp [Entry.skipped] at he

variable {root : Dir} {limit dropped : Nat}

theorem limited_halting (h : LimitedRun limit main (start root) dropped c) :
    Halting main c ∧ Awake c := by
  induction h with
  | refl =>
    exact ⟨⟨inv_start root, by simp [start], fun _ => trivial⟩, awake_start main root⟩
  | moves i _ _ hm ih => exact ⟨halting_step _ i _ _ ih.1 hm, awake_step _ i _ _ ih.2 hm⟩
  | emfile i _ _ hpc _ ih => exact ⟨halting_drop ih.1 hpc, awake_drop ih.2 hpc⟩

/-- What is done, what is to do, and what nobody will do. -/
theorem limited_todo (h : LimitedRun limit main (start root) dropped c) :
    ∃ lost, root.todo = books c.shared + ∑ i, (c.pc i).todo + lost ∧ (lost = 0 ↔ dropped = 0) := by
  induction h with
  | refl => exact ⟨0, by simp [books, start, Pc.todo], by simp⟩
  | moves i _ _ hm ih =>
    obtain ⟨lost, htodo, hzero⟩ := ih
    exact ⟨lost, by rw [htodo, move_shared, todo_step hm], hzero⟩
  | @emfile _ c i d rest e span found _ _ hpc he ih =>
    obtain ⟨lost, htodo, -⟩ := ih
    refine ⟨lost + eventsOf (e.visits d.path), ?_, ?_⟩
    · have hsum := sum_move Pc.todo c i c.shared (.scan d rest span found)
      have hdrop : (c.pc i).todo =
          (Pc.scan d rest span found).todo + eventsOf (e.visits d.path) := by
        simp only [hpc, Pc.todo, todoOf_cons]
        abel
      rw [hdrop, add_comm (Pc.todo _), ← add_assoc] at hsum
      rw [htodo, move_shared, ← add_right_cancel hsum]
      abel
    · have hlost : eventsOf (e.visits d.path) ≠ 0 := by
        have hvisits := visits_ne_nil d.path he
        cases hv : e.visits d.path with
        | nil => exact absurd hv hvisits
        | cons v vs => cases v <;> simp [eventsOf, Visit.events]
      simp [hlost]

/-- A run under a limit ends like one without, and what it has visited is in the tree. It is the
whole tree only when no `openat` failed for want of a descriptor. -/
theorem limited_run_is_complete_iff (limit : Nat) (root : Dir) (dropped : Nat)
    (c : Config W (Shared W) Pc) (h : LimitedRun limit main (start root) dropped c)
    (hno : ∀ i sh k, ¬ Work main i c.shared (c.pc i) sh k) :
    c.shared.running = false ∧ (c.shared.log : Multiset Event) ≤ eventsOf root.visits ∧
      ((c.shared.log : Multiset Event) = eventsOf root.visits ↔ dropped = 0) := by
  obtain ⟨hhalt, hawake⟩ := limited_halting h
  have hrest := all_resting hawake.seen hno
  have hr := stopped_of_resting hhalt hawake hrest
  have hq := (hhalt.inv.empty (hhalt.inv.stopped hr)).1
  obtain ⟨lost, htodo, hzero⟩ := limited_todo h
  rw [Finset.sum_eq_zero fun i _ => (hrest i).held.2.1] at htodo
  have hall : eventsOf root.visits = ↑c.shared.log + lost := by
    simpa [books, hq, Dir.todo] using htodo
  refine ⟨hr, ?_, ?_⟩
  · rw [hall]
    exact Multiset.le_add_right _ _
  · rw [← hzero, hall, eq_comm, add_eq_left]

end Cost

theorem LimitedRun.quiet {W : Type} [DecidableEq W] [Fintype W] {main : W} {limit dropped : Nat}
    {c₀ c : Config W (Shared W) Pc} (i : W) {sh : Shared W} {k : Pc}
    (h : LimitedRun limit main c₀ dropped c) (hm : Moves main i c.shared (c.pc i) sh k)
    (hk : (c.pc i).opening = false) : LimitedRun limit main c₀ dropped (c.move i sh k) :=
  h.moves i (by simp [hk]) hm

/-- One worker and one descriptor, which the root takes: the file in it is not read. -/
theorem limited_run_with_one_descriptor : ∃ c : Config (Fin 1) (Shared (Fin 1)) Pc,
    LimitedRun 1 0 (start ⟨[], justFile⟩) 1 c ∧ c.pc 0 = .joining ∧
      (c.shared.log : Multiset Event) ≠ eventsOf (Dir.visits ⟨[], justFile⟩) := by
  have h : LimitedRun 1 (0 : Fin 1) (start ⟨[], justFile⟩) 0 (start ⟨[], justFile⟩) := .refl
  have h := h.quiet 0 (.work (.testRunning rfl)) rfl
  have h := h.quiet 0 (.work (.lock rfl)) rfl
  have h := h.quiet 0 (.work (.predTrue (.inl (List.cons_ne_nil _ _)))) rfl
  have h := h.quiet 0 (.work (.goOn rfl)) rfl
  have h := h.quiet 0 (.work (.pop rfl)) rfl
  have h := h.quiet 0 (.work (@Work.batch _ _ _ _ _ _ justFile [] (List.cons_ne_nil _ _))) rfl
  have h := h.emfile 0 (by decide) rfl rfl
  have h := h.quiet 0 (.work .scanned) rfl
  have h := h.quiet 0 (.work .add) rfl
  have h := h.quiet 0 (.work (.appendLock rfl)) rfl
  have h := h.quiet 0 (.work .append) rfl
  have h := h.quiet 0 (.work (.notifyNone rfl)) rfl
  have h := h.quiet 0 (.work .listed) rfl
  have h := h.quiet 0 (.work .close) rfl
  have h := h.quiet 0 (.work (.subLast rfl)) rfl
  have h := h.quiet 0 (.work .store) rfl
  have h := h.quiet 0 (.work .notifyAll) rfl
  have h := h.quiet 0 (.work (.testStopped rfl)) rfl
  have h := h.quiet 0 (.work .flushMain) rfl
  have h := h.quiet 0 (.work .dtorStore) rfl
  have h := h.quiet 0 (.work .dtorNotify) rfl
  refine ⟨_, h, rfl, fun hlog => ?_⟩
  refine absurd ((limited_run_is_complete_iff _ _ _ _ h ?_).2.2.mp hlog) (by decide)
  exact Fin.forall_fin_one.mpr fun _ _ => joining_stays

end Omnipp.Grep
