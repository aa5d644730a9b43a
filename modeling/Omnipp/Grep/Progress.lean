import Omnipp.Grep.Awake
import Omnipp.Lib.Potential

/-!
# How long the workers may run

No schedule keeps the workers busy for ever. Every step is paid for by a directory of the tree, by
an entry that `getdents64` returns, or by a thread that ends; only a wakeup that nobody sent is
paid for by nobody.
-/

open Omnipp.Threads

namespace Omnipp.Grep

/-! ## The size of a tree -/

def Visit.isDir : Visit → Bool
  | .dir _ => true
  | .file _ => false

mutual

/-- The entries that `getdents64` returns below an entry. -/
def Entry.listedBelow : Entry → Nat
  | .dir name opens entries => if opens && !isDot name then entries.length + listedBelowOf entries else 0
  | _ => 0

def listedBelowOf : List Entry → Nat
  | [] => 0
  | e :: es => e.listedBelow + listedBelowOf es

end

def Dir.directories (d : Dir) : Nat := d.visits.countP Visit.isDir

def Dir.listed (d : Dir) : Nat := d.entries.length + listedBelowOf d.entries

/-! ## The price of a tree -/

/-- For `w` threads, the steps that the directories below some entries may cost. A directory that is
done may stop all the others. -/
def treeFuel (w : Nat) (p : Path) (es : List Entry) : Nat :=
  (3 * w + 10) * (visitsOf p es).countP Visit.isDir + 12 * listedBelowOf es

def Dir.fuel (w : Nat) (d : Dir) : Nat :=
  3 * w + 10 + (12 * d.entries.length + treeFuel w d.path d.entries)

def dirsFuel (w : Nat) (ds : List Dir) : Nat := (ds.map (Dir.fuel w)).sum

@[simp] theorem treeFuel_nil (w : Nat) (p : Path) : treeFuel w p [] = 0 := by
  simp [treeFuel, visitsOf, listedBelowOf]

theorem treeFuel_cons (w : Nat) (p : Path) (e : Entry) (es : List Entry) :
    treeFuel w p (e :: es) = treeFuel w p [e] + treeFuel w p es := by
  simp only [treeFuel, visitsOf, listedBelowOf, List.countP_append, List.append_nil, Nat.mul_add]
  omega

theorem treeFuel_append (w : Nat) (p : Path) (es fs : List Entry) :
    treeFuel w p (es ++ fs) = treeFuel w p es + treeFuel w p fs := by
  induction es with
  | nil => simp
  | cons e es ih => rw [List.cons_append, treeFuel_cons, ih, treeFuel_cons w p e es, Nat.add_assoc]

theorem treeFuel_child (w : Nat) (d : Dir) (name : Name) (entries : List Entry)
    (h : isDot name = false) :
    treeFuel w d.path [.dir name true entries] = (d.child name entries).fuel w := by
  simp only [treeFuel, Dir.fuel, Dir.child, visitsOf, listedBelowOf, Entry.visits, Entry.listedBelow, h,
    Bool.not_false, Bool.and_true, if_true, List.append_nil, List.countP_cons, Visit.isDir,
    Nat.mul_add]
  omega

theorem dirsFuel_append (w : Nat) (ds es : List Dir) :
    dirsFuel w (ds ++ es) = dirsFuel w ds + dirsFuel w es := by
  simp [dirsFuel]

@[simp] theorem dirsFuel_nil (w : Nat) : dirsFuel w [] = 0 := rfl

@[simp] theorem dirsFuel_cons (w : Nat) (d : Dir) (ds : List Dir) :
    dirsFuel w (d :: ds) = d.fuel w + dirsFuel w ds := rfl

theorem fuel_eq (w : Nat) (d : Dir) :
    d.fuel w = (3 * w + 10) * d.directories + 12 * d.listed := by
  simp only [Dir.fuel, treeFuel, Dir.directories, Dir.listed, Dir.visits, List.countP_cons,
    Visit.isDir, if_true, Nat.mul_add]
  omega

/-! ## The price of a thread -/

/-- What a thread may do from here, with the tree that it has in its hands. It sleeps on credit. -/
def Pc.fuel (w : Nat) : Pc → Nat
  | .test => 3 * w + 8
  | .lock | .waiting => 3 * w + 7
  | .pred => 3 * w + 6
  | .sleep | .recheck => 3 * w + 5
  | .pop => 3 * w + 4
  | .flush => 3 * w + 3
  | .dtorStore => 3 * w + 2
  | .dtorNotify => 3 * w + 1
  | .joining | .done => 0
  | .notifyAll => 6 * w + 9
  | .store => 6 * w + 10
  | .sub => 6 * w + 11
  | .close _ => 6 * w + 12
  | .getdents d rest => 6 * w + 13 + 12 * rest.length + treeFuel w d.path rest
  | .notifyOne d rest => 6 * w + 17 + 12 * rest.length + treeFuel w d.path rest
  | .append d rest found =>
    6 * w + 18 + 12 * rest.length + treeFuel w d.path rest + dirsFuel w found
  | .appendLock d rest found =>
    6 * w + 19 + 12 * rest.length + treeFuel w d.path rest + dirsFuel w found
  | .add d rest found =>
    6 * w + 20 + 12 * rest.length + treeFuel w d.path rest + dirsFuel w found
  | .scan d rest span found =>
    6 * w + 21 + 12 * rest.length + treeFuel w d.path rest + dirsFuel w found +
      3 * span.length + treeFuel w d.path span
  | .closeFile _ d rest span found =>
    6 * w + 22 + 12 * rest.length + treeFuel w d.path rest + dirsFuel w found +
      3 * span.length + treeFuel w d.path span
  | .execute _ d rest span found =>
    6 * w + 23 + 12 * rest.length + treeFuel w d.path rest + dirsFuel w found +
      3 * span.length + treeFuel w d.path span

variable {W : Type} [DecidableEq W] {main : W}

theorem work_pays [Fintype W] {w : Nat} {i : W} {sh sh' : Shared W} {k k' : Pc}
    (h : Work main i sh k sh' k') (hw : Fintype.card W = w) (hs : i ∈ sh.sleepers → k = .waiting) :
    dirsFuel w sh'.queue + k'.fuel w + 1 + 3 * sh.sleepers.card ≤
      dirsFuel w sh.queue + k.fuel w + 3 * sh'.sleepers.card := by
  have hcard : sh.sleepers.card ≤ w := hw ▸ Finset.card_le_univ sh.sleepers
  cases h with
  | sleep =>
    have hi : i ∉ sh.sleepers := fun hi => by cases hs hi
    simp only [Pc.fuel, Finset.card_insert_of_notMem hi]
    omega
  | pop hq => simp only [hq, Pc.fuel, dirsFuel_cons, Dir.fuel]; omega
  | @batch _ _ d span rest hne =>
    have hpos := List.length_pos_iff.mpr hne
    simp only [Pc.fuel, List.length_append, treeFuel_append, dirsFuel_nil]
    omega
  | @skip _ _ d rest e span found _ =>
    simp only [Pc.fuel, List.length_cons, treeFuel_cons w d.path e span]
    omega
  | @openDir _ _ d rest name entries span found hd =>
    simp only [Pc.fuel, List.length_cons, treeFuel_cons w d.path _ span, treeFuel_child w d _ _ hd,
      dirsFuel_append, dirsFuel_cons, dirsFuel_nil]
    omega
  | @openFile _ _ d rest name span found =>
    simp only [Pc.fuel, List.length_cons, treeFuel_cons w d.path _ span]
    omega
  | append => simp only [Pc.fuel, dirsFuel_append]; omega
  | @notifyOne _ _ j _ _ hj =>
    have := Finset.card_erase_add_one hj
    simp only [Pc.fuel]
    omega
  | notifyAll | dtorNotify => simp only [Pc.fuel, Finset.card_empty]; omega
  | _ => simp only [Pc.fuel, treeFuel_nil, List.length_nil]; omega

/-! ## Every run -/

/-- A wakeup that nobody sent. -/
inductive Spurious : Act W (Shared W) Pc
  | intro {i sh} (h : i ∈ sh.sleepers) :
      Spurious i sh .waiting { sh with sleepers := sh.sleepers.erase i } .waiting

theorem Spurious.moves (main : W) {i : W} {sh sh' : Shared W} {k k' : Pc} (h : Spurious i sh k sh' k') :
    Moves main i sh k sh' k' := by
  cases h with
  | intro hi => exact .spurious hi

theorem moves_work_or_spurious {i : W} {sh sh' : Shared W} {k k' : Pc}
    (h : Moves main i sh k sh' k') : Work main i sh k sh' k' ∨ Spurious i sh k sh' k' := by
  cases h with
  | work h => exact .inl h
  | spurious hi => exact .inr (.intro hi)

theorem spurious_pays {w : Nat} {i : W} {sh sh' : Shared W} {k k' : Pc}
    (h : Spurious i sh k sh' k') :
    dirsFuel w sh'.queue + k'.fuel w + 3 * sh.sleepers.card ≤
      dirsFuel w sh.queue + k.fuel w + 3 * sh'.sleepers.card + 3 := by
  cases h with
  | intro hi =>
    have hcard := Finset.card_erase_add_one hi
    dsimp only
    omega

section Run
variable [Fintype W]

def runFuel (c : Config W (Shared W) Pc) : Nat :=
  dirsFuel (Fintype.card W) c.shared.queue + ∑ i, (c.pc i).fuel (Fintype.card W)

omit [DecidableEq W] in
theorem runFuel_start (root : Dir) :
    runFuel (start root : Config W (Shared W) Pc) =
      root.fuel (Fintype.card W) + Fintype.card W * (3 * Fintype.card W + 8) := by
  simp [runFuel, start, Pc.fuel]

theorem runFuel_move (c : Config W (Shared W) Pc) (i : W) (sh : Shared W) (k : Pc) :
    runFuel (c.move i sh k) + (dirsFuel (Fintype.card W) c.shared.queue +
        (c.pc i).fuel (Fintype.card W)) =
      runFuel c + (dirsFuel (Fintype.card W) sh.queue + k.fuel (Fintype.card W)) := by
  have hsum := sum_move (Pc.fuel (Fintype.card W)) c i sh k
  simp only [runFuel, move_shared]
  omega

theorem run_spent {root : Dir} {n s : Nat} {c : Config W (Shared W) Pc}
    (h : Counted (Work main) Spurious (start root) n s c) :
    n + runFuel c ≤ runFuel (start root : Config W (Shared W) Pc) + 3 * s +
      3 * c.shared.sleepers.card := by
  have hspent := Counted.spent Awake runFuel (fun c => 3 * c.shared.sleepers.card) 3 ?_ ?_ h
    (awake_start main root)
  · simpa [start] using hspent.2
  · intro c i sh k hc ha
    have hpay := work_pays ha rfl (hc.sleeper i)
    have hmove := runFuel_move c i sh k
    refine ⟨awake_step c i sh k hc (.work ha), ?_⟩
    rw [move_shared]
    omega
  · intro c i sh k hc ha
    have hpay := spurious_pays (w := Fintype.card W) ha
    have hmove := runFuel_move c i sh k
    refine ⟨awake_step c i sh k hc (ha.moves main), ?_⟩
    rw [move_shared]
    omega

/-- However the threads are scheduled, they make no more than this many steps. -/
theorem workers_come_to_an_end (root : Dir) (c : Config W (Shared W) Pc)
    (h : Reaches (Moves main) (start root) c) :
    (∃ n s, Counted (Work main) Spurious (start root) n s c) ∧
      ∀ n s, Counted (Work main) Spurious (start root) n s c →
        n ≤ (3 * Fintype.card W + 10) * root.directories + 12 * root.listed +
          Fintype.card W * (3 * Fintype.card W + 11) + 3 * s := by
  refine ⟨h.counted fun _ _ _ _ _ => moves_work_or_spurious, ?_⟩
  intro n s hcount
  have hspent := run_spent hcount
  have hcard : c.shared.sleepers.card ≤ Fintype.card W := Finset.card_le_univ _
  rw [runFuel_start, fuel_eq] at hspent
  rw [Nat.mul_add (Fintype.card W)] at hspent ⊢
  omega

end Run

/-- Worker 1 sleeps once, and wakes for no reason. -/
theorem workers_come_to_an_end_with_a_sleeper : ∃ c : Config (Fin 2) (Shared (Fin 2)) Pc,
    Reaches (Moves 0) (start smallRoot) c ∧ c.pc 1 = .pred ∧
      ∀ n s, Counted (Work 0) Spurious (start smallRoot) n s c →
        n ≤ 16 * smallRoot.directories + 12 * smallRoot.listed + 34 + 3 * s := by
  have h : Reaches (Moves (0 : Fin 2)) (start smallRoot) (start smallRoot) := .refl
  have h := h.step 0 (.work (.testRunning rfl))
  have h := h.step 0 (.work (.lock rfl))
  have h := h.step 0 (.work (.predTrue (.inl (List.cons_ne_nil _ _))))
  have h := h.step 0 (.work (.goOn rfl))
  have h := h.step 0 (.work (.pop rfl))
  have h := h.step 1 (.work (.testRunning rfl))
  have h := h.step 1 (.work (.lock rfl))
  have h := h.step 1 (.work (.predFalse rfl rfl))
  have h := h.step 1 (.work .sleep)
  have h := h.step 1 (.spurious (by decide))
  have h := h.step 1 (.work (.wake (by decide) rfl))
  exact ⟨_, h, rfl, (workers_come_to_an_end smallRoot _ h).2⟩

end Omnipp.Grep
