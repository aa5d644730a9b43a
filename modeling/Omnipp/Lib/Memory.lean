import Mathlib.Data.Nat.Basic

/-!
# Copying in words

A memory that keeps a record of its loads and stores, and what a copy has done after some of its
words. The words may overlap, and they may come in any order that leaves no gap.
-/

namespace Omnipp.Memory

variable {α : Type*}

/-- `loads` and `stores` hold the address and the width of every access. -/
structure Machine (α : Type*) where
  mem : Nat → α
  loads : List (Nat × Nat)
  stores : List (Nat × Nat)

def read (mem : Nat → α) (a w : Nat) : List α := (List.range w).map fun i => mem (a + i)

@[simp] theorem read_length (mem : Nat → α) (a w : Nat) : (read mem a w).length = w := by
  simp [read]

theorem read_getElem? (mem : Nat → α) {a w i : Nat} (h : i < w) :
    (read mem a w)[i]? = some (mem (a + i)) := by
  simp [read, h]

theorem read_congr {mem mem' : Nat → α} {a w : Nat} (h : ∀ i, i < w → mem (a + i) = mem' (a + i)) :
    read mem a w = read mem' a w := by
  apply List.map_congr_left
  intro i hi
  exact h i (List.mem_range.mp hi)

theorem read_append (mem : Nat → α) (a v w : Nat) :
    read mem a v ++ read mem (a + v) w = read mem a (v + w) := by
  simp only [read, List.range_add, List.map_append, List.map_map]
  congr 1
  apply List.map_congr_left
  intro i _
  simp only [Function.comp_apply, Nat.add_assoc]

theorem read_slice (mem : Nat → α) {a v w o : Nat} (h : o + w ≤ v) :
    ((read mem a v).drop o).take w = read mem (a + o) w := by
  obtain ⟨r, rfl⟩ := Nat.le.dest h
  rw [← read_append, ← read_append, List.append_assoc, List.drop_left' (read_length _ _ _),
    List.take_left' (read_length _ _ _)]

namespace Machine

def load (m : Machine α) (w a : Nat) : List α × Machine α :=
  (read m.mem a w, { m with loads := m.loads ++ [(a, w)] })

def store (m : Machine α) (a : Nat) (bs : List α) : Machine α :=
  { m with
    mem := fun b => if a ≤ b ∧ b < a + bs.length then (bs[b - a]?).getD (m.mem b) else m.mem b
    stores := m.stores ++ [(a, bs.length)] }

/-- Load a word and store it. -/
def move (m : Machine α) (w dst src : Nat) : Machine α :=
  let (v, m) := m.load w src
  m.store dst v

/-- `k` words, one after the other. -/
def moves (m : Machine α) (w : Nat) : Nat → Nat → Nat → Machine α
  | 0, _, _ => m
  | k + 1, dst, src => (m.moves w k dst src).move w (dst + k * w) (src + k * w)

/-- `k` neighbouring words, loaded before anything is stored. -/
def loadRow (m : Machine α) (w : Nat) : Nat → Nat → List (List α) × Machine α
  | 0, _ => ([], m)
  | k + 1, a =>
    let (vs, m) := m.loadRow w k a
    let (v, m) := m.load w (a + k * w)
    (vs ++ [v], m)

def storeRow (m : Machine α) (w a : Nat) : List (List α) → Machine α
  | [] => m
  | v :: vs => (m.store a v).storeRow w (a + w) vs

theorem loadRow_mem (m : Machine α) (w k a : Nat) : (m.loadRow w k a).2.mem = m.mem := by
  induction k with
  | zero => rfl
  | succ k ih => exact ih

theorem loadRow_values (m : Machine α) (w k a : Nat) :
    (m.loadRow w k a).1 = (List.range k).map fun i => read m.mem (a + i * w) w := by
  induction k with
  | zero => rfl
  | succ k ih =>
    have hlast : ((m.loadRow w k a).2.load w (a + k * w)).1 = read m.mem (a + k * w) w := by
      simp only [load, loadRow_mem]
    rw [List.range_succ, List.map_append, ← ih, List.map_singleton, ← hlast]
    rfl

theorem first_mem_loadRow (m : Machine α) (w k a : Nat) :
    (a, w) ∈ (m.loadRow w (k + 1) a).2.loads := by
  induction k with
  | zero => exact List.mem_append_right _ (by simp)
  | succ k ih => exact List.mem_append_left _ ih

@[simp] theorem storeRow_loads (m : Machine α) (w a : Nat) (vs : List (List α)) :
    (m.storeRow w a vs).loads = m.loads := by
  induction vs generalizing m a with
  | nil => rfl
  | cons v vs ih => exact ih (m.store a v) (a + w)

theorem store_inside (m : Machine α) {a b : Nat} {bs : List α} {x : α} (hb : a ≤ b)
    (h : bs[b - a]? = some x) : (m.store a bs).mem b = x := by
  have hlt := (List.getElem?_eq_some_iff.mp h).1
  simp only [store]
  rw [if_pos (by omega), h, Option.getD_some]

theorem store_outside (m : Machine α) {a b : Nat} {bs : List α}
    (h : b < a ∨ a + bs.length ≤ b) : (m.store a bs).mem b = m.mem b := by
  simp only [store]
  rw [if_neg (by omega)]

end Machine

/-! ## A copy under way -/

/-- A copy of `len` bytes between two ranges that do not overlap. Nothing below `floor` is loaded,
and the loads in `seen` were made. -/
structure Job (α : Type*) where
  dst : Nat
  src : Nat
  len : Nat
  before : Nat → α
  apart : src + len ≤ dst ∨ dst + len ≤ src
  floor : Nat
  floor_le : floor ≤ src
  seen : List (Nat × Nat)

/-- The first `done` bytes are copied, and every access is where it may be. -/
structure Copied (j : Job α) (done : Nat) (m : Machine α) : Prop where
  rest : ∀ a, a < j.dst ∨ j.dst + j.len ≤ a → m.mem a = j.before a
  copied : ∀ i, i < done → m.mem (j.dst + i) = j.before (j.src + i)
  loads : ∀ l ∈ m.loads, j.floor ≤ l.1 ∧ l.1 + l.2 ≤ j.src + j.len
  stores : ∀ s ∈ m.stores, j.dst ≤ s.1 ∧ s.1 + s.2 ≤ j.dst + j.len
  seen : ∀ l ∈ j.seen, l ∈ m.loads

namespace Copied

variable {j : Job α} {done : Nat} {m : Machine α}

theorem mono {done' : Nat} (h : Copied j done m) (hle : done' ≤ done) : Copied j done' m :=
  { h with copied := fun i hi => h.copied i (by omega) }

theorem source (h : Copied j done m) {a w : Nat} (ha : j.src ≤ a) (hw : a + w ≤ j.src + j.len) :
    read m.mem a w = read j.before a w := by
  have hapart := j.apart
  apply read_congr
  intro i hi
  exact h.rest _ (by omega)

theorem see (h : Copied j done m) (ls : List (Nat × Nat)) (hls : ∀ l ∈ ls, l ∈ m.loads) :
    Copied { j with seen := ls } done m :=
  { h with seen := hls }

theorem load (h : Copied j done m) {w a : Nat} (ha : j.floor ≤ a) (hw : a + w ≤ j.src + j.len) :
    Copied j done (m.load w a).2 := by
  refine { h with loads := ?_, seen := fun l hl => List.mem_append_left _ (h.seen l hl) }
  intro l hl
  rcases List.mem_append.mp hl with hl | hl
  · exact h.loads l hl
  · rw [List.mem_singleton.mp hl]
    exact ⟨ha, hw⟩

theorem store (h : Copied j done m) {o w : Nat} {v : List α} (hv : v = read j.before (j.src + o) w)
    (ho : o ≤ done) (hw : o + w ≤ j.len) : Copied j (max done (o + w)) (m.store (j.dst + o) v) := by
  have hlen : v.length = w := by rw [hv, read_length]
  refine ⟨?_, ?_, h.loads, ?_, h.seen⟩
  · intro a ha
    rw [Machine.store_outside m (by omega)]
    exact h.rest a ha
  · intro i hi
    by_cases hin : o ≤ i ∧ i < o + w
    · have hget : v[j.dst + i - (j.dst + o)]? = some (j.before (j.src + i)) := by
        rw [hv, show j.dst + i - (j.dst + o) = i - o by omega, read_getElem? _ (by omega),
          show j.src + o + (i - o) = j.src + i by omega]
      exact Machine.store_inside m (by omega) hget
    · rw [Machine.store_outside m (by omega)]
      exact h.copied i (by omega)
  · intro s hs
    rcases List.mem_append.mp hs with hs | hs
    · exact h.stores s hs
    · rw [List.mem_singleton.mp hs, hlen]
      constructor <;> dsimp only <;> omega

theorem move (h : Copied j done m) {w o : Nat} (ho : o ≤ done) (hw : o + w ≤ j.len) :
    Copied j (max done (o + w)) (m.move w (j.dst + o) (j.src + o)) := by
  have hfloor := j.floor_le
  have hload := h.load (w := w) (a := j.src + o) (by omega) (by omega)
  exact hload.store (h.source (by omega) (by omega)) ho hw

theorem moves (h : Copied j done m) {w o : Nat} (k : Nat) (ho : o ≤ done) (hw : o + k * w ≤ j.len) :
    Copied j (max done (o + k * w)) (m.moves w k (j.dst + o) (j.src + o)) := by
  induction k with
  | zero => simpa [Machine.moves, ho] using h
  | succ k ih =>
    have hmul : (k + 1) * w = k * w + w := Nat.succ_mul k w
    have hprev := ih (by omega)
    have hnext := hprev.move (w := w) (o := o + k * w) (by omega) (by omega)
    rw [← Nat.add_assoc, ← Nat.add_assoc] at hnext
    exact hnext.mono (by omega)

theorem loadRow (h : Copied j done m) {w k a : Nat} (ha : j.floor ≤ a)
    (hw : a + k * w ≤ j.src + j.len) : Copied j done (m.loadRow w k a).2 := by
  induction k with
  | zero => exact h
  | succ k ih =>
    have hmul : (k + 1) * w = k * w + w := Nat.succ_mul k w
    exact (ih (by omega)).load (by omega) (by omega)

theorem storeRow (vs : List (List α)) {w : Nat} :
    ∀ {o done : Nat} {m : Machine α}, Copied j done m →
      vs = (List.range vs.length).map (fun i => read j.before (j.src + o + i * w) w) → o ≤ done →
      o + vs.length * w ≤ j.len →
      Copied j (max done (o + vs.length * w)) (m.storeRow w (j.dst + o) vs) := by
  induction vs with
  | nil =>
    intro o done m h _ ho _
    simpa [Machine.storeRow, ho] using h
  | cons v vs ih =>
    intro o done m h hvs ho hw
    rw [List.length_cons, List.range_succ_eq_map, List.map_cons, List.map_map] at hvs
    obtain ⟨hv, hvs⟩ := List.cons.inj hvs
    rw [List.length_cons, Nat.succ_mul] at hw ⊢
    have hfirst := h.store (w := w) (by simpa using hv) ho (by omega)
    have hrest := ih (o := o + w) hfirst ?_ (by omega) (by omega)
    · rw [← Nat.add_assoc] at hrest
      exact hrest.mono (by omega)
    · rw [hvs]
      simp only [List.length_map, List.length_range]
      apply List.map_congr_left
      intro i _
      simp only [Function.comp_apply]
      rw [Nat.succ_mul]
      congr 1
      omega

end Copied

end Omnipp.Memory
