import Mathlib.Algebra.Order.Group.Multiset
import Mathlib.Data.List.Infix

/-!
# Directory trees

What `openat` and `getdents64` show of a tree that does not change while grep runs,
and what a traversal of it has to do.
-/

namespace Omnipp.Grep

abbrev Name := List UInt8
abbrev Path := List Name

/-- One `linux_dirent64`: its type, its name, whether `openat` succeeds on it, and for a
directory what `getdents64` gives before its 0 or its error. -/
inductive Entry where
  | reg (name : Name) (opens : Bool)
  | dir (name : Name) (opens : Bool) (entries : List Entry)
  | other (name : Name)

def Entry.name : Entry → Name
  | .reg name _ => name
  | .dir name _ _ => name
  | .other name => name

structure Dir where
  path : Path
  entries : List Entry

/-- `name == "."sv || name == ".."sv` -/
def isDot (name : Name) : Bool := name == [46] || name == [46, 46]

/-! ## What there is to visit -/

inductive Visit where
  | dir (p : Path)
  | file (p : Path)
  deriving DecidableEq

def Visit.path : Visit → Path
  | .dir p => p
  | .file p => p

mutual

/-- The directories and regular files that successful `openat` calls lead to, from an entry of
the directory at `p`. A dot entry leads nowhere. -/
def Entry.visits (p : Path) : Entry → List Visit
  | .reg name opens => if opens then [.file (p ++ [name])] else []
  | .dir name opens entries =>
    if opens && !isDot name then .dir (p ++ [name]) :: visitsOf (p ++ [name]) entries else []
  | .other _ => []

def visitsOf (p : Path) : List Entry → List Visit
  | [] => []
  | e :: es => e.visits p ++ visitsOf p es

end

def Dir.visits (d : Dir) : List Visit := .dir d.path :: visitsOf d.path d.entries

mutual

/-- No directory of the tree has two entries of one name. -/
def Entry.Distinct : Entry → Prop
  | .reg _ _ => True
  | .dir _ _ entries => DistinctNames entries
  | .other _ => True

def DistinctNames : List Entry → Prop
  | [] => True
  | e :: es => (∀ f ∈ es, f.name ≠ e.name) ∧ e.Distinct ∧ DistinctNames es

end

mutual

theorem Entry.visits_under (p : Path) (e : Entry) : ∀ v ∈ e.visits p, p ++ [e.name] <+: v.path := by
  intro v hv
  cases e with
  | reg name opens =>
    simp only [Entry.visits] at hv
    split at hv
    · rw [List.mem_singleton.mp hv]
      exact List.prefix_rfl
    · simp at hv
  | dir name opens entries =>
    simp only [Entry.visits] at hv
    split at hv
    · rcases List.mem_cons.mp hv with rfl | hv
      · exact List.prefix_rfl
      · obtain ⟨f, -, hf⟩ := visitsOf_under (p ++ [name]) entries v hv
        exact (List.prefix_append _ _).trans hf
    · simp at hv
  | other name => simp [Entry.visits] at hv

theorem visitsOf_under (p : Path) (es : List Entry) :
    ∀ v ∈ visitsOf p es, ∃ f ∈ es, p ++ [f.name] <+: v.path := by
  intro v hv
  cases es with
  | nil => simp [visitsOf] at hv
  | cons e es =>
    rcases List.mem_append.mp hv with hv | hv
    · exact ⟨e, by simp, Entry.visits_under p e v hv⟩
    · obtain ⟨f, hf, hp⟩ := visitsOf_under p es v hv
      exact ⟨f, by simp [hf], hp⟩

end

theorem not_mem_visitsOf (p : Path) (es : List Entry) : Visit.dir p ∉ visitsOf p es := by
  intro h
  obtain ⟨f, -, hf⟩ := visitsOf_under p es _ h
  have := hf.length_le
  simp only [Visit.path, List.length_append, List.length_singleton] at this
  omega

theorem under_inj {p q : Path} {a b : Name} (ha : p ++ [a] <+: q) (hb : p ++ [b] <+: q) : a = b := by
  have h := List.prefix_of_prefix_length_le ha hb (by simp)
  rw [List.prefix_append_right_inj] at h
  simpa using h

mutual

theorem Entry.visits_nodup (p : Path) (e : Entry) (h : e.Distinct) : (e.visits p).Nodup := by
  cases e with
  | reg name opens => simp only [Entry.visits]; split <;> simp
  | dir name opens entries =>
    simp only [Entry.visits]
    split
    · exact List.nodup_cons.mpr ⟨not_mem_visitsOf _ _, visitsOf_nodup _ entries h⟩
    · exact List.nodup_nil
  | other name => simp [Entry.visits]

theorem visitsOf_nodup (p : Path) (es : List Entry) (h : DistinctNames es) : (visitsOf p es).Nodup := by
  cases es with
  | nil => exact List.nodup_nil
  | cons e es =>
    obtain ⟨hne, he, hes⟩ := h
    refine List.nodup_append.mpr ⟨Entry.visits_nodup p e he, visitsOf_nodup p es hes, ?_⟩
    rintro v hv w hw rfl
    obtain ⟨f, hf, hp⟩ := visitsOf_under p es v hw
    exact hne f hf (under_inj hp (Entry.visits_under p e v hv))

end

theorem Dir.visits_nodup (d : Dir) (h : DistinctNames d.entries) : d.visits.Nodup :=
  List.nodup_cons.mpr ⟨not_mem_visitsOf _ _, visitsOf_nodup _ _ h⟩

/-! ## What there is to do -/

inductive Event where
  | popped (p : Path)
  | listed (p : Path)
  | closed (p : Path)
  | ran (p : Path)
  | closedFile (p : Path)
  deriving DecidableEq

def Visit.events : Visit → List Event
  | .dir p => [.popped p, .listed p, .closed p]
  | .file p => [.ran p, .closedFile p]

/-- The visit an event belongs to. -/
def Event.visit : Event → Visit
  | .popped p => .dir p
  | .listed p => .dir p
  | .closed p => .dir p
  | .ran p => .file p
  | .closedFile p => .file p

def eventsOf (vs : List Visit) : Multiset Event := ↑(vs.flatMap Visit.events)

@[simp] theorem eventsOf_nil : eventsOf [] = 0 := rfl

theorem eventsOf_append (vs ws : List Visit) : eventsOf (vs ++ ws) = eventsOf vs + eventsOf ws := by
  simp [eventsOf]

theorem eventsOf_cons (v : Visit) (vs : List Visit) :
    eventsOf (v :: vs) = ↑v.events + eventsOf vs := by
  simp [eventsOf]

theorem count_events (v : Visit) (e : Event) : v.events.count e = if v = e.visit then 1 else 0 := by
  cases v <;> cases e <;> simp [Visit.events, Event.visit, List.count_cons]

theorem count_eventsOf (vs : List Visit) (e : Event) :
    (eventsOf vs).count e = vs.count e.visit := by
  induction vs with
  | nil => simp
  | cons v vs ih =>
    rw [eventsOf_cons, Multiset.count_add, ih, Multiset.coe_count, count_events, List.count_cons]
    simp only [beq_iff_eq]
    omega

def todoOf (p : Path) (es : List Entry) : Multiset Event := eventsOf (visitsOf p es)

def Dir.todo (d : Dir) : Multiset Event := eventsOf d.visits

@[simp] theorem todoOf_nil (p : Path) : todoOf p [] = 0 := rfl

theorem todoOf_cons (p : Path) (e : Entry) (es : List Entry) :
    todoOf p (e :: es) = eventsOf (e.visits p) + todoOf p es := by
  rw [todoOf, visitsOf, eventsOf_append]; rfl

theorem todoOf_append (p : Path) (es fs : List Entry) :
    todoOf p (es ++ fs) = todoOf p es + todoOf p fs := by
  induction es with
  | nil => simp
  | cons e es ih => rw [List.cons_append, todoOf_cons, todoOf_cons, ih, add_assoc]

theorem Dir.todo_eq (d : Dir) :
    d.todo = {.popped d.path} + ({.listed d.path} + {.closed d.path}) + todoOf d.path d.entries := by
  rw [Dir.todo, Dir.visits, eventsOf_cons]
  rfl

end Omnipp.Grep
