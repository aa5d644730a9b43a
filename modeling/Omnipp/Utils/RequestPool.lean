import Mathlib.Logic.Function.Basic
import Omnipp.Pipeline

/-! # `RequestPool`

The request objects of one kind, and the submission queue that all pools share.
-/

open Function

namespace Omnipp.Utils

inductive Op where
  | openat | close | read | write
  deriving DecidableEq

/-- Where an object of a pool lives: in `pool_`, or in `pool_overflow_`. -/
inductive Slot where
  | pool (i : Nat)
  | extra (i : Nat)
  deriving DecidableEq

structure Ptr where
  home : Op
  slot : Slot
  deriving DecidableEq

inductive Prep where
  | openat (parent : Int) (path : String) (flags : Nat)
  | close (fd : Int)
  | read (fd : Int) (count : Nat) (offset : UInt64)
  | write (fd : Int) (buffer : Bytes) (offset : UInt64) (count : Nat)

structure Sqe where
  data : Ptr
  prep : Prep

/-- The `io_uring` and `in_flight_`, which every pool has a reference to. `cq` holds what
`io_uring_cq_advance` has not passed yet. -/
structure Ring where
  entries : Nat
  sq : List Sqe
  kernel : List Sqe
  cq : List (Sqe × Int)
  inFlight : UInt64

def Ring.HasSqe (r : Ring) : Prop := r.sq.length < r.entries

instance (r : Ring) : Decidable r.HasSqe := inferInstanceAs (Decidable (_ < _))

/-- The entry is filled, and `++in_flight_`. -/
def Ring.push (r : Ring) (sqe : Sqe) : Ring :=
  { r with sq := r.sq ++ [sqe], inFlight := r.inFlight + 1 }

class IsRequest (ρ : Type) extends Inhabited ρ where
  prep : ρ → Prep

/-- A request object: its tag and its own fields. -/
structure Request (ρ : Type) where
  op : Op
  fields : ρ

/-- `RequestPool<O, T, N>`. The heads of `freeList` and of `extraFree` are their backs. -/
structure RequestPool (ρ : Type) where
  op : Op
  size : Nat
  objects : Slot → Request ρ
  freeList : List Slot
  sqeOverflow : List Slot
  extras : Nat
  extraFree : List Slot

namespace RequestPool

variable {ρ : Type} [IsRequest ρ]

/-- The constructor. It tags the objects of `pool_`. -/
def make (op : Op) (size : Nat) : RequestPool ρ where
  op
  size
  objects
    | .pool _ => ⟨op, default⟩
    | .extra _ => ⟨.openat, default⟩
  freeList := ((List.range size).map Slot.pool).reverse
  sqeOverflow := []
  extras := 0
  extraFree := []

/-- A free object, or a new one in `pool_overflow_`. -/
def grab (p : RequestPool ρ) : Slot × RequestPool ρ :=
  match p.freeList with
  | slot :: rest => (slot, { p with freeList := rest })
  | [] =>
    match p.extraFree with
    | slot :: rest => (slot, { p with extraFree := rest })
    | [] =>
      (.extra p.extras, { p with extras := p.extras + 1
                                 objects := update p.objects (.extra p.extras) ⟨p.op, default⟩ })

/-- `next->sqe = sqe; next->prep();` -/
def submit (p : RequestPool ρ) (r : Ring) (slot : Slot) : Ring :=
  r.push ⟨⟨p.op, slot⟩, IsRequest.prep (p.objects slot).fields⟩

/-- `RequestPool::next`, with the call of `reset`. -/
def next (p : RequestPool ρ) (r : Ring) (reset : ρ → ρ) : RequestPool ρ × Ring :=
  let (slot, p) := p.grab
  let p := { p with objects := update p.objects slot
                      ⟨(p.objects slot).op, reset (p.objects slot).fields⟩ }
  if r.HasSqe then (p, p.submit r slot)
  else ({ p with sqeOverflow := p.sqeOverflow ++ [slot] }, r)

def tryPopOverflow (p : RequestPool ρ) (r : Ring) : Bool × RequestPool ρ × Ring :=
  match p.sqeOverflow with
  | [] => (false, p, r)
  | slot :: rest =>
    if r.HasSqe then (true, { p with sqeOverflow := rest }, p.submit r slot) else (false, p, r)

/-- The address lies in `pool_`. -/
def Owns (p : RequestPool ρ) : Slot → Prop
  | .pool i => i < p.size
  | .extra _ => False

instance (p : RequestPool ρ) (slot : Slot) : Decidable (p.Owns slot) :=
  match slot with
  | .pool i => inferInstanceAs (Decidable (i < p.size))
  | .extra _ => inferInstanceAs (Decidable False)

def free (p : RequestPool ρ) (r : Ring) (slot : Slot) : RequestPool ρ × Ring :=
  let r := { r with inFlight := r.inFlight - 1 }
  if p.Owns slot then ({ p with freeList := slot :: p.freeList }, r)
  else ({ p with extraFree := slot :: p.extraFree }, r)

end RequestPool

/-! ## What the pools do to the ring -/

/-- Entries were added to the submission queue, and `in_flight_` went up by their number and then
by `change`. -/
def Ring.Grew (change : UInt64) (r r' : Ring) : Prop :=
  r'.entries = r.entries ∧ r'.kernel = r.kernel ∧ r'.cq = r.cq ∧
    ∃ more, r'.sq = r.sq ++ more ∧ r'.inFlight = r.inFlight + UInt64.ofNat more.length + change

theorem Ring.grew_refl (r : Ring) : Ring.Grew 0 r r :=
  ⟨rfl, rfl, rfl, [], by simp, by simp⟩

theorem Ring.Grew.trans {a b : UInt64} {r r' r'' : Ring} (h : Ring.Grew a r r')
    (h' : Ring.Grew b r' r'') : Ring.Grew (a + b) r r'' := by
  obtain ⟨he, hk, hc, more, hsq, hin⟩ := h
  obtain ⟨he', hk', hc', more', hsq', hin'⟩ := h'
  refine ⟨he'.trans he, hk'.trans hk, hc'.trans hc, more ++ more', by simp [hsq', hsq], ?_⟩
  rw [hin', hin, List.length_append, UInt64.ofNat_add]
  ac_rfl

theorem Ring.Grew.zero_trans {c : UInt64} {r r' r'' : Ring} (h : Ring.Grew 0 r r')
    (h' : Ring.Grew c r' r'') : Ring.Grew c r r'' := by
  have := h.trans h'
  rwa [UInt64.zero_add] at this

theorem Ring.Grew.trans_zero {c : UInt64} {r r' r'' : Ring} (h : Ring.Grew c r r')
    (h' : Ring.Grew 0 r' r'') : Ring.Grew c r r'' := by
  have := h.trans h'
  rwa [UInt64.add_zero] at this

theorem Ring.grew_push (r : Ring) (sqe : Sqe) : Ring.Grew 0 r (r.push sqe) :=
  ⟨rfl, rfl, rfl, [sqe], rfl, by simp [Ring.push]⟩

namespace RequestPool

variable {ρ : Type}

theorem free_grew (p : RequestPool ρ) (r : Ring) (slot : Slot) : Ring.Grew (-1) r (p.free r slot).2 := by
  unfold free
  have hless : Ring.Grew (-1) r { r with inFlight := r.inFlight - 1 } :=
    ⟨rfl, rfl, rfl, [], by simp, by simp [UInt64.sub_eq_add_neg]⟩
  split
  · exact hless
  · exact hless

variable [IsRequest ρ]

theorem next_grew (p : RequestPool ρ) (r : Ring) (reset : ρ → ρ) : Ring.Grew 0 r (p.next r reset).2 := by
  unfold next
  simp only
  split
  · exact r.grew_push _
  · exact r.grew_refl

theorem tryPopOverflow_grew (p : RequestPool ρ) (r : Ring) : Ring.Grew 0 r (p.tryPopOverflow r).2.2 := by
  unfold tryPopOverflow
  split
  · exact r.grew_refl
  · split
    · exact r.grew_push _
    · exact r.grew_refl

end RequestPool

end Omnipp.Utils
