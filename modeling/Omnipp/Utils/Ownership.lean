import Mathlib.Data.List.Nodup
import Mathlib.Data.Multiset.Basic
import Omnipp.Utils.Fine

/-! # Where the objects of a pool are

An object is free, parked in `sqe_overflow_`, or out: in the ring or with somebody else.
-/

open Function

namespace Omnipp.Utils

namespace RequestPool

variable {ρ : Type}

/-- The object exists. -/
def Valid (p : RequestPool ρ) : Slot → Prop
  | .pool i => i < p.size
  | .extra i => i < p.extras

instance (p : RequestPool ρ) (slot : Slot) : Decidable (p.Valid slot) :=
  match slot with
  | .pool i => inferInstanceAs (Decidable (i < p.size))
  | .extra i => inferInstanceAs (Decidable (i < p.extras))

def stored (p : RequestPool ρ) (slot : Slot) : Nat :=
  p.freeList.count slot + p.extraFree.count slot + p.sqeOverflow.count slot

/-- Every object is in one place, where `out` counts how often it is outside the pool. -/
structure Owned (p : RequestPool ρ) (op : Op) (out : Slot → Nat) : Prop where
  tag : p.op = op
  tags : ∀ slot, p.Valid slot → (p.objects slot).op = op
  once : ∀ slot, p.stored slot + out slot = if p.Valid slot then 1 else 0

/-- One more object is out. -/
def plus (out : Slot → Nat) (slot : Slot) : Slot → Nat := fun x => out x + if x = slot then 1 else 0

@[simp] theorem plus_self (out : Slot → Nat) (slot : Slot) : plus out slot slot = out slot + 1 := by
  simp [plus]

variable {p : RequestPool ρ} {op : Op} {out : Slot → Nat}

theorem Owned.valid (h : p.Owned op out) {slot : Slot} (hout : 0 < out slot) : p.Valid slot := by
  have := h.once slot
  by_contra hv
  rw [if_neg hv] at this
  omega

theorem Owned.stored_le (h : p.Owned op out) (slot : Slot) : p.stored slot + out slot ≤ 1 := by
  rw [h.once slot]
  split <;> omega

/-- The same objects, and `q` stores one less of `slot`. -/
structure Took (p q : RequestPool ρ) (slot : Slot) : Prop where
  op : q.op = p.op
  valid : ∀ x, q.Valid x ↔ p.Valid x
  objects : q.objects = p.objects
  stored : ∀ x, p.stored x = q.stored x + if x = slot then 1 else 0

theorem Owned.took {q : RequestPool ρ} {slot : Slot} (h : p.Owned op out) (ht : Took p q slot) :
    q.Owned op (plus out slot) where
  tag := ht.op.trans h.tag
  tags x hx := by
    rw [ht.objects]
    exact h.tags x ((ht.valid x).mp hx)
  once x := by
    have honce := h.once x
    rw [ht.stored x] at honce
    rw [if_congr (ht.valid x) rfl rfl, ← honce, plus]
    omega

theorem Owned.gave {q : RequestPool ρ} {slot : Slot} (h : q.Owned op (plus out slot))
    (ht : Took p q slot) : p.Owned op out where
  tag := ht.op.symm.trans h.tag
  tags x hx := by
    rw [← ht.objects]
    exact h.tags x ((ht.valid x).mpr hx)
  once x := by
    have honce := h.once x
    rw [plus] at honce
    rw [← if_congr (ht.valid x) rfl rfl, ← honce, ht.stored x]
    omega

theorem Took.out_eq_zero {q : RequestPool ρ} {slot : Slot} (ht : Took p q slot) (h : p.Owned op out) :
    out slot = 0 := by
  have hle := h.stored_le slot
  have hstored := ht.stored slot
  rw [if_pos rfl] at hstored
  omega

theorem Took.not_mem_overflow {q : RequestPool ρ} {slot : Slot} (ht : Took p q slot)
    (h : p.Owned op out) (hq : q.sqeOverflow = p.sqeOverflow) : slot ∉ p.sqeOverflow := by
  intro hmem
  have hle := h.stored_le slot
  have hcount := List.count_pos_iff.mpr hmem
  have hstored := ht.stored slot
  have hover : q.sqeOverflow.count slot ≤ q.stored slot := Nat.le_add_left _ _
  rw [hq] at hover
  rw [if_pos rfl] at hstored
  omega

theorem count_cons_eq (slot x : Slot) (rest : List Slot) :
    (slot :: rest).count x = rest.count x + if x = slot then 1 else 0 := by
  simp only [List.count_cons, beq_iff_eq, eq_comm (a := slot)]

theorem took_freeList {slot : Slot} {rest : List Slot} (h : p.freeList = slot :: rest) :
    Took p { p with freeList := rest } slot := by
  refine ⟨rfl, fun x => ?_, rfl, fun x => ?_⟩
  · cases x <;> exact Iff.rfl
  · simp only [stored, h, count_cons_eq]
    omega

theorem took_extraFree {slot : Slot} {rest : List Slot} (h : p.extraFree = slot :: rest) :
    Took p { p with extraFree := rest } slot := by
  refine ⟨rfl, fun x => ?_, rfl, fun x => ?_⟩
  · cases x <;> exact Iff.rfl
  · simp only [stored, h, count_cons_eq]
    omega

theorem took_sqeOverflow {slot : Slot} {rest : List Slot} (h : p.sqeOverflow = slot :: rest) :
    Took p { p with sqeOverflow := rest } slot := by
  refine ⟨rfl, fun x => ?_, rfl, fun x => ?_⟩
  · cases x <;> exact Iff.rfl
  · simp only [stored, h, count_cons_eq]
    omega

theorem took_of_park (p : RequestPool ρ) (slot : Slot) :
    Took { p with sqeOverflow := p.sqeOverflow ++ [slot] } p slot := by
  refine ⟨rfl, fun x => ?_, rfl, fun x => ?_⟩
  · cases x <;> exact Iff.rfl
  · simp only [stored, List.count_append, count_cons_eq, List.count_nil]
    omega

theorem took_of_free (p : RequestPool ρ) (r : Ring) (slot : Slot) : Took (p.free r slot).1 p slot := by
  unfold free
  simp only
  split
  · exact took_freeList rfl
  · exact took_extraFree rfl

theorem Owned.free (slot : Slot) (h : p.Owned op (plus out slot)) (r : Ring) : (p.free r slot).1.Owned op out :=
  h.gave (took_of_free p r slot)

variable [IsRequest ρ]

theorem owned_make (op : Op) (size : Nat) : (make op size : RequestPool ρ).Owned op fun _ => 0 where
  tag := rfl
  tags := by
    intro slot hv
    match slot, hv with
    | .pool i, _ => rfl
    | .extra i, hv => exact absurd hv (Nat.not_lt_zero i)
  once := by
    intro slot
    have hinj : Injective Slot.pool := fun i j hij => by simpa using hij
    have hnodup : ((List.range size).map Slot.pool).reverse.Nodup := by
      rw [List.nodup_reverse]
      exact List.nodup_range.map hinj
    have hstored : (make op size : RequestPool ρ).stored slot =
        ((List.range size).map Slot.pool).reverse.count slot := by
      simp [stored, make]
    rw [hstored, hnodup.count, Nat.add_zero]
    apply if_congr _ rfl rfl
    match slot with
    | .pool i => simp [Valid, make]
    | .extra i => simp [Valid, make]

/-- The object that `grab` makes when nothing is free. -/
theorem Owned.extended (h : p.Owned op out) :
    Owned { p with
      extras := p.extras + 1
      objects := update p.objects (.extra p.extras) ⟨p.op, default⟩ } op (plus out (.extra p.extras)) := by
  have hnew := h.once (.extra p.extras)
  rw [if_neg (show ¬ p.Valid (.extra p.extras) from Nat.lt_irrefl p.extras)] at hnew
  have hvalid : ∀ slot, slot ≠ .extra p.extras → (Valid { p with
      extras := p.extras + 1
      objects := update p.objects (.extra p.extras) ⟨p.op, default⟩ } slot ↔ p.Valid slot) := by
    intro slot hs
    match slot with
    | .pool i => exact Iff.rfl
    | .extra i =>
      have hne : i ≠ p.extras := fun hi => hs (by rw [hi])
      exact show i < p.extras + 1 ↔ i < p.extras by omega
  refine ⟨h.tag, fun slot hv => ?_, fun slot => ?_⟩
  · by_cases hs : slot = .extra p.extras
    · subst hs
      simp [h.tag]
    · simp only [update_of_ne hs]
      exact h.tags slot ((hvalid slot hs).mp hv)
  · by_cases hs : slot = .extra p.extras
    · subst hs
      rw [plus_self, if_pos]
      · exact congrArg (· + 1) hnew
      · exact Nat.lt_succ_self p.extras
    · rw [if_congr (hvalid slot hs) rfl rfl, plus, if_neg hs]
      exact h.once slot

/-- What `grab` gives out was free or is new. -/
theorem Owned.grab (h : p.Owned op out) :
    p.grab.2.Owned op (plus out p.grab.1) ∧ out p.grab.1 = 0 ∧ p.grab.1 ∉ p.sqeOverflow ∧
      p.grab.2.sqeOverflow = p.sqeOverflow ∧
      ∀ slot, slot ≠ p.grab.1 → p.grab.2.objects slot = p.objects slot := by
  unfold RequestPool.grab
  split
  · rename_i slot rest hfree
    have ht := took_freeList hfree
    exact ⟨h.took ht, ht.out_eq_zero h, ht.not_mem_overflow h rfl, rfl, fun _ _ => rfl⟩
  · split
    · rename_i slot rest hfree
      have ht := took_extraFree hfree
      exact ⟨h.took ht, ht.out_eq_zero h, ht.not_mem_overflow h rfl, rfl, fun _ _ => rfl⟩
    · have hnew := h.once (.extra p.extras)
      rw [if_neg (show ¬ p.Valid (.extra p.extras) from Nat.lt_irrefl p.extras)] at hnew
      refine ⟨h.extended, by simp only; omega, fun hmem => ?_, rfl, fun slot hne => update_of_ne hne _ _⟩
      have hcount := List.count_pos_iff.mpr hmem
      have hover : p.sqeOverflow.count (.extra p.extras) ≤ p.stored (.extra p.extras) :=
        Nat.le_add_left _ _
      simp only at hcount
      omega

/-- What is parked in the pool. -/
def parked (p : RequestPool ρ) : List Prep :=
  p.sqeOverflow.map fun slot => IsRequest.prep (p.objects slot).fields

theorem parked_congr {q : RequestPool ρ} (hover : q.sqeOverflow = p.sqeOverflow)
    (hobj : ∀ slot ∈ p.sqeOverflow, q.objects slot = p.objects slot) : q.parked = p.parked := by
  unfold parked
  rw [hover]
  exact List.map_congr_left fun slot hslot => by rw [hobj slot hslot]

/-- `next->reset(...)` -/
def resetAt (p : RequestPool ρ) (slot : Slot) (reset : ρ → ρ) : RequestPool ρ :=
  { p with objects := update p.objects slot ⟨(p.objects slot).op, reset (p.objects slot).fields⟩ }

omit [IsRequest ρ] in
theorem resetAt_of_ne (p : RequestPool ρ) {slot x : Slot} (reset : ρ → ρ) (h : x ≠ slot) :
    (p.resetAt slot reset).objects x = p.objects x := update_of_ne h _ _

omit [IsRequest ρ] in
theorem Owned.resetAt (h : p.Owned op out) (slot : Slot) (reset : ρ → ρ) :
    (p.resetAt slot reset).Owned op out := by
  refine ⟨h.tag, fun x hx => ?_, h.once⟩
  have htag := h.tags x hx
  by_cases hs : x = slot
  · subst hs
    simpa [RequestPool.resetAt] using htag
  · rwa [resetAt_of_ne p reset hs]

theorem next_eq (p : RequestPool ρ) (r : Ring) (reset : ρ → ρ) :
    p.next r reset =
      if r.HasSqe then
        (p.grab.2.resetAt p.grab.1 reset, (p.grab.2.resetAt p.grab.1 reset).submit r p.grab.1)
      else ({ p.grab.2.resetAt p.grab.1 reset with
        sqeOverflow := p.grab.2.sqeOverflow ++ [p.grab.1] }, r) := rfl

/-- `next` takes an object that nobody has. It is submitted, or parked when the queue is full. -/
theorem Owned.next (h : p.Owned op out) (r : Ring) {reset : ρ → ρ} {q : Prep}
    (hq : ∀ x, IsRequest.prep (reset x) = q) :
    ∃ slot, out slot = 0 ∧ (∀ x, x ≠ slot → (p.next r reset).1.objects x = p.objects x) ∧
      IsRequest.prep ((p.next r reset).1.objects slot).fields = q ∧
      ((r.HasSqe ∧ (p.next r reset).2 = r.push ⟨⟨op, slot⟩, q⟩ ∧
          (p.next r reset).1.Owned op (plus out slot) ∧ (p.next r reset).1.parked = p.parked) ∨
        (¬ r.HasSqe ∧ (p.next r reset).2 = r ∧ (p.next r reset).1.Owned op out ∧
          (p.next r reset).1.parked = p.parked ++ [q])) := by
  obtain ⟨hown, hout, hover, hsame, hobj⟩ := h.grab
  have hset := hown.resetAt p.grab.1 reset
  have hprep : IsRequest.prep ((p.grab.2.resetAt p.grab.1 reset).objects p.grab.1).fields = q := by
    simp [RequestPool.resetAt, hq]
  have hkeep : ∀ x, x ≠ p.grab.1 → (p.grab.2.resetAt p.grab.1 reset).objects x = p.objects x := by
    intro x hx
    rw [resetAt_of_ne _ reset hx, hobj x hx]
  have hparked : (p.grab.2.resetAt p.grab.1 reset).parked = p.parked :=
    parked_congr hsame fun x hx => hkeep x fun he => hover (he ▸ hx)
  rw [next_eq]
  by_cases hr : r.HasSqe
  · rw [if_pos hr]
    refine ⟨p.grab.1, hout, hkeep, hprep, .inl ⟨hr, ?_, hset, hparked⟩⟩
    simp only [submit, hprep, hset.tag]
  · rw [if_neg hr]
    refine ⟨p.grab.1, hout, hkeep, hprep, .inr ⟨hr, rfl, hset.gave (took_of_park _ _), ?_⟩⟩
    rw [← hparked, ← hprep]
    simp only [parked, List.map_append, List.map_cons, List.map_nil]
    rfl

theorem Owned.tryPopOverflow (h : p.Owned op out) {r r' : Ring} {popped : RequestPool ρ}
    (hpop : p.tryPopOverflow r = (true, popped, r')) :
    ∃ slot q, r.HasSqe ∧ r' = r.push ⟨⟨op, slot⟩, q⟩ ∧ popped.Owned op (plus out slot) ∧
      p.parked = q :: popped.parked ∧ popped.objects = p.objects ∧
      q = IsRequest.prep (p.objects slot).fields := by
  unfold RequestPool.tryPopOverflow at hpop
  split at hpop
  · cases hpop
  · rename_i slot rest hover
    split at hpop
    · rename_i hr
      cases hpop
      refine ⟨slot, _, hr, ?_, h.took (took_sqeOverflow hover), ?_, rfl, rfl⟩
      · rw [submit, h.tag]
      · simp [parked, hover]
    · cases hpop

end RequestPool

end Omnipp.Utils
