import Omnipp.Utils.Ownership

/-!
# Calls on one pool

Any calls of `next`, `try_pop_overflow` and `free`, in any order. Between two of them anything may
happen to the ring and, by the other pools, to `in_flight_`: each call has a ring of its own.
-/

open Function Omnipp.History

namespace Omnipp.Utils

variable {ρ : Type} [IsRequest ρ]

/-- `args` is what the arguments of `reset` make of the entry. -/
inductive PoolCall (ρ : Type) where
  | next (r : Ring) (reset : ρ → ρ) (args : Prep)
  | tryPopOverflow (r : Ring)
  | free (r : Ring) (slot : Slot)

/-- A pool and what happened to it: the objects that hold a submission entry, what the calls have
added to `in_flight_`, the requests that were parked and those that were popped. -/
structure PoolUse (ρ : Type) where
  pool : RequestPool ρ
  submitted : List Slot
  net : UInt64
  parkings : List (Slot × Prep)
  pops : List (Slot × Prep)

namespace PoolUse

def start (op : Op) (size : Nat) : PoolUse ρ := ⟨.make op size, [], 0, [], []⟩

/-- The entries that a call put into the submission queue. -/
def entered (r r' : Ring) : List (Slot × Prep) :=
  (r'.sq.drop r.sq.length).map fun sqe => (sqe.data.slot, sqe.prep)

def next (u : PoolUse ρ) (r : Ring) (reset : ρ → ρ) (args : Prep) : PoolUse ρ :=
  let (pool, r') := u.pool.next r reset
  { u with
    pool
    submitted := u.submitted ++ (entered r r').map Prod.fst
    net := u.net + (r'.inFlight - r.inFlight)
    parkings := u.parkings ++ (pool.sqeOverflow.drop u.pool.sqeOverflow.length).map fun slot => (slot, args) }

def tryPopOverflow (u : PoolUse ρ) (r : Ring) : PoolUse ρ :=
  let (_, pool, r') := u.pool.tryPopOverflow r
  { u with
    pool
    submitted := u.submitted ++ (entered r r').map Prod.fst
    net := u.net + (r'.inFlight - r.inFlight)
    pops := u.pops ++ entered r r' }

def free (u : PoolUse ρ) (r : Ring) (slot : Slot) : PoolUse ρ :=
  let (pool, r') := u.pool.free r slot
  { u with
    pool
    submitted := u.submitted.erase slot
    net := u.net + (r'.inFlight - r.inFlight) }

def call (u : PoolUse ρ) : PoolCall ρ → PoolUse ρ
  | .next r reset args => u.next r reset args
  | .tryPopOverflow r => u.tryPopOverflow r
  | .free r slot => u.free r slot

/-- `reset` overwrites everything that `prep` looks at, and an object is freed once for each time it
was submitted. -/
def Allowed (u : PoolUse ρ) : PoolCall ρ → Prop
  | .next _ reset args => ∀ x, IsRequest.prep (reset x) = args
  | .tryPopOverflow _ => True
  | .free _ slot => slot ∈ u.submitted

/-- The pool of this kind and size, after some calls. -/
def Called (op : Op) (size : Nat) (u : PoolUse ρ) : Prop :=
  ∃ past, Run (fun u c u' => u' = u.call c) Allowed (start op size) past u

/-! ## The invariant -/

/-- What is parked, with the entries that it will make. -/
def waiting (p : RequestPool ρ) : List (Slot × Prep) :=
  p.sqeOverflow.map fun slot => (slot, IsRequest.prep (p.objects slot).fields)

structure Inv (op : Op) (size : Nat) (u : PoolUse ρ) : Prop where
  owned : u.pool.Owned op fun slot => u.submitted.count slot
  sized : u.pool.size = size
  own : ∀ slot ∈ u.pool.freeList, ∃ i < size, slot = .pool i
  extra : ∀ slot ∈ u.pool.extraFree, ∃ i, slot = .extra i
  net : u.net = UInt64.ofNat u.submitted.length
  fifo : u.parkings = u.pops ++ waiting u.pool

theorem inv_start (op : Op) (size : Nat) : Inv op size (start op size : PoolUse ρ) where
  owned := RequestPool.owned_make op size
  sized := rfl
  own := by simp [start, RequestPool.make]
  extra := by simp [start, RequestPool.make]
  net := rfl
  fifo := rfl

theorem entered_self (r : Ring) : entered r r = [] := by simp [entered]

theorem entered_push (r : Ring) (sqe : Sqe) : entered r (r.push sqe) = [(sqe.data.slot, sqe.prep)] := by
  simp [entered, Ring.push]

theorem inFlight_push (r : Ring) (sqe : Sqe) : (r.push sqe).inFlight - r.inFlight = 1 := by
  rw [Ring.push, UInt64.add_comm, UInt64.add_sub_cancel]

/-! ## One call -/

theorem count_submitted (submitted : List Slot) (slot : Slot) :
    (fun x => (submitted ++ [slot]).count x) = RequestPool.plus (fun x => submitted.count x) slot := by
  funext x
  rw [List.count_append, RequestPool.count_cons_eq, List.count_nil, Nat.zero_add, RequestPool.plus]

theorem count_freed {submitted : List Slot} {slot : Slot} (h : slot ∈ submitted) :
    (fun x => submitted.count x) = RequestPool.plus (fun x => (submitted.erase slot).count x) slot := by
  funext x
  rw [(List.perm_cons_erase h).count_eq x, RequestPool.count_cons_eq, RequestPool.plus]

/-- Where `grab` takes an object from, the rest stays. -/
theorem grab_lists (p : RequestPool ρ) :
    p.grab.2.size = p.size ∧ (∀ slot ∈ p.grab.2.freeList, slot ∈ p.freeList) ∧
      ∀ slot ∈ p.grab.2.extraFree, slot ∈ p.extraFree := by
  unfold RequestPool.grab
  split
  · rename_i slot rest hfree
    exact ⟨rfl, fun x hx => by rw [hfree]; exact List.mem_cons_of_mem slot hx, fun _ hx => hx⟩
  · split
    · rename_i slot rest hfree
      exact ⟨rfl, fun _ hx => hx, fun x hx => by rw [hfree]; exact List.mem_cons_of_mem slot hx⟩
    · exact ⟨rfl, fun _ hx => hx, fun _ hx => hx⟩

variable {op : Op} {size : Nat} {u : PoolUse ρ}

/-- The pool with the object that `next` gives out, after `reset`. -/
def grabbed (p : RequestPool ρ) (reset : ρ → ρ) : RequestPool ρ := p.grab.2.resetAt p.grab.1 reset

theorem next_submits (u : PoolUse ρ) {r : Ring} (hr : r.HasSqe) (reset : ρ → ρ) (args : Prep)
    (hover : (grabbed u.pool reset).sqeOverflow = u.pool.sqeOverflow) :
    u.next r reset args =
      { u with
        pool := grabbed u.pool reset
        submitted := u.submitted ++ [u.pool.grab.1]
        net := u.net + 1 } := by
  unfold PoolUse.next
  rw [RequestPool.next_eq, if_pos hr]
  change PoolUse.mk _ _ _ (u.parkings ++ ((grabbed u.pool reset).sqeOverflow.drop _).map _) _ = _
  simp only [RequestPool.submit, entered_push, inFlight_push, hover, List.drop_length, List.map_nil,
    List.append_nil, List.map_cons]
  rfl

theorem next_parks (u : PoolUse ρ) {r : Ring} (hr : ¬ r.HasSqe) (reset : ρ → ρ) (args : Prep)
    (hover : (grabbed u.pool reset).sqeOverflow = u.pool.sqeOverflow) :
    u.next r reset args =
      { u with
        pool := { grabbed u.pool reset with sqeOverflow := u.pool.sqeOverflow ++ [u.pool.grab.1] }
        parkings := u.parkings ++ [(u.pool.grab.1, args)] } := by
  have hgrab : u.pool.grab.2.sqeOverflow = u.pool.sqeOverflow := hover
  unfold PoolUse.next
  rw [RequestPool.next_eq, if_neg hr]
  simp only [entered_self, hgrab, List.drop_left, List.map_nil, List.append_nil, List.map_cons,
    UInt64.sub_self, UInt64.add_zero]
  rfl

/-- What `next` has before it asks for an entry. -/
structure Taken (op : Op) (size : Nat) (u : PoolUse ρ) (args : Prep) (q : RequestPool ρ) : Prop where
  owned : q.Owned op (RequestPool.plus (fun x => u.submitted.count x) u.pool.grab.1)
  sized : q.size = size
  own : ∀ slot ∈ q.freeList, ∃ i < size, slot = .pool i
  extra : ∀ slot ∈ q.extraFree, ∃ i, slot = .extra i
  overflow : q.sqeOverflow = u.pool.sqeOverflow
  waiting : waiting q = waiting u.pool
  prep : IsRequest.prep (q.objects u.pool.grab.1).fields = args

theorem Inv.taken (h : Inv op size u) {reset : ρ → ρ} {args : Prep}
    (hargs : ∀ x, IsRequest.prep (reset x) = args) : Taken op size u args (grabbed u.pool reset) := by
  obtain ⟨hown, -, hover, hsame, hobj⟩ := h.owned.grab
  obtain ⟨hsize, hfree, hextra⟩ := grab_lists u.pool
  refine ⟨hown.resetAt u.pool.grab.1 reset, hsize.trans h.sized, fun slot hslot => h.own slot (hfree slot hslot),
    fun slot hslot => h.extra slot (hextra slot hslot), hsame, ?_, ?_⟩
  · unfold PoolUse.waiting
    rw [show (grabbed u.pool reset).sqeOverflow = u.pool.sqeOverflow from hsame]
    apply List.map_congr_left
    intro slot hslot
    have hne : slot ≠ u.pool.grab.1 := fun he => hover (he ▸ hslot)
    rw [grabbed, RequestPool.resetAt_of_ne _ reset hne, hobj slot hne]
  · simp [grabbed, RequestPool.resetAt, hargs]

theorem Inv.next (h : Inv op size u) (r : Ring) {reset : ρ → ρ} {args : Prep}
    (hargs : ∀ x, IsRequest.prep (reset x) = args) : Inv op size (u.next r reset args) := by
  have ht := h.taken hargs
  by_cases hr : r.HasSqe
  · rw [next_submits u hr reset args ht.overflow]
    refine ⟨?_, ht.sized, ht.own, ht.extra, ?_, ?_⟩
    · simp only [count_submitted]
      exact ht.owned
    · simp [h.net]
    · simp only [h.fifo, ht.waiting]
  · rw [next_parks u hr reset args ht.overflow]
    refine ⟨?_, ht.sized, ht.own, ht.extra, h.net, ?_⟩
    · have hpark := ht.owned.gave (RequestPool.took_of_park _ u.pool.grab.1)
      rwa [ht.overflow] at hpark
    · have hlast : waiting { grabbed u.pool reset with
          sqeOverflow := u.pool.sqeOverflow ++ [u.pool.grab.1] } =
            waiting u.pool ++ [(u.pool.grab.1, args)] := by
        rw [← ht.waiting, ← ht.prep, waiting, waiting, ht.overflow, List.map_append]
        rfl
      simp only [h.fifo, hlast, List.append_assoc]

theorem tryPopOverflow_empty (u : PoolUse ρ) {r : Ring} (h : u.pool.tryPopOverflow r = (false, u.pool, r)) :
    u.tryPopOverflow r = u := by
  unfold PoolUse.tryPopOverflow
  rw [h]
  simp [entered_self]

theorem tryPopOverflow_pops (u : PoolUse ρ) {r : Ring} {slot : Slot} {rest : List Slot}
    (hover : u.pool.sqeOverflow = slot :: rest) (hr : r.HasSqe) :
    u.tryPopOverflow r =
      { u with
        pool := { u.pool with sqeOverflow := rest }
        submitted := u.submitted ++ [slot]
        net := u.net + 1
        pops := u.pops ++ [(slot, IsRequest.prep (u.pool.objects slot).fields)] } := by
  have hpop : u.pool.tryPopOverflow r =
      (true, { u.pool with sqeOverflow := rest }, u.pool.submit r slot) := by
    unfold RequestPool.tryPopOverflow
    rw [hover]
    exact if_pos hr
  unfold PoolUse.tryPopOverflow
  rw [hpop]
  simp only [RequestPool.submit, entered_push, inFlight_push, List.map_cons, List.map_nil]

theorem Inv.tryPopOverflow (h : Inv op size u) (r : Ring) : Inv op size (u.tryPopOverflow r) := by
  cases hover : u.pool.sqeOverflow with
  | nil =>
    rw [tryPopOverflow_empty u (by rw [RequestPool.tryPopOverflow, hover])]
    exact h
  | cons slot rest =>
    by_cases hr : r.HasSqe
    · rw [tryPopOverflow_pops u hover hr]
      refine ⟨?_, h.sized, h.own, h.extra, ?_, ?_⟩
      · simp only [count_submitted]
        exact h.owned.took (RequestPool.took_sqeOverflow hover)
      · simp [h.net]
      · simp [h.fifo, waiting, hover]
    · rw [tryPopOverflow_empty u (by rw [RequestPool.tryPopOverflow, hover]; exact if_neg hr)]
      exact h

omit [IsRequest ρ] in
theorem free_own (p : RequestPool ρ) (r : Ring) {slot : Slot} (h : p.Owns slot) :
    p.free r slot =
      ({ p with freeList := slot :: p.freeList }, { r with inFlight := r.inFlight - 1 }) := if_pos h

omit [IsRequest ρ] in
theorem free_extra (p : RequestPool ρ) (r : Ring) {slot : Slot} (h : ¬ p.Owns slot) :
    p.free r slot =
      ({ p with extraFree := slot :: p.extraFree }, { r with inFlight := r.inFlight - 1 }) := if_neg h

omit [IsRequest ρ] in
theorem free_inFlight (p : RequestPool ρ) (r : Ring) (slot : Slot) :
    (p.free r slot).2.inFlight = r.inFlight - 1 := by
  by_cases h : p.Owns slot
  · rw [free_own p r h]
  · rw [free_extra p r h]

theorem waiting_free (p : RequestPool ρ) (r : Ring) (slot : Slot) : waiting (p.free r slot).1 = waiting p := by
  by_cases h : p.Owns slot
  · rw [free_own p r h]
    rfl
  · rw [free_extra p r h]
    rfl

/-- A freed object goes back where it came from. -/
theorem Inv.free_lists (h : Inv op size u) (r : Ring) {slot : Slot} (hvalid : u.pool.Valid slot) :
    (u.pool.free r slot).1.size = size ∧
      (∀ x ∈ (u.pool.free r slot).1.freeList, ∃ i < size, x = .pool i) ∧
      ∀ x ∈ (u.pool.free r slot).1.extraFree, ∃ i, x = .extra i := by
  match slot, hvalid with
  | .pool i, hvalid =>
    have hown : u.pool.Owns (.pool i) := hvalid
    rw [free_own _ r hown]
    refine ⟨h.sized, fun x hx => ?_, h.extra⟩
    rcases List.mem_cons.mp hx with rfl | hx
    · exact ⟨i, h.sized ▸ hown, rfl⟩
    · exact h.own x hx
  | .extra i, _ =>
    have hown : ¬ u.pool.Owns (.extra i) := id
    rw [free_extra _ r hown]
    refine ⟨h.sized, h.own, fun x hx => ?_⟩
    rcases List.mem_cons.mp hx with rfl | hx
    · exact ⟨i, rfl⟩
    · exact h.extra x hx

theorem Inv.free (h : Inv op size u) (r : Ring) {slot : Slot} (hslot : slot ∈ u.submitted) :
    Inv op size (u.free r slot) := by
  have hvalid := h.owned.valid (List.count_pos_iff.mpr hslot)
  obtain ⟨hsize, hown, hextra⟩ := h.free_lists r hvalid
  refine ⟨?_, hsize, hown, hextra, ?_, ?_⟩
  · have hfreed := h.owned
    rw [count_freed hslot] at hfreed
    exact hfreed.free slot r
  · have hlen := List.length_erase_of_mem hslot
    have hpos := List.length_pos_of_mem hslot
    have hone : u.submitted.length = (u.submitted.erase slot).length + 1 := by omega
    simp only [PoolUse.free, free_inFlight, h.net, hone, UInt64.ofNat_add]
    grind
  · rw [PoolUse.free, waiting_free]
    exact h.fifo

theorem Called.inv (h : Called op size u) : Inv op size u := by
  obtain ⟨past, hrun⟩ := h
  apply hrun.keeps (Inv op size) (inv_start op size)
  rintro t call _ ht hok rfl
  cases call with
  | next r reset args => exact ht.next r hok
  | tryPopOverflow r => exact ht.tryPopOverflow r
  | free r slot => exact ht.free r hok

/-! ## The representation -/

/-- Every object is in one place, the lists of free objects hold their own, and what the calls did to
`in_flight_` is the number of objects that hold an entry. What was parked was popped in the same
order, or waits, with the arguments of its `reset`. -/
structure Represents (op : Op) (size : Nat) (u : PoolUse ρ) : Prop where
  place : ∀ slot, u.pool.freeList.count slot + u.pool.extraFree.count slot + u.pool.sqeOverflow.count slot +
    u.submitted.count slot = if u.pool.Valid slot then 1 else 0
  freeList : ∀ slot ∈ u.pool.freeList, ∃ i < size, slot = .pool i
  room : u.pool.freeList.length ≤ size
  extraFree : ∀ slot ∈ u.pool.extraFree, ∃ i < u.pool.extras, slot = .extra i
  tags : ∀ slot ∈ u.submitted ++ u.pool.sqeOverflow, (u.pool.objects slot).op = op
  net : u.net = UInt64.ofNat u.submitted.length
  fifo : u.parkings = u.pops ++ waiting u.pool

theorem Inv.valid (h : Inv op size u) {slot : Slot} (hslot : 0 < u.pool.stored slot + u.submitted.count slot) :
    u.pool.Valid slot := by
  have honce := h.owned.once slot
  by_contra hv
  rw [if_neg hv] at honce
  omega

/-- At most as many objects are free as there are in `pool_`. -/
theorem Inv.room (h : Inv op size u) : u.pool.freeList.length ≤ size := by
  have hnodup : u.pool.freeList.Nodup := by
    rw [List.nodup_iff_count_le_one]
    intro slot
    have := h.owned.stored_le slot
    unfold RequestPool.stored at this
    omega
  have hsub : u.pool.freeList ⊆ (List.range size).map Slot.pool := by
    intro slot hslot
    obtain ⟨i, hi, rfl⟩ := h.own slot hslot
    exact List.mem_map_of_mem (List.mem_range.mpr hi)
  simpa using (hnodup.subperm hsub).length_le

theorem Inv.represents (h : Inv op size u) : Represents op size u where
  place := h.owned.once
  freeList := h.own
  room := h.room
  extraFree := by
    intro slot hslot
    obtain ⟨i, rfl⟩ := h.extra slot hslot
    have hcount := List.count_pos_iff.mpr hslot
    have hvalid : u.pool.Valid (.extra i) := by
      apply h.valid
      unfold RequestPool.stored
      omega
    exact ⟨i, hvalid, rfl⟩
  tags := by
    intro slot hslot
    apply h.owned.tags
    apply h.valid
    have hcount := List.count_pos_iff.mpr hslot
    rw [List.count_append] at hcount
    unfold RequestPool.stored
    omega
  net := h.net
  fifo := h.fifo

/-- The representation invariant of a pool, after any calls. A `free` has room for the object that it
puts back, and does not take `in_flight_` below what the others have in it. -/
theorem request_pool_invariant (op : Op) (size : Nat) (u : PoolUse ρ) (h : Called op size u) :
    Represents op size u ∧
    ∀ (r : Ring), ∀ slot ∈ u.submitted,
      Represents op size (u.free r slot) ∧
      ∀ others, r.inFlight.toNat = others + u.submitted.length →
        (u.pool.free r slot).2.inFlight.toNat = others + (u.free r slot).submitted.length ∧
        (u.pool.free r slot).2.inFlight.toNat + 1 = r.inFlight.toNat := by
  refine ⟨h.inv.represents, fun r slot hslot => ⟨(h.inv.free r hslot).represents, fun others hr => ?_⟩⟩
  have hpos := List.length_pos_of_mem hslot
  have hlen : (u.free r slot).submitted.length = u.submitted.length - 1 := List.length_erase_of_mem hslot
  have hone : (1 : UInt64) ≤ r.inFlight := by
    rw [UInt64.le_iff_toNat_le, hr]
    exact Nat.le_add_left_of_le hpos
  rw [free_inFlight, UInt64.toNat_sub_of_le _ _ hone, hlen, hr]
  simp only [UInt64.toNat_one]
  omega

/-- A ring that has room for `entries` more. -/
def emptyRing (entries : Nat) : Ring := ⟨entries, [], [], [], 0⟩

/-- A pool of one. The second request is a new object and is parked, and then it is popped. -/
theorem request_pool_invariant_of_two :
    let u : PoolUse CloseRequest := (((start .close 1).next (emptyRing 1) (fun _ => ⟨3⟩) (.close 3)).next
      (emptyRing 0) (fun _ => ⟨4⟩) (.close 4)).tryPopOverflow (emptyRing 1)
    u.submitted = [.pool 0, .extra 0] ∧ Represents .close 1 u ∧
      Represents .close 1 (u.free (emptyRing 1) (.pool 0)) := by
  intro u
  have hnext : ∀ (v : PoolUse CloseRequest) (r : Ring) (fd : Int),
      v.Allowed (.next r (fun _ => ⟨fd⟩) (.close fd)) := fun v r fd x => rfl
  have hpop : ∀ (v : PoolUse CloseRequest) (r : Ring), v.Allowed (.tryPopOverflow r) := fun v r => trivial
  have hcalled : Called .close 1 u := ⟨_, .snoc (.snoc (.snoc .nil (hnext _ (emptyRing 1) 3) rfl)
    (hnext _ (emptyRing 0) 4) rfl) (hpop _ (emptyRing 1)) rfl⟩
  have hsubmitted : u.submitted = [.pool 0, .extra 0] := rfl
  obtain ⟨hnow, hfree⟩ := request_pool_invariant .close 1 u hcalled
  exact ⟨hsubmitted, hnow, (hfree (emptyRing 1) (.pool 0) (by simp [hsubmitted])).1⟩

end PoolUse

end Omnipp.Utils
