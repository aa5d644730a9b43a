import Mathlib.Data.Multiset.Bind
import Omnipp.Utils.ReadChain

/-! # One buffer, request by request

After `queue_write(fd, buffer)`, `pump` queues the write of the rest behind the `write_handler_` of the
one before. `WriteRequest::prep` asks for the size of the whole buffer each time, and the result is added
to the offset also when it is an error. A write that finds the submission queue full stays parked.
-/

open Function Omnipp.History

namespace Omnipp.Utils

namespace Prep

def Writes : Prep → Prop
  | .write _ _ _ _ => True
  | _ => False

instance : DecidablePred Writes := fun q =>
  match q with
  | .write _ _ _ _ => .isTrue trivial
  | .openat _ _ _ | .close _ | .read _ _ _ => .isFalse id

/-- The number of bytes in the entry, where it is an `unsigned`. -/
def asked : Prep → Nat
  | .read _ count _ | .write _ _ _ count => count % 2 ^ 32
  | .openat _ _ _ | .close _ => 0

/-- What the kernel says about a write: an error, or how much of what was asked for it has taken. -/
def Answers (q : Prep) (res : Int) : Prop :=
  -2 ^ 31 ≤ res ∧ res < 2 ^ 31 ∧ (0 ≤ res → res.toNat ≤ q.asked) ∧ (res = 0 → q.asked = 0)

instance (q : Prep) (res : Int) : Decidable (q.Answers res) := inferInstanceAs (Decidable (_ ∧ _ ∧ _ ∧ _))

/-- The bytes that the kernel takes, counted from `data(buffer) + offset`. A byte outside of the buffer
is not known. -/
def taken : Prep → Int → List (Option Byte)
  | .write _ buffer offset _, res =>
    (List.range res.toNat).map fun i => buffer[(offset.toNat + i) % 2 ^ 64]?
  | _, _ => []

end Prep

namespace WriteRequest

/-- The request that `pump` queues behind the completion. -/
def after (req : WriteRequest) (res : Int) : Option WriteRequest :=
  let offset := req.offset + UInt64.ofInt res
  if offset.toNat ≠ req.buffer.length then some { req with offset } else none

/-- The request covers the bytes from its offset to the end of the buffer. -/
def Exact (req : WriteRequest) : Prop :=
  req.offset.toNat ≤ req.buffer.length ∧
    req.offset.toNat + (IsRequest.prep req).asked = req.buffer.length

end WriteRequest

/-- The completions that a queued write has had, and the request that is out now. A request that found
the submission queue full is parked, and has no completion. -/
inductive Answered (first : WriteRequest) (fits : Bool) :
    List (WriteRequest × Int) → Option (WriteRequest × Bool) → Prop
  | queued : Answered first fits [] (some (first, fits))
  | answer {log : List (WriteRequest × Int)} {req : WriteRequest} {res : Int}
      (h : Answered first fits log (some (req, true))) (ha : (IsRequest.prep req).Answers res) (room : Bool) :
      Answered first fits (log ++ [(req, res)]) ((req.after res).map fun next => (next, room))

/-- A queued write, from `queue_write` to now. -/
structure Delivery where
  first : WriteRequest
  -- The submission queue had room for it.
  fits : Bool
  log : List (WriteRequest × Int)
  -- The request that is out, and whether there was room for that.
  out : Option (WriteRequest × Bool)
  answered : Answered first fits log out

namespace Delivery

def requests (d : Delivery) : List WriteRequest := d.log.map Prod.fst ++ d.out.toList.map Prod.fst

/-- What has arrived at the descriptor. -/
def output (d : Delivery) : List (Option Byte) := d.log.flatMap fun x => (IsRequest.prep x.1).taken x.2

/-- The requests that were queued behind a completion that failed. -/
def retried (d : Delivery) : List WriteRequest :=
  (d.log.dropWhile fun x => 0 ≤ x.2).tail.map Prod.fst ++
    if d.log.any fun x => x.2 < 0 then d.out.toList.map Prod.fst else []

/-- The buffer is delivered as it is. Nothing of it is missing when no request is out, or when `pump` has
`returned`. -/
structure Delivers (returned : Prop) (d : Delivery) : Prop where
  exact : ∀ req ∈ d.requests, req.buffer = d.first.buffer ∧ req.Exact
  order : d.output <+: d.first.buffer.map some
  whole : d.out = none ∨ returned → (∀ x ∈ d.log, 0 ≤ x.2) → d.output = d.first.buffer.map some
  failed : ∀ req ∈ d.retried, req.offset.toNat ≤ d.first.buffer.length

end Delivery

section First
variable {first : WriteRequest} {fits : Bool} {log : List (WriteRequest × Int)}
  {out : Option (WriteRequest × Bool)}

/-- The first completion, and the requests behind it. -/
theorem Answered.split (h : Answered first fits log out) :
    (log = [] ∧ out = some (first, fits)) ∨
      ∃ res rest, fits = true ∧ log = (first, res) :: rest ∧ (IsRequest.prep first).Answers res ∧
        ((first.after res = none ∧ rest = [] ∧ out = none) ∨
          ∃ next room, first.after res = some next ∧ Answered next room rest out) := by
  induction h with
  | queued => exact .inl ⟨rfl, rfl⟩
  | @answer log req res h ha room ih =>
    rcases ih with ⟨rfl, hreq⟩ | ⟨res', rest, hfits, rfl, ha', ⟨-, -, hout⟩ | ⟨next, room', hnext, hrest⟩⟩
    · cases hreq
      refine .inr ⟨res, [], rfl, rfl, ha, ?_⟩
      rcases hafter : first.after res with _ | next
      · exact .inl ⟨rfl, rfl, rfl⟩
      · exact .inr ⟨next, room, rfl, .queued⟩
    · cases hout
    · have hlonger := hrest.answer ha room
      exact .inr ⟨res', rest ++ [(req, res)], hfits, rfl, ha', .inr ⟨next, room', hnext, hlonger⟩⟩

theorem Answered.first_mem (h : Answered first fits log out) :
    first ∈ log.map Prod.fst ++ out.toList.map Prod.fst := by
  rcases h.split with ⟨rfl, rfl⟩ | ⟨res, rest, -, rfl, -⟩
  · exact List.mem_singleton_self _
  · exact List.mem_cons_self

theorem WriteRequest.asked_eq (req : WriteRequest) :
    (IsRequest.prep req).asked = req.buffer.length % 2 ^ 32 := rfl

theorem WriteRequest.after_eq_none {req : WriteRequest} {res : Int} :
    req.after res = none ↔ (req.offset + UInt64.ofInt res).toNat = req.buffer.length := by
  simp [after]

theorem WriteRequest.eq_of_after {req next : WriteRequest} {res : Int} (h : req.after res = some next) :
    next = { req with offset := req.offset + UInt64.ofInt res } := by
  simp only [after, Option.ite_none_right_eq_some, Option.some.injEq] at h
  exact h.2.symm

theorem WriteRequest.toNat_next {req : WriteRequest} (h : req.offset = 0) (res : Int) :
    (req.offset + UInt64.ofInt res).toNat = (res % 2 ^ 64).toNat := by
  have hlt : (res % 2 ^ 64).toNat < UInt64.size := by
    unfold UInt64.size
    omega
  rw [h, UInt64.zero_add, UInt64.ofInt, UInt64.toNat_ofNat_of_lt' hlt]

/-- The request for a whole buffer takes the whole of it. -/
theorem WriteRequest.taken_all {req : WriteRequest} (h : req.offset = 0) (hlt : req.buffer.length < 2 ^ 32) :
    (IsRequest.prep req).taken req.buffer.length = req.buffer.map some := by
  refine List.ext_getElem (by simp [IsRequest.prep, Prep.taken]) fun i hi hi' => ?_
  rw [List.length_map] at hi'
  have hmod : i % 2 ^ 64 = i := Nat.mod_eq_of_lt (by omega)
  simp only [IsRequest.prep, Prep.taken, Int.toNat_natCast, List.getElem_map, List.getElem_range, h,
    UInt64.toNat_zero, Nat.zero_add, hmod, List.getElem?_eq_getElem hi']

end First

namespace Delivery

theorem first_exact {d : Delivery} (h : d.first.offset = 0) :
    d.first.Exact ↔ d.first.buffer.length < 2 ^ 32 := by
  have hlen := d.first.asked_eq
  unfold WriteRequest.Exact
  rw [hlen, h, UInt64.toNat_zero]
  omega

theorem result_of_delivers {d : Delivery} {returned : Prop} (h : d.first.offset = 0)
    (hd : d.Delivers returned) {x : WriteRequest × Int} (hx : x ∈ d.log.head?) : x.2 = d.first.buffer.length := by
  have hlt := (first_exact h).mp (hd.exact _ d.answered.first_mem).2
  have hlen := d.first.asked_eq
  rcases d.answered.split with ⟨hnil, -⟩ | ⟨res, rest, -, hlog, ⟨hmin, hmax, -, hzero⟩, hafter⟩
  · rw [hnil] at hx
    cases hx
  · rw [hlog] at hx
    cases hx
    have hnext := d.first.toNat_next h res
    rcases hafter with ⟨hafter, -, -⟩ | ⟨next, room, hafter, hrest⟩
    · -- The offset is at the end, and no error brings it there.
      rw [WriteRequest.after_eq_none, hnext] at hafter
      change res = _
      omega
    · have hmem : next ∈ d.requests := by
        rw [requests, hlog]
        exact List.mem_cons_of_mem _ hrest.first_mem
      obtain ⟨-, hle, hasked⟩ := hd.exact next hmem
      rw [WriteRequest.eq_of_after hafter] at hle hasked
      rw [WriteRequest.asked_eq] at hasked
      rw [hnext] at hle hasked
      change res = _
      omega

/-- A request that was parked when it was queued still is, and nothing of it is written. -/
theorem fits_of_delivers {d : Delivery} {returned : Prop} (hd : d.Delivers returned) (hret : returned) :
    d.fits = true ∨ d.first.buffer = [] := by
  rcases d.answered.split with ⟨hnil, -⟩ | ⟨res, rest, hfits, -⟩
  · right
    have hwhole := hd.whole (.inr hret) (by rw [hnil]; exact nofun)
    rw [output, hnil] at hwhole
    exact List.map_eq_nil_iff.mp hwhole.symm
  · exact .inl hfits

/-- When `pump` has returned, no request is out but those that are parked. -/
theorem delivers_of_result {d : Delivery} {returned : Prop} (h : d.first.offset = 0)
    (hlt : d.first.buffer.length < 2 ^ 32) (hres : ∀ x ∈ d.log.head?, x.2 = d.first.buffer.length)
    (hfits : returned → d.fits = true ∨ d.first.buffer = [])
    (hparked : returned → ∀ x ∈ d.out, x.2 = false) : d.Delivers returned := by
  have hexact := (first_exact h).mpr hlt
  have one (hone : d.requests = [d.first]) : ∀ req ∈ d.requests, req.buffer = d.first.buffer ∧ req.Exact := by
    rw [hone]
    intro req hreq
    rw [List.mem_singleton.mp hreq]
    exact ⟨rfl, hexact⟩
  rcases d.answered.split with ⟨hnil, hout⟩ | ⟨res, rest, -, hlog, -, hafter⟩
  · refine ⟨one ?_, ?_, ?_, ?_⟩
    · rw [requests, hnil, hout]
      rfl
    · rw [output, hnil]
      exact List.nil_prefix
    · rw [hout]
      rintro (hnone | hret) -
      · cases hnone
      · have hflag : d.fits = false := hparked hret (d.first, d.fits) hout
        have hempty := (hfits hret).resolve_left (by simp [hflag])
        rw [output, hnil, hempty]
        rfl
    · rw [retried, hnil]
      exact nofun
  · rw [hlog] at hres
    have hthis : res = d.first.buffer.length := hres _ rfl
    have hend : d.first.after res = none := by
      rw [WriteRequest.after_eq_none, d.first.toNat_next h, hthis]
      omega
    rcases hafter with ⟨-, hrest, hout⟩ | ⟨next, room, hafter, -⟩
    · rw [hrest, hthis] at hlog
      have hall : d.output = d.first.buffer.map some := by
        rw [output, hlog, List.flatMap_singleton]
        exact WriteRequest.taken_all h hlt
      refine ⟨one ?_, ?_, fun _ _ => hall, ?_⟩
      · rw [requests, hlog, hout]
        rfl
      · rw [hall]
      · rw [retried, hlog, hout]
        simp
    · rw [hend] at hafter
      cases hafter

end Delivery

/-! ## The writes of a run -/

theorem WriteRequest.eq_of_prep {req req' : WriteRequest} (h : IsRequest.prep req = IsRequest.prep req') :
    req = req' := by
  cases req
  cases req'
  simp only [IsRequest.prep, Prep.write.injEq] at h
  obtain ⟨rfl, rfl, rfl, -⟩ := h
  rfl

/-- The write that others ask for in the step, and whether the submission queue has room. -/
def Moment.writes (s : Moment) : Act → Multiset (WriteRequest × Bool)
  | .call (.write fd buffer offset) => {(⟨fd, offset, buffer⟩, decide s.ev.ring.HasSqe)}
  | _ => 0

/-- The completion of a write that is dealt with in the step. -/
def Act.answers : Act → Multiset (Prep × Int)
  | .handled sqe res => if sqe.data.home = .write then {(sqe.prep, res)} else 0
  | _ => 0

def writesCalled (past : List (Moment × Act)) : Multiset (WriteRequest × Bool) :=
  (past.map fun x => x.1.writes x.2).sum

def writesAnswered (past : List (Moment × Act)) : Multiset (Prep × Int) := (past.map fun x => x.2.answers).sum

theorem writesCalled_snoc (past : List (Moment × Act)) (s : Moment) (a : Act) :
    writesCalled (past ++ [(s, a)]) = writesCalled past + s.writes a := by
  simp [writesCalled]

theorem writesAnswered_snoc (past : List (Moment × Act)) (s : Moment) (a : Act) :
    writesAnswered (past ++ [(s, a)]) = writesAnswered past + a.answers := by
  simp [writesAnswered]

/-- The writes that are queued or outstanding. -/
def Moment.writesOut (s : Moment) : Multiset Prep := s.pending.filter Prep.Writes

/-- Those that have an entry in the ring. The others are parked. -/
def Moment.writesInRing (s : Moment) : Multiset Prep :=
  ((s.ev.ring.entriesWith s.held).map Sqe.prep).filter Prep.Writes

namespace Delivery

def completions (d : Delivery) : Multiset (Prep × Int) := ↑(d.log.map fun x => (IsRequest.prep x.1, x.2))

/-- The request that is out, if there was room for it or there was none. -/
def outstanding (room : Bool) (d : Delivery) : Multiset Prep :=
  ↑((d.out.toList.filter (·.2 = room)).map fun x => IsRequest.prep x.1)

end Delivery

/-- The run is made of these deliveries: one for each `queue_write` of others, with all the completions
of writes and all the writes that are out. -/
structure Tally (past : List (Moment × Act)) (s : Moment) (ds : Multiset Delivery) : Prop where
  firsts : ds.map (fun d => (d.first, d.fits)) = writesCalled past
  logs : ds.bind Delivery.completions = writesAnswered past
  ring : ds.bind (Delivery.outstanding true) = s.writesInRing
  parked : ds.bind (Delivery.outstanding false) = ↑s.ev.writes.parked

section Steps
variable {s t : Moment} {a : Act} {past : List (Moment × Act)} {ds : Multiset Delivery}

theorem EventLoop.preps_after (ev : EventLoop) (slot : Slot) (res : Int) :
    preps (ev.behindCalls .write slot res) =
      ↑(((ev.writes.objects slot).fields.after res).toList.map IsRequest.prep) := by
  simp only [behindCalls, WriteRequest.after]
  split
  · rfl
  · rfl

theorem filter_writes_prep (reqs : List WriteRequest) :
    (↑(reqs.map IsRequest.prep) : Multiset Prep).filter Prep.Writes = ↑(reqs.map IsRequest.prep) := by
  refine Multiset.filter_eq_self.mpr fun q hq => ?_
  obtain ⟨req, -, rfl⟩ := List.mem_map.mp (Multiset.mem_coe.mp hq)
  trivial

theorem writesOut_step (howns : s.Owns) (hd : Does s a t) (hre : ¬ Reenters s a) :
    t.writesOut + (Moment.dealt a).filter Prep.Writes =
      s.writesOut + (EventLoop.preps (s.made a)).filter Prep.Writes :=
  Moment.filter_step _ howns hd hre

/-! Where the writes are. -/

theorem RequestPool.filter_parked {ρ : Type} [IsRequest ρ] (p : RequestPool ρ)
    (h : ∀ x : ρ, ¬ (IsRequest.prep x).Writes) : (↑p.parked : Multiset Prep).filter Prep.Writes = 0 := by
  refine Multiset.filter_eq_nil.mpr fun q hq => ?_
  obtain ⟨slot, -, rfl⟩ := List.mem_map.mp (Multiset.mem_coe.mp hq)
  exact h _

theorem Moment.writesOut_eq (s : Moment) : s.writesOut = ↑s.ev.writes.parked + s.writesInRing := by
  have hwrites : (↑s.ev.writes.parked : Multiset Prep).filter Prep.Writes = ↑s.ev.writes.parked := by
    refine Multiset.filter_eq_self.mpr fun q hq => ?_
    obtain ⟨slot, -, rfl⟩ := List.mem_map.mp (Multiset.mem_coe.mp hq)
    trivial
  rw [writesOut, pending, EventLoop.pending, Multiset.filter_add, Multiset.filter_add, Multiset.filter_add,
    Multiset.filter_add, s.ev.openats.filter_parked fun _ => id, s.ev.closes.filter_parked fun _ => id,
    s.ev.reads.filter_parked fun _ => id, hwrites, writesInRing, zero_add, zero_add, zero_add]

theorem EventLoop.Sound.queueWrite_parked {ev : EventLoop} {held : Multiset Sqe} {away : Slot → Nat}
    (h : ev.Sound held away) (fd : Int) (buffer : Bytes) (offset : UInt64) :
    (↑(ev.queueWrite fd buffer offset).writes.parked : Multiset Prep) =
      ↑ev.writes.parked + if ev.ring.HasSqe then 0 else (Call.write fd buffer offset).preps := by
  have hprep : ∀ x : WriteRequest, IsRequest.prep ((fun _ => (⟨fd, offset, buffer⟩ : WriteRequest)) x) =
      .write fd buffer offset buffer.length := fun _ => rfl
  obtain ⟨slot, -, -, -, ⟨hr, -, -, hparked⟩ | ⟨hr, -, -, hparked⟩⟩ := h.writes.owned.next ev.ring hprep
  · rw [if_pos hr, add_zero]
    exact congrArg _ hparked
  · rw [if_neg hr]
    exact (congrArg _ hparked).trans (Multiset.coe_add _ _).symm

theorem EventLoop.behind_keeps_writes {ev ev' : EventLoop} {op : Op} (hop : op ≠ .write) {slot : Slot}
    {res : Int} (h : ev.behind op slot res = some ev') : ev'.writes = ev.writes := by
  rcases op with _ | _ | _ | _
  · obtain ⟨mid, rfl, ⟨-, rfl⟩ | ⟨-, hmid⟩⟩ := behind_openat h
    · rfl
    · exact (decreaseDirRef_aside hmid).2
  · cases h
    rfl
  · simp only [behind] at h
    split at h
    · cases h
      rfl
    · split at h <;> cases h <;> rfl
  · exact absurd rfl hop

theorem EventLoop.filter_writes_behind (ev : EventLoop) {op : Op} (hop : op ≠ .write) (slot : Slot)
    (res : Int) : (preps (ev.behindCalls op slot res)).filter Prep.Writes = 0 := by
  rcases op with _ | _ | _ | _
  · simp only [behindCalls]
    split
    · rfl
    · exact filter_lastRef _ (fun _ => id) ev _
  · rfl
  · simp only [behindCalls]
    split
    · rfl
    · split <;> rfl
  · exact absurd rfl hop

/-- A write is parked when it is queued without room for it, and stays so. -/
theorem parked_step (howns : s.Owns) (hd : Does s a t) :
    (↑t.ev.writes.parked : Multiset Prep) = ↑s.ev.writes.parked +
      if s.ev.ring.HasSqe then 0 else (EventLoop.preps (s.made a)).filter Prep.Writes := by
  obtain ⟨lost, hsound⟩ := howns.sound
  have still (hev : t.ev.writes = s.ev.writes) (hmade : (EventLoop.preps (s.made a)).filter Prep.Writes = 0) :
      (↑t.ev.writes.parked : Multiset Prep) = ↑s.ev.writes.parked +
        if s.ev.ring.HasSqe then 0 else (EventLoop.preps (s.made a)).filter Prep.Writes := by
    rw [hev, hmade, ite_self, add_zero]
  cases hd with
  | @call ev c hp hc =>
    rcases c with _ | _ | _ | _ | ⟨fd, buffer, offset⟩
    · exact still (EventLoop.queueOpenat_aside hc).2 rfl
    · cases hc
      exact still rfl rfl
    · cases hc
      exact still rfl rfl
    · cases hc
      exact still rfl rfl
    · cases hc
      exact hsound.queueWrite_parked fd buffer offset
  | listed hp hc =>
    exact still (EventLoop.decreaseDirRef_aside hc).2 (EventLoop.filter_lastRef _ (fun _ => id) _ _)
  | pop hp hc => exact still (EventLoop.popOverflow_aside hc).2 rfl
  | popped hp hc => exact still (EventLoop.popOverflow_aside hc).2 rfl
  | handle hp hcq => exact still (s.ev.before_writes _ _ _) rfl
  | @handled count sqe res op ev hp hc =>
    obtain ⟨-, rfl⟩ := howns.cqe _ _ _ _ hp
    by_cases hop : sqe.data.home = .write
    · have hmade := s.ev.preps_after sqe.data.slot res
      rw [Moment.made, hop, hmade, filter_writes_prep]
      rw [hop] at hc
      simp only [EventLoop.behind] at hc
      cases hc
      refine (congrArg _ (RequestPool.free_parked _ _ _)).trans ?_
      simp only [WriteRequest.after]
      split
      · exact hsound.queueWrite_parked _ _ _
      · rw [Option.toList_none, List.map_nil, Multiset.coe_nil, ite_self, add_zero]
    · exact still (EventLoop.behind_keeps_writes hop hc) (EventLoop.filter_writes_behind _ hop _ _)
  | _ => exact still rfl rfl

theorem writesInRing_step (howns : s.Owns) (hd : Does s a t) (hre : ¬ Reenters s a) :
    t.writesInRing + (Moment.dealt a).filter Prep.Writes = s.writesInRing +
      if s.ev.ring.HasSqe then (EventLoop.preps (s.made a)).filter Prep.Writes else 0 := by
  have hled := writesOut_step howns hd hre
  rw [Moment.writesOut_eq, Moment.writesOut_eq, parked_step howns hd] at hled
  refine add_left_cancel (a := (↑s.ev.writes.parked : Multiset Prep)) ?_
  split at hled
  · rename_i hr
    rw [add_zero, add_assoc, add_assoc] at hled
    rw [if_pos hr, hled]
  · rename_i hr
    rw [if_neg hr, add_zero]
    refine add_right_cancel (b := (EventLoop.preps (s.made a)).filter Prep.Writes) ?_
    rw [← hled]
    abel

/-! The deliveries follow them. -/

theorem Delivery.outstanding_of_out (d : Delivery) (next : Option WriteRequest) (room : Bool)
    (h : d.out = next.map fun req => (req, room)) (b : Bool) :
    d.outstanding b = if room = b then ↑(next.toList.map IsRequest.prep) else 0 := by
  unfold outstanding
  rw [h]
  rcases next with _ | req
  · simp
  · by_cases hb : room = b <;> simp [hb]

/-- The steps on which no write is queued and none is dealt with. -/
theorem Tally.of_none (h : Tally past s ds) (howns : s.Owns) (hd : Does s a t) (hre : ¬ Reenters s a)
    (hdealt : (Moment.dealt a).filter Prep.Writes = 0)
    (hmade : (EventLoop.preps (s.made a)).filter Prep.Writes = 0) (hwrites : s.writes a = 0)
    (hanswers : a.answers = 0) : Tally (past ++ [(s, a)]) t ds := by
  have hring := writesInRing_step howns hd hre
  have hparked := parked_step howns hd
  rw [hdealt, hmade, ite_self, add_zero, add_zero] at hring
  rw [hmade, ite_self, add_zero] at hparked
  refine ⟨?_, ?_, h.ring.trans hring.symm, h.parked.trans hparked.symm⟩
  · rw [writesCalled_snoc, hwrites, add_zero, h.firsts]
  · rw [writesAnswered_snoc, hanswers, add_zero, h.logs]

theorem Tally.of_call (h : Tally past s ds) (howns : s.Owns) {fd : Int} {buffer : Bytes} {offset : UInt64}
    (hd : Does s (.call (.write fd buffer offset)) t) :
    Tally (past ++ [(s, .call (.write fd buffer offset))]) t
      (⟨⟨fd, offset, buffer⟩, decide s.ev.ring.HasSqe, [], _, .queued⟩ ::ₘ ds) := by
  have hre : ¬ Reenters s (.call (.write fd buffer offset)) := fun hre => Act.noConfusion hre.1
  have hring := writesInRing_step howns hd hre
  have hparked := parked_step howns hd
  have hmade : EventLoop.preps (s.made (.call (.write fd buffer offset))) =
      ↑([(⟨fd, offset, buffer⟩ : WriteRequest)].map IsRequest.prep) := rfl
  have hdealt : Moment.dealt (.call (.write fd buffer offset)) = 0 := rfl
  rw [hmade, filter_writes_prep] at hring hparked
  rw [hdealt, Multiset.filter_zero, add_zero] at hring
  have hout (b : Bool) := Delivery.outstanding_of_out
    ⟨⟨fd, offset, buffer⟩, decide s.ev.ring.HasSqe, [], _, .queued⟩ (some ⟨fd, offset, buffer⟩) _ rfl b
  refine ⟨?_, ?_, ?_, ?_⟩
  · rw [Multiset.map_cons, h.firsts, writesCalled_snoc, ← Multiset.singleton_add, add_comm]
    rfl
  · rw [Multiset.cons_bind, h.logs, writesAnswered_snoc]
    exact add_comm 0 _
  · rw [Multiset.cons_bind, h.ring, hout, add_comm]
    simpa using hring.symm
  · rw [Multiset.cons_bind, h.parked, hout, hparked, add_comm]
    by_cases hr : s.ev.ring.HasSqe <;> simp [hr]

/-- The completion goes to the delivery whose request it is. -/
theorem Tally.of_handled (h : Tally past s ds) (howns : s.Owns) {count : Nat} {sqe : Sqe} {res : Int}
    (hp : s.spot = .handling count sqe res .write) (ha : sqe.prep.Answers res)
    (hd : Does s (.handled sqe res) t) : ∃ ds, Tally (past ++ [(s, .handled sqe res)]) t ds := by
  have hre : ¬ Reenters s (.handled sqe res) := fun hre => Act.noConfusion hre.1
  have hring := writesInRing_step howns hd hre
  have hparked := parked_step howns hd
  have hprep := howns.prep_write hp
  obtain ⟨hcq, hhome⟩ := howns.cqe _ _ _ _ hp
  generalize hreq : (s.ev.writes.objects sqe.data.slot).fields = req at hprep
  have hmade : EventLoop.preps (s.made (.handled sqe res)) = ↑((req.after res).toList.map IsRequest.prep) := by
    rw [← hreq, ← EventLoop.preps_after, hhome]
    rfl
  have hdealt : Moment.dealt (.handled sqe res) = ↑([req].map IsRequest.prep) := by
    rw [Moment.dealt, if_neg (by simp [← hhome]), hprep]
    rfl
  have hin : IsRequest.prep req ∈ s.writesInRing := by
    refine Multiset.mem_filter.mpr ⟨?_, trivial⟩
    rw [← hprep]
    exact Multiset.mem_map_of_mem _ (Moment.mem_entries_of_cqe (congrArg Spot.gone hp) hcq)
  rw [hmade, hdealt, filter_writes_prep, filter_writes_prep, ← h.ring] at hring
  rw [hmade, filter_writes_prep, ← h.parked] at hparked
  rw [← h.ring] at hin
  obtain ⟨d, hmem, hout⟩ := Multiset.mem_bind.mp hin
  obtain ⟨⟨req', room⟩, hreq', heq⟩ := List.mem_map.mp (Multiset.mem_coe.mp hout)
  obtain rfl : req = req' := (WriteRequest.eq_of_prep heq).symm
  simp only [List.mem_filter, Option.mem_toList, decide_eq_true_eq] at hreq'
  obtain ⟨hreq', rfl⟩ := hreq'
  obtain ⟨rest, rfl⟩ := Multiset.exists_cons_of_mem hmem
  obtain ⟨first, fits, log, out, hanswered⟩ := d
  cases hreq'
  rw [hprep] at ha
  let next : Delivery :=
    ⟨first, fits, log ++ [(req, res)], _, hanswered.answer ha (decide s.ev.ring.HasSqe)⟩
  have hbefore (b : Bool) := Delivery.outstanding_of_out ⟨first, fits, log, some (req, true), hanswered⟩
    (some req) true rfl b
  have hafter (b : Bool) := Delivery.outstanding_of_out next (req.after res) _ rfl b
  refine ⟨next ::ₘ rest, ?_, ?_, ?_, ?_⟩
  · rw [writesCalled_snoc, ← h.firsts, Multiset.map_cons, Multiset.map_cons]
    exact (add_zero _).symm
  · have hone : Act.answers (.handled sqe res) = ↑[(IsRequest.prep req, res)] := by
      rw [Act.answers, if_pos hhome.symm, hprep]
      rfl
    rw [writesAnswered_snoc, ← h.logs, hone, Multiset.cons_bind, Multiset.cons_bind, add_right_comm]
    refine congrArg (· + rest.bind Delivery.completions) ?_
    rw [Delivery.completions, Delivery.completions, Multiset.coe_add, List.map_append]
    rfl
  · refine add_right_cancel (b := ↑([req].map IsRequest.prep)) ?_
    rw [hring, Multiset.cons_bind, Multiset.cons_bind, hbefore, hafter]
    by_cases hr : s.ev.ring.HasSqe
    · simp only [hr, decide_true, if_true, Option.toList_some]
      abel
    · simp only [hr, decide_false, if_true, if_false, Option.toList_some, Bool.false_eq_true]
      abel
  · rw [hparked, Multiset.cons_bind, Multiset.cons_bind, hbefore, hafter]
    by_cases hr : s.ev.ring.HasSqe
    · simp [hr]
    · simp [hr, add_comm]

theorem Moment.Owns.not_writes (h : s.Owns) {count : Nat} {sqe : Sqe} {res : Int} {op : Op}
    (hp : s.spot = .handling count sqe res op) (hop : op ≠ .write) : ¬ sqe.prep.Writes := by
  rcases op with _ | _ | _ | _
  · rw [h.prep_openat hp]
    exact id
  · rw [h.prep_close hp]
    exact id
  · rw [h.prep_read hp]
    exact id
  · exact absurd rfl hop

theorem tally_step (h : Tally past s ds) (howns : s.Owns)
    (hanswers : ∀ x ∈ s.ev.ring.cq.drop s.spot.gone, x.1.prep.Writes → x.1.prep.Answers x.2)
    (hd : Does s a t) (hre : ¬ Reenters s a) : ∃ ds, Tally (past ++ [(s, a)]) t ds := by
  have still (hdealt : Moment.dealt a = 0) (hmade : s.made a = []) (hwrites : s.writes a = 0)
      (hanswers : a.answers = 0) : ∃ ds, Tally (past ++ [(s, a)]) t ds := by
    refine ⟨ds, h.of_none howns hd hre ?_ ?_ hwrites hanswers⟩
    · rw [hdealt]
      rfl
    · rw [hmade]
      rfl
  have hd' := hd
  cases hd with
  | @call ev c hp hc =>
    rcases c with _ | _ | _ | _ | _
    · exact ⟨ds, h.of_none howns hd' hre rfl rfl rfl rfl⟩
    · exact ⟨ds, h.of_none howns hd' hre rfl rfl rfl rfl⟩
    · exact ⟨ds, h.of_none howns hd' hre rfl rfl rfl rfl⟩
    · exact ⟨ds, h.of_none howns hd' hre rfl rfl rfl rfl⟩
    · exact ⟨_, h.of_call howns hd'⟩
  | listed hp hc =>
    exact ⟨ds, h.of_none howns hd' hre rfl (EventLoop.filter_lastRef _ (fun _ => id) _ _) rfl rfl⟩
  | @handle count sqe res hp hcq =>
    refine ⟨ds, h.of_none howns hd' hre ?_ rfl rfl rfl⟩
    simp only [Moment.dealt]
    split
    · rename_i hread
      rw [howns.prep_of_cqe (Moment.gone_reap hp) hcq hread.1]
      rfl
    · rfl
  | @handled count sqe res op ev hp hc =>
    obtain ⟨hcq, hop⟩ := howns.cqe _ _ _ _ hp
    by_cases hwrite : op = .write
    · subst hwrite
      have hgone : s.spot.gone = count := by
        rw [hp]
        rfl
      have hwrites : sqe.prep.Writes := by
        rw [howns.prep_write hp]
        trivial
      exact h.of_handled howns hp (hanswers _ (Moment.mem_results hgone hcq) hwrites) hd'
    · refine ⟨ds, h.of_none howns hd' hre ?_ ?_ rfl (if_neg fun heq => hwrite (hop.trans heq))⟩
      · simp only [Moment.dealt]
        split
        · rfl
        · rw [Multiset.filter_singleton, if_neg (howns.not_writes hp hwrite)]
          rfl
      · rw [Moment.made, ← hop]
        exact EventLoop.filter_writes_behind _ hwrite _ _
  | _ => exact still rfl rfl rfl rfl

/-- The kernel reports only what it may for a write. -/
def Act.Replies : Act → Prop
  | .complete sqe res => sqe.prep.Writes → sqe.prep.Answers res
  | _ => True

instance : DecidablePred Act.Replies := fun a => by
  cases a <;> unfold Act.Replies <;> infer_instance

theorem tally_of_run {entries size : Nat}
    (h : Run Does (fun s a => ¬ Reenters s a ∧ a.Replies) (Moment.fresh entries size) past s) :
    ∃ ds, Tally past s ds := by
  have hinv := h.invariant
    (fun past s => s.Owns ∧ (∀ x ∈ s.ev.ring.cq.drop s.spot.gone, x.1.prep.Writes → x.1.prep.Answers x.2) ∧
      ∃ ds, Tally past s ds)
    ⟨Moment.owns_start entries size, nofun, 0, rfl, rfl, rfl, rfl⟩ ?_
  · exact hinv.2.2
  rintro past s a t - ⟨howns, hanswers, ds, hds⟩ ⟨hre, ha⟩ hd
  refine ⟨(Moment.owns_step howns hd hre).1, ?_, tally_step hds howns hanswers hd hre⟩
  refine (ring_step howns hd hre).forall_results howns.bound hanswers ?_
  rintro sqe res rfl
  exact ha

end Steps

/-! ## The result -/

/-- The last step was the return of `pump` without an error. -/
def Returned (past : List (Moment × Act)) : Prop :=
  match past.getLast? with
  | some (_, .exit) => True
  | _ => False

instance (past : List (Moment × Act)) : Decidable (Returned past) := by
  unfold Returned
  split <;> infer_instance

theorem exit_of_returned {ok : Moment → Act → Prop} {a s : Moment} {past : List (Moment × Act)}
    (h : Run Does ok a past s) (hret : Returned past) :
    ∃ before r, Run Does ok a before r ∧ Does r .exit s := by
  cases h with
  | nil => exact hret.elim
  | @snoc before r _ act h hok hd =>
    unfold Returned at hret
    rw [List.getLast?_concat] at hret
    split at hret
    · rename_i heq
      cases heq
      exact ⟨before, r, h, hd⟩
    · exact hret.elim

/-- Only a request that is parked is out when `pump` has returned. -/
theorem Tally.parked_of_returned {ok : Moment → Act → Prop} {entries size : Nat} {past : List (Moment × Act)}
    {s : Moment} {ds : Multiset Delivery} (htally : Tally past s ds)
    (h : Run Does ok (Moment.fresh entries size) past s) (hok : ∀ s a, ok s a → ¬ Reenters s a)
    (hmem : s.ev.objectCount < 2 ^ 64) (hret : Returned past) {d : Delivery} (hd : d ∈ ds) :
    ∀ x ∈ d.out, x.2 = false := by
  obtain ⟨before, r, hrun, hexit⟩ := exit_of_returned h hret
  have hnone : s.writesInRing = 0 := by
    cases hexit with
    | exit hp hzero =>
      have hempty := ring_empty_at_exit (hrun.mono hok) hmem hzero
      have hheld : Moment.held { r with spot := .phase (.outside (.ok ())) } = r.held := by
        rw [Moment.held, Moment.held, hp]
        rfl
      rw [Moment.writesInRing, hheld, hempty]
      rfl
  rintro ⟨req, room⟩ hout
  by_contra hroom
  have hroom' : room = true := Bool.eq_true_of_not_eq_false hroom
  have hout' : d.out = (some req).map fun req => (req, true) := by
    rw [hout, hroom']
    rfl
  have hin : IsRequest.prep req ∈ s.writesInRing := by
    rw [← htally.ring]
    refine Multiset.mem_bind.mpr ⟨d, hd, ?_⟩
    rw [Delivery.outstanding_of_out d _ _ hout', if_pos rfl]
    exact Multiset.mem_coe.mpr (List.mem_singleton_self _)
  rw [hnone] at hin
  exact Multiset.notMem_zero _ hin

/-- A run is made of deliveries. One of a buffer that was queued with offset 0 is exact if and only if the
first completion, if there was one, reports the whole of it, and `pump` has not returned with it in
`sqe_overflow_`, where a write stays that found the submission queue full. The objects of the pools are in
memory, so there are fewer than 2^64. -/
theorem queued_write_is_delivered_iff {entries size : Nat} {past : List (Moment × Act)} {s : Moment}
    (h : Run Does (fun s a => ¬ Reenters s a ∧ a.Replies) (Moment.fresh entries size) past s)
    (hmem : s.ev.objectCount < 2 ^ 64) :
    (∃ ds, Tally past s ds) ∧
      ∀ ds, Tally past s ds → ∀ d ∈ ds, d.first.offset = 0 → (d.Delivers (Returned past) ↔
        d.first.buffer.length < 2 ^ 32 ∧ (∀ x ∈ d.log.head?, x.2 = d.first.buffer.length) ∧
          (Returned past → d.fits = true ∨ d.first.buffer = [])) := by
  refine ⟨tally_of_run h, fun ds htally d hd hzero => ⟨fun hdel => ⟨?_, ?_, ?_⟩, ?_⟩⟩
  · exact (Delivery.first_exact hzero).mp (hdel.exact _ d.answered.first_mem).2
  · exact fun x hx => Delivery.result_of_delivers hzero hdel hx
  · exact Delivery.fits_of_delivers hdel
  · rintro ⟨hlt, hres, hfits⟩
    exact Delivery.delivers_of_result hzero hlt hres hfits fun hret =>
      htally.parked_of_returned h (fun _ _ => And.left) hmem hret hd

deriving instance DecidableEq for Prep, WriteRequest

instance (past : List (Moment × Act)) (s : Moment) (ds : Multiset Delivery) : Decidable (Tally past s ds) :=
  decidable_of_iff (ds.map (fun d => (d.first, d.fits)) = writesCalled past ∧
      ds.bind Delivery.completions = writesAnswered past ∧
      ds.bind (Delivery.outstanding true) = s.writesInRing ∧
      ds.bind (Delivery.outstanding false) = ↑s.ev.writes.parked)
    ⟨fun h => ⟨h.1, h.2.1, h.2.2.1, h.2.2.2⟩, fun h => ⟨h.firsts, h.logs, h.ring, h.parked⟩⟩

/-- `queue_write(1, "hi")`. -/
def twoBytes : WriteRequest := ⟨1, 0, [104, 105]⟩

def wholeWrite : Delivery := ⟨twoBytes, true, [(twoBytes, 2)], _, .answer .queued (by decide) true⟩

/-- A run with one write, and what becomes of it. -/
theorem tally_of_play (entries size : Nat) (d : Delivery) (P : List (Moment × Act) × Moment → Prop)
    (moves : List Move)
    (h : ∃ r ∈ (Moment.fresh entries size).playAll moves,
      (Tally r.1 r.2 {d} ∧ P r) ∧ ∀ x ∈ r.1, ¬ x.2.Fails ∧ x.2.Replies) :
    ∃ past s, Run Does (fun s a => ¬ Reenters s a ∧ a.Replies) (Moment.fresh entries size) past s ∧
      Tally past s {d} ∧ P (past, s) := by
  obtain ⟨past, s, hrun, htally, hok⟩ :=
    Moment.run_of_play (fun _ a => ¬ a.Fails ∧ a.Replies) h fun r hr => hr.2
  exact ⟨past, s, (run_without_reentry hrun fun _ _ => And.left).restrict fun x hx => (hok x hx).2, htally⟩

/-- `pump` returns behind the completion. -/
theorem queued_write_of_two_bytes_is_delivered :
    ∃ past s, Run Does (fun s a => ¬ Reenters s a ∧ a.Replies) (Moment.fresh 4096 4096) past s ∧
      Tally past s {wholeWrite} ∧ Returned past ∧ wholeWrite.Delivers (Returned past) := by
  obtain ⟨past, s, hrun, htally, hmem, hret⟩ := tally_of_play 4096 4096 wholeWrite
    (fun r => r.2.ev.objectCount < 2 ^ 64 ∧ Returned r.1)
    (.call (.write 1 [104, 105] 0) :: List.replicate 8 Move.pump ++ [.complete 0 2] ++
      List.replicate 9 Move.pump) (by decide +kernel)
  exact ⟨past, s, hrun, htally, hret, ((queued_write_is_delivered_iff hrun hmem).2 _ htally wholeWrite
    (Multiset.mem_singleton_self _) rfl).mpr ⟨by decide, by decide, fun _ => .inl rfl⟩⟩

/-- One byte is taken, and then two from the second on. -/
def shortWrite : Delivery :=
  have hone : Answered twoBytes true [(twoBytes, 1)] (some (⟨1, 1, [104, 105]⟩, true)) :=
    .answer .queued (by decide) true
  ⟨twoBytes, true, [(twoBytes, 1), (⟨1, 1, [104, 105]⟩, 2)], _, hone.answer (by decide) true⟩

/-- The first completion reports `EIO`. -/
def failedWrite : Delivery := ⟨twoBytes, true, [(twoBytes, -5)], _, .answer .queued (by decide) true⟩

def parkedWrite : Delivery := ⟨twoBytes, false, [], _, .queued⟩

/-- A byte outside of the buffer is written after a short write, and after an error a write is queued
whose offset is outside of the buffer. In a queue of one entry, which a close fills, a write is parked,
and `pump` returns when the close is done. -/
theorem writes_that_are_not_delivered :
    (∃ past s, Run Does (fun s a => ¬ Reenters s a ∧ a.Replies) (Moment.fresh 4096 4096) past s ∧
      Tally past s {shortWrite} ∧ shortWrite.output = [some 104, some 105, none] ∧
      ¬ shortWrite.Delivers (Returned past)) ∧
    (∃ past s, Run Does (fun s a => ¬ Reenters s a ∧ a.Replies) (Moment.fresh 4096 4096) past s ∧
      Tally past s {failedWrite} ∧ failedWrite.retried = [⟨1, 18446744073709551611, [104, 105]⟩] ∧
      ¬ failedWrite.Delivers (Returned past)) ∧
    ∃ past s, Run Does (fun s a => ¬ Reenters s a ∧ a.Replies) (Moment.fresh 1 1) past s ∧
      Tally past s {parkedWrite} ∧ Returned past ∧ parkedWrite.output = [] ∧
      ¬ parkedWrite.Delivers (Returned past) := by
  obtain ⟨past, s, hrun, htally, -⟩ := tally_of_play 4096 4096 shortWrite (fun _ => True)
    (.call (.write 1 [104, 105] 0) :: List.replicate 8 Move.pump ++ [.complete 0 1] ++
      List.replicate 11 Move.pump ++ [.complete 0 2] ++ List.replicate 3 Move.pump) (by decide +kernel)
  obtain ⟨past', s', hrun', htally', -⟩ := tally_of_play 4096 4096 failedWrite (fun _ => True)
    (.call (.write 1 [104, 105] 0) :: List.replicate 8 Move.pump ++ [.complete 0 (-5)] ++
      List.replicate 3 Move.pump) (by decide +kernel)
  obtain ⟨past'', s'', hrun'', htally'', hret⟩ := tally_of_play 1 1 parkedWrite (fun r => Returned r.1)
    ([.call (.close 9), .call (.write 1 [104, 105] 0)] ++ List.replicate 7 Move.pump ++ [.complete 0 0] ++
      List.replicate 9 Move.pump) (by decide +kernel)
  have hout : shortWrite.output = [some 104, some 105, none] := by decide
  have hretried : failedWrite.retried = [⟨1, 18446744073709551611, [104, 105]⟩] := by decide
  refine ⟨⟨past, s, hrun, htally, hout, fun hd => ?_⟩, ⟨past', s', hrun', htally', hretried, fun hd => ?_⟩,
    ⟨past'', s'', hrun'', htally'', hret, rfl, fun hd => ?_⟩⟩
  · have horder := hd.order
    rw [hout] at horder
    exact absurd horder (by decide)
  · have hfailed := hd.failed ⟨1, 18446744073709551611, [104, 105]⟩
      (by rw [hretried]; exact List.mem_singleton_self _)
    exact absurd hfailed (by decide)
  · have hwhole := hd.whole (.inr hret) nofun
    exact absurd hwhole (by decide)

end Omnipp.Utils
