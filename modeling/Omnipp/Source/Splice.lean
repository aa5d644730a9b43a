import Omnipp.Sink.Splice

/-! # `source::Splice` over `sink::Splice` -/

namespace Omnipp

theorem Middle.spliceIn_ok {ins : Schedule} {capacity : Nat} {m m' : Middle} {count n : Nat}
    (h : m.spliceIn ins capacity count = (some (.ok n), m')) :
    m'.content = m.content ∧ m'.pos = m.pos + n ∧ (n ≠ 0 → m.pos + n ≤ m.content.length) := by
  simp only [Middle.spliceIn] at h
  cases ha : ins m.inCalls with
  | error text => simp [ha] at h
  | ok want =>
    simp only [ha] at h
    split at h
    · simp only [Prod.mk.injEq, Option.some.injEq, Except.ok.injEq] at h
      obtain ⟨rfl, rfl⟩ := h
      simp
    · split at h
      · simp at h
      · simp only [Prod.mk.injEq, Option.some.injEq, Except.ok.injEq] at h
        obtain ⟨rfl, rfl⟩ := h
        have := granted_le want
          (min count (min (m.content.length - m.pos) (capacity - m.pipe.length)))
        exact ⟨rfl, rfl, fun _ => by omega⟩

theorem Middle.spliceIn_end {want : Nat} (m : Middle) (ins : Schedule) (capacity count : Nat)
    (ha : ins m.inCalls = .ok want) (hend : m.content.length ≤ m.pos) :
    m.spliceIn ins capacity count = (some (.ok 0), { m with inCalls := m.inCalls + 1 }) := by
  simp [Middle.spliceIn, ha, hend]

/-- After a splice of `n` bytes into the empty pipe. -/
def Middle.taken (m : Middle) (n : Nat) : Middle :=
  { m with inCalls := m.inCalls + 1, pos := m.pos + n, pipe := (m.content.drop m.pos).take n }

theorem Middle.spliceIn_moves {ins : Schedule} {capacity want : Nat} {m : Middle} (count : Nat)
    (ha : ins m.inCalls = .ok want) (hlt : m.pos < m.content.length) (hempty : m.pipe = [])
    (hcount : count ≤ capacity) (hpos : 0 < capacity) :
    m.spliceIn ins capacity count =
      (some (.ok (granted want (min count (m.content.length - m.pos)))),
        m.taken (granted want (min count (m.content.length - m.pos)))) := by
  have hroom : min count (min (m.content.length - m.pos) capacity) =
      min count (m.content.length - m.pos) := by omega
  simp only [Middle.spliceIn, Middle.taken, ha, hempty, List.length_nil, Nat.sub_zero,
    List.nil_append, hroom]
  rw [if_neg (by omega), if_neg (by omega)]

namespace Source

structure Splicing where
  offset : UInt64
  bytesOutput : Nat
  middle : Middle

/-- The loop of `source::SpliceNode::operator()`. What `next` is asked to move is `chunk_size`. -/
def spliceLoop (pipe : PipeSize) (ins outs : Schedule) (size : UInt64) :
    Loop Splicing (Blocking Nat × Middle) where
  body st :=
    if st.offset = size then .leave (some (.ok st.bytesOutput), st.middle)
    else
      let chunk := (min pipe.val (size - st.offset)).toNat
      match st.middle.spliceIn ins pipe.val.toNat chunk with
      | (none, m) => .leave (none, m)
      | (some (.error _), m) => .leave (some (.error "failed to splice data in"), m)
      | (some (.ok sent), m) =>
        if sent = 0 then .leave (some (.ok st.bytesOutput), m)
        else
          match Sink.splice outs chunk m with
          | (none, m) => .leave (none, m)
          | (some (.error e), m) => .leave (some (.error e), m)
          | (some (.ok processed), m) =>
            .again ⟨st.offset + UInt64.ofNat sent, st.bytesOutput + processed, m⟩
  rank st := st.middle.content.length - st.middle.pos
  falls := by
    intro st st' h
    split at h
    · cases h
    · simp only at h
      split at h
      · cases h
      · cases h
      · rename_i sent m hin
        split at h
        · cases h
        · rename_i hne
          obtain ⟨hc, hp, hle⟩ := Middle.spliceIn_ok hin
          obtain ⟨hc', hp', -⟩ :=
            Sink.splice_frame outs (min pipe.val (size - st.offset)).toNat m
          have hmoves : st.middle.pos < st.middle.pos + sent :=
            Nat.lt_add_of_pos_right (Nat.pos_of_ne_zero hne)
          split at h <;> rename_i hout <;> rw [hout] at hc' hp' <;> cases h
          simp only at hc' hp'
          rw [hc', hc, hp', hp]
          exact Nat.sub_lt_sub_left (Nat.lt_of_lt_of_le hmoves (hle hne)) hmoves

/-- `source::SpliceNode::operator()`. `pipes` and `pipeSize` are the answers to `pipe` and to
`F_SETPIPE_SZ`. -/
def splice (pipes : Except String Unit) (pipeSize : Except String PipeSize) (ins outs : Schedule)
    (size : UInt64) (m : Middle) : Blocking Nat × Middle :=
  match pipes with
  | .error text => (some (.error s!"failed to create pipes: {text}"), m)
  | .ok () =>
    match pipeSize with
    | .error text => (some (.error s!"failed to get out pipe size: {text}"), m)
    | .ok pipe => (spliceLoop pipe ins outs size).run ⟨0, 0, m⟩

end Source

end Omnipp
