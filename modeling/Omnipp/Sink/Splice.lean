import Omnipp.Kernel
import Omnipp.Lib.Loop

/-! # `sink::Splice`, and the pipe it reads -/

namespace Omnipp

/-- A file, a pipe of this process, and stdout. The pipe's write end stays open, so a read of the
empty pipe waits for ever. -/
structure Middle where
  content : Bytes
  pos : Nat
  pipe : Bytes
  out : Bytes
  inCalls : Nat
  outCalls : Nat

/-- A call that may never return: `none` is a call that waits for ever. -/
abbrev Blocking (α : Type) := Option (Except String α)

/-- `splice` from the file into the pipe. -/
def Middle.spliceIn (ins : Schedule) (capacity : Nat) (m : Middle) (count : Nat) :
    Blocking Nat × Middle :=
  let m' := { m with inCalls := m.inCalls + 1 }
  match ins m.inCalls with
  | .error text => (some (.error text), m')
  | .ok want =>
    if m.content.length ≤ m.pos then (some (.ok 0), m')
    else if capacity ≤ m.pipe.length then (none, m')
    else
      let n := granted want (min count (min (m.content.length - m.pos) (capacity - m.pipe.length)))
      (some (.ok n), { m' with pos := m.pos + n, pipe := m.pipe ++ (m.content.drop m.pos).take n })

/-- `splice` from the pipe to stdout. -/
def Middle.spliceOut (outs : Schedule) (m : Middle) (count : Nat) : Blocking Nat × Middle :=
  let m' := { m with outCalls := m.outCalls + 1 }
  if m.pipe.length = 0 then (none, m')
  else
    match outs m.outCalls with
    | .error text => (some (.error text), m')
    | .ok want =>
      let n := granted want (min count m.pipe.length)
      (some (.ok n), { m' with pipe := m.pipe.drop n, out := m.out ++ m.pipe.take n })

/-- The parts of the state that the sink does not touch. -/
def Middle.SameInput (m m' : Middle) : Prop :=
  m'.content = m.content ∧ m'.pos = m.pos ∧ m'.inCalls = m.inCalls

theorem Middle.SameInput.trans {m m' m'' : Middle} (h : m.SameInput m') (h' : m'.SameInput m'') :
    m.SameInput m'' :=
  ⟨h'.1.trans h.1, h'.2.1.trans h.2.1, h'.2.2.trans h.2.2⟩

theorem Middle.spliceOut_frame (outs : Schedule) (m : Middle) (count : Nat) :
    m.SameInput (m.spliceOut outs count).2 := by
  simp only [Middle.spliceOut]
  split
  · exact ⟨rfl, rfl, rfl⟩
  · split <;> exact ⟨rfl, rfl, rfl⟩

theorem Middle.spliceOut_empty {m : Middle} (outs : Schedule) (count : Nat) (h : m.pipe = []) :
    m.spliceOut outs count = (none, { m with outCalls := m.outCalls + 1 }) := by
  simp [Middle.spliceOut, h]

theorem Middle.spliceOut_ok {outs : Schedule} {m m' : Middle} {count n : Nat}
    (h : m.spliceOut outs count = (some (.ok n), m')) :
    m.pipe.length ≠ 0 ∧
      m' = { m with outCalls := m.outCalls + 1, pipe := m.pipe.drop n, out := m.out ++ m.pipe.take n } ∧
      n ≤ m.pipe.length := by
  simp only [Middle.spliceOut] at h
  split at h
  · simp at h
  · rename_i hne
    cases ha : outs m.outCalls with
    | error text => simp [ha] at h
    | ok want =>
      simp only [ha, Prod.mk.injEq, Option.some.injEq, Except.ok.injEq] at h
      obtain ⟨rfl, rfl⟩ := h
      have := granted_le want (min count m.pipe.length)
      exact ⟨hne, rfl, by omega⟩

theorem Middle.spliceOut_moves {outs : Schedule} {m : Middle} (count : Nat) (hne : m.pipe ≠ [])
    (hcount : 0 < count) (hok : ¬ Fails (outs m.outCalls)) :
    ∃ n, 0 < n ∧ n ≤ count ∧ n ≤ m.pipe.length ∧ m.spliceOut outs count =
      (some (.ok n), { m with outCalls := m.outCalls + 1, pipe := m.pipe.drop n
                              out := m.out ++ m.pipe.take n }) := by
  have hlen : 0 < m.pipe.length := List.length_pos_iff.mpr hne
  cases ha : outs m.outCalls with
  | error text => exact absurd ⟨text, ha⟩ hok
  | ok want =>
    have hpos := granted_pos want (show 0 < min count m.pipe.length by omega)
    have hle := granted_le want (min count m.pipe.length)
    refine ⟨granted want (min count m.pipe.length), hpos, by omega, by omega, ?_⟩
    simp only [Middle.spliceOut, ha]
    rw [if_neg (by omega)]

namespace Sink

/-- The loop of `sink::SpliceNode::operator()`. Each call asks for `size` bytes. -/
def spliceLoop (outs : Schedule) (size : Nat) : Loop (Nat × Middle) (Blocking Nat × Middle) where
  body st :=
    if st.1 < size then
      match st.2.spliceOut outs size with
      | (none, m) => .leave (none, m)
      | (some (.error _), m) => .leave (some (.error "failed to splice"), m)
      | (some (.ok n), m) => if n = 0 then .leave (some (.ok st.1), m) else .again (st.1 + n, m)
    else .leave (some (.ok st.1), st.2)
  rank st := st.2.pipe.length
  falls := by
    rintro ⟨amount, m⟩ st h
    simp only at h
    split at h
    · split at h
      · cases h
      · cases h
      · rename_i n m' hs
        split at h
        · cases h
        · cases h
          obtain ⟨hne, rfl, hle⟩ := Middle.spliceOut_ok hs
          simp only [List.length_drop]
          omega
    · cases h

/-- `sink::SpliceNode::operator()` -/
def splice (outs : Schedule) (size : Nat) (m : Middle) : Blocking Nat × Middle :=
  (spliceLoop outs size).run (0, m)

/-! ## What it takes out of the pipe -/

theorem splice_frame (outs : Schedule) (size : Nat) (m : Middle) :
    m.SameInput (splice outs size m).2 := by
  refine Loop.run_spec (l := spliceLoop outs size) (fun st => m.SameInput st.2)
    (fun r => m.SameInput r.2) ?_ ?_ (0, m) ⟨rfl, rfl, rfl⟩
  · rintro ⟨amount, k⟩ b h hb
    have hk := h.trans (k.spliceOut_frame outs size)
    simp only [spliceLoop] at hb
    split at hb
    · split at hb <;> rename_i hs <;> rw [hs] at hk
      · cases hb
      · cases hb
      · split at hb <;> cases hb
        exact hk
    · cases hb
  · rintro ⟨amount, k⟩ r h hb
    have hk := h.trans (k.spliceOut_frame outs size)
    simp only [spliceLoop] at hb
    split at hb
    · split at hb <;> rename_i hs <;> rw [hs] at hk
      · cases hb
        exact hk
      · cases hb
        exact hk
      · split at hb <;> cases hb
        exact hk
    · cases hb
      exact h

/-- The pipe holds `total` bytes that the sink has not counted yet, out of those it started with. -/
def SpliceInv (m : Middle) (st : Nat × Middle) : Prop :=
  st.1 + st.2.pipe.length = m.pipe.length ∧ st.2.out ++ st.2.pipe = m.out ++ m.pipe

/-- A sink that asks for what is in the pipe gets it. One that asks for more waits for ever. -/
theorem splice_spec (outs : Schedule) (hok : ∀ i, ¬ Fails (outs i)) (size : Nat) (m : Middle)
    (hle : m.pipe.length ≤ size) :
    (m.pipe.length < size → (splice outs size m).1 = none) ∧
    (m.pipe.length = size → (splice outs size m).1 = some (.ok size) ∧
      (splice outs size m).2.pipe = [] ∧ (splice outs size m).2.out = m.out ++ m.pipe) := by
  refine Loop.run_spec (l := spliceLoop outs size) (SpliceInv m)
    (fun r => (m.pipe.length < size → r.1 = none) ∧
      (m.pipe.length = size → r.1 = some (.ok size) ∧ r.2.pipe = [] ∧ r.2.out = m.out ++ m.pipe))
    ?_ ?_ (0, m) ⟨by simp, rfl⟩
  · rintro ⟨amount, k⟩ b ⟨hsum, hout⟩ hb
    simp only [spliceLoop] at hb hsum hout
    split at hb
    · rename_i hlt
      by_cases hk : k.pipe = []
      · simp [Middle.spliceOut_empty outs size hk] at hb
      · obtain ⟨n, hpos, -, hn, hs⟩ := Middle.spliceOut_moves size hk (by omega) (hok k.outCalls)
        simp only [hs] at hb
        rw [if_neg (by omega), Pass.again.injEq] at hb
        subst hb
        refine ⟨by simp only [List.length_drop]; omega, ?_⟩
        simp only [List.append_assoc, List.take_append_drop]
        exact hout
    · cases hb
  · rintro ⟨amount, k⟩ r ⟨hsum, hout⟩ hb
    simp only [spliceLoop] at hb hsum hout
    split at hb
    · rename_i hlt
      by_cases hk : k.pipe = []
      · -- Everything is out of the pipe and the sink still wants more.
        simp only [Middle.spliceOut_empty outs size hk, Pass.leave.injEq] at hb
        subst hb
        simp only [hk, List.length_nil] at hsum
        exact ⟨fun _ => rfl, fun h => by omega⟩
      · obtain ⟨n, hpos, -, hn, hs⟩ := Middle.spliceOut_moves size hk (by omega) (hok k.outCalls)
        simp only [hs] at hb
        rw [if_neg (by omega)] at hb
        cases hb
    · cases hb
      have hk : k.pipe = [] := List.eq_nil_of_length_eq_zero (by omega)
      simp only [hk, List.append_nil, List.length_nil] at hsum hout
      refine ⟨fun h => by omega, fun h => ⟨?_, hk, hout⟩⟩
      have : amount = size := by omega
      rw [this]

end Sink

end Omnipp
