import Omnipp.Source.Splice

/-! # The middleman pipe of `cat`

`source::Splice` asks its sink for the chunk it wanted to read, not for what it read. After a
short splice in, the sink asks for more than is in the pipe.
-/

open Omnipp.Source

namespace Omnipp.Cat

/-- `chunk_size` of round `i`, when the rounds before were full. -/
def chunkOf (size : UInt64) (pipe : PipeSize) (i : Nat) : Nat :=
  min pipe.val.toNat (size.toNat - i * pipe.val.toNat)

/-- The splice of round `i` moves its whole chunk: the file still has that much, and the kernel is
not short. -/
def FullRound (content : Bytes) (size : UInt64) (pipe : PipeSize) (wants : Nat → Nat) (i : Nat) :
    Prop :=
  granted (wants i) (min (chunkOf size pipe i) (content.length - i * pipe.val.toNat)) =
    chunkOf size pipe i

def FullRounds (content : Bytes) (size : UInt64) (pipe : PipeSize) (wants : Nat → Nat) : Prop :=
  ∀ i, i * pipe.val.toNat < min size.toNat content.length → FullRound content size pipe wants i

section Round
variable (content : Bytes) (size : UInt64) (pipe : PipeSize) (wants : Nat → Nat) (outs : Schedule)

/-- The loop, after `k` full rounds. -/
def AtRound (k : Nat) (st : Splicing) : Prop :=
  st.offset.toNat = min (k * pipe.val.toNat) size.toNat ∧ st.bytesOutput = st.offset.toNat ∧
    st.middle.content = content ∧ st.middle.pos = st.offset.toNat ∧
    st.middle.pos ≤ content.length ∧ st.middle.pipe = [] ∧
    st.middle.out = content.take st.middle.pos ∧ st.middle.inCalls = k

/-- What a run that returned has done. -/
def Delivered (r : Blocking Nat × Middle) : Prop :=
  r.1 = some (.ok (min size.toNat content.length)) ∧ r.2.pipe = [] ∧
    r.2.out = content.take (min size.toNat content.length)

variable {content size pipe wants outs}

theorem pipe_pos (pipe : PipeSize) : 0 < pipe.val.toNat := UInt64.lt_iff_toNat_lt.mp pipe.pos

theorem round_in (wants : Nat → Nat) {k : Nat} {st : Splicing} (h : AtRound content size pipe k st)
    (hk : k * pipe.val.toNat < min size.toNat content.length) :
    ∃ n, n = granted (wants k) (min (chunkOf size pipe k) (content.length - k * pipe.val.toNat)) ∧
      0 < n ∧ n ≤ chunkOf size pipe k ∧ n ≤ content.length - k * pipe.val.toNat ∧
      st.offset ≠ size ∧ (min pipe.val (size - st.offset)).toNat = chunkOf size pipe k ∧
      st.middle.spliceIn (fun i => .ok (wants i)) pipe.val.toNat (chunkOf size pipe k) =
        (some (.ok n), st.middle.taken n) := by
  obtain ⟨hoff, hbytes, hc, hpos, hle, hempty, hout, hcalls⟩ := h
  have hpipe := pipe_pos pipe
  have hchunk : (min pipe.val (size - st.offset)).toNat = chunkOf size pipe k := by
    rw [chunk_toNat _ _ _ (UInt64.le_iff_toNat_le.mpr (by omega)), chunkOf]
    omega
  have hcpos : 0 < chunkOf size pipe k := by
    unfold chunkOf
    omega
  have hroom : 0 < min (chunkOf size pipe k) (content.length - k * pipe.val.toNat) := by omega
  have hgpos := granted_pos (wants k) hroom
  have hgle := granted_le (wants k) (min (chunkOf size pipe k) (content.length - k * pipe.val.toNat))
  refine ⟨_, rfl, hgpos, by omega, by omega, ?_, hchunk, ?_⟩
  · intro he
    rw [he] at hoff
    omega
  · rw [Middle.spliceIn_moves (chunkOf size pipe k) (by rw [hcalls]) (by rw [hc]; omega) hempty
      (Nat.min_le_left _ _) hpipe]
    have hp : st.middle.pos = k * pipe.val.toNat := by omega
    rw [hc, hp]

theorem round_body (wants : Nat → Nat) (outs : Schedule) {k n : Nat} {st : Splicing} {m : Middle}
    (hne : st.offset ≠ size) (hchunk : (min pipe.val (size - st.offset)).toNat = chunkOf size pipe k)
    (hin : st.middle.spliceIn (fun i => .ok (wants i)) pipe.val.toNat (chunkOf size pipe k) =
      (some (.ok n), m)) (hn : 0 < n) :
    (spliceLoop pipe (fun i => .ok (wants i)) outs size).body st =
      match Sink.splice outs (chunkOf size pipe k) m with
      | (none, m) => .leave (none, m)
      | (some (.error e), m) => .leave (some (.error e), m)
      | (some (.ok processed), m) =>
        .again ⟨st.offset + UInt64.ofNat n, st.bytesOutput + processed, m⟩ := by
  simp only [spliceLoop]
  rw [if_neg hne, hchunk, hin]
  exact if_neg (by omega)

theorem round_full (hok : ∀ i, ¬ Fails (outs i)) {k : Nat} {st : Splicing}
    (h : AtRound content size pipe k st) (hk : k * pipe.val.toNat < min size.toNat content.length)
    (hfull : FullRound content size pipe wants k) :
    ∃ st', (spliceLoop pipe (fun i => .ok (wants i)) outs size).body st = .again st' ∧
      AtRound content size pipe (k + 1) st' := by
  obtain ⟨n, hn, hpos0, hnle, hroom, hne, hchunk, hin⟩ := round_in wants h hk
  rw [FullRound, ← hn] at hfull
  obtain ⟨hoff, hbytes, hc, hpos, hle, hempty, hout, hcalls⟩ := h
  have hplen : (st.middle.taken n).pipe.length = n := by
    simp only [Middle.taken, List.length_take, List.length_drop, hc]
    omega
  have hbody := round_body wants outs hne hchunk hin hpos0
  obtain ⟨-, hdrain⟩ := Sink.splice_spec outs hok (chunkOf size pipe k) (st.middle.taken n) (by omega)
  obtain ⟨hres, hpipe', hout'⟩ := hdrain (by omega)
  obtain ⟨hc', hp', hi'⟩ := Sink.splice_frame outs (chunkOf size pipe k) (st.middle.taken n)
  have hsize := size.toNat_lt
  have hend : k * pipe.val.toNat + n = min ((k + 1) * pipe.val.toNat) size.toNat := by
    rw [hfull, Nat.succ_mul]
    unfold chunkOf
    omega
  have hadd := offset_add st.offset n (by omega)
  generalize Sink.splice outs (chunkOf size pipe k) _ = out at hbody hres hpipe' hout' hc' hp' hi'
  obtain ⟨answer, m⟩ := out
  simp only [Middle.taken] at hres hpipe' hout' hc' hp' hi'
  subst hres
  refine ⟨_, hbody, by simp only [hadd]; omega, by simp only [hadd]; omega, hc'.trans hc, ?_, ?_,
    hpipe', ?_, by simp only [hi', hcalls]⟩
  · simp only [hp', hadd]
    omega
  · simp only [hp']
    omega
  · simp only [hout', hp', hout, hc, List.take_add]

theorem round_short (wants : Nat → Nat) (hok : ∀ i, ¬ Fails (outs i)) {k : Nat} {st : Splicing}
    (h : AtRound content size pipe k st) (hk : k * pipe.val.toNat < min size.toNat content.length)
    (hshort : ¬ FullRound content size pipe wants k) :
    ∃ m, (spliceLoop pipe (fun i => .ok (wants i)) outs size).body st = .leave (none, m) := by
  obtain ⟨n, hn, hpos0, hnle, hroom, hne, hchunk, hin⟩ := round_in wants h hk
  rw [FullRound, ← hn] at hshort
  have hbody := round_body wants outs hne hchunk hin hpos0
  have hplen : (st.middle.taken n).pipe.length ≤ n := by
    simp only [Middle.taken, List.length_take]
    omega
  obtain ⟨hwaits, -⟩ := Sink.splice_spec outs hok (chunkOf size pipe k) (st.middle.taken n) (by omega)
  have hres := hwaits (by omega)
  generalize Sink.splice outs (chunkOf size pipe k) _ = out at hbody hres
  obtain ⟨answer, m⟩ := out
  simp only at hres
  subst hres
  exact ⟨m, hbody⟩

theorem round_last (wants : Nat → Nat) (outs : Schedule) {k : Nat} {st : Splicing}
    (h : AtRound content size pipe k st) (hk : min size.toNat content.length ≤ k * pipe.val.toNat) :
    ∃ r, (spliceLoop pipe (fun i => .ok (wants i)) outs size).body st = .leave r ∧
      Delivered content size r := by
  obtain ⟨hoff, hbytes, hc, hpos, hle, hempty, hout, hcalls⟩ := h
  subst hc
  by_cases hs : st.offset = size
  · refine ⟨_, by simp only [spliceLoop]; rw [if_pos hs], ?_⟩
    have hmin : min size.toNat st.middle.content.length = st.middle.pos := by rw [← hs]; omega
    exact ⟨by rw [hmin, hbytes, hpos], hempty, by rw [hmin]; exact hout⟩
  · have hne : st.offset.toNat ≠ size.toNat := fun he => hs (UInt64.toNat_inj.mp he)
    have hmin : min size.toNat st.middle.content.length = st.middle.pos := by omega
    refine ⟨(some (.ok st.bytesOutput), { st.middle with inCalls := st.middle.inCalls + 1 }), ?_, ?_⟩
    · simp only [spliceLoop]
      have hin := st.middle.spliceIn_end (fun i => .ok (wants i)) pipe.val.toNat
        (min pipe.val (size - st.offset)).toNat rfl (by omega)
      rw [if_neg hs, hin]
      rfl
    · exact ⟨by rw [hmin, hbytes, hpos], hempty, by rw [hmin]; exact hout⟩

/-- What one pass does: it moves a whole chunk, it waits for ever, or there is nothing left. -/
theorem round_cases (wants : Nat → Nat) (hok : ∀ i, ¬ Fails (outs i)) {k : Nat} {st : Splicing}
    (h : AtRound content size pipe k st) :
    (FullRound content size pipe wants k ∧
      ∃ st', (spliceLoop pipe (fun i => .ok (wants i)) outs size).body st = .again st' ∧
        AtRound content size pipe (k + 1) st') ∨
    (k * pipe.val.toNat < min size.toNat content.length ∧ ¬ FullRound content size pipe wants k ∧
      ∃ m, (spliceLoop pipe (fun i => .ok (wants i)) outs size).body st = .leave (none, m)) ∨
    (min size.toNat content.length ≤ k * pipe.val.toNat ∧
      ∃ r, (spliceLoop pipe (fun i => .ok (wants i)) outs size).body st = .leave r ∧
        Delivered content size r) := by
  by_cases hk : k * pipe.val.toNat < min size.toNat content.length
  · by_cases hfull : FullRound content size pipe wants k
    · exact .inl ⟨hfull, round_full hok h hk hfull⟩
    · exact .inr (.inl ⟨hk, hfull, round_short wants hok h hk hfull⟩)
  · exact .inr (.inr ⟨by omega, round_last wants outs h (by omega)⟩)

theorem round_again (hok : ∀ i, ¬ Fails (outs i)) {k : Nat} {st st' : Splicing}
    (h : AtRound content size pipe k st)
    (hb : (spliceLoop pipe (fun i => .ok (wants i)) outs size).body st = .again st') :
    FullRound content size pipe wants k ∧ AtRound content size pipe (k + 1) st' := by
  rcases round_cases wants hok h with ⟨hfull, st'', hst, hnext⟩ | ⟨-, -, m, hm⟩ | ⟨-, r, hr, -⟩
  · rw [hb, Pass.again.injEq] at hst
    subst hst
    exact ⟨hfull, hnext⟩
  · rw [hb] at hm
    cases hm
  · rw [hb] at hr
    cases hr

theorem rounds_from (wants : Nat → Nat) (hok : ∀ i, ¬ Fails (outs i)) {k : Nat} {st : Splicing}
    (h : AtRound content size pipe k st) :
    Delivered content size ((spliceLoop pipe (fun i => .ok (wants i)) outs size).run st) ↔
      ∀ i, k ≤ i → i * pipe.val.toNat < min size.toNat content.length →
        FullRound content size pipe wants i := by
  induction st using Loop.run.induct (spliceLoop pipe (fun i => .ok (wants i)) outs size)
    generalizing k with
  | case1 st r hb =>
    rw [Loop.run_leave _ hb]
    rcases round_cases wants hok h with ⟨-, st', hst, -⟩ | ⟨hk, hshort, m, hm⟩ | ⟨hk, r', hr, hd⟩
    · rw [hb] at hst
      cases hst
    · rw [hb, Pass.leave.injEq] at hm
      subst hm
      constructor
      · rintro ⟨hret, -⟩
        cases hret
      · intro hall
        exact absurd (hall k (le_refl k) hk) hshort
    · rw [hb, Pass.leave.injEq] at hr
      subst hr
      refine ⟨fun _ i hi hlt => ?_, fun _ => hd⟩
      have := Nat.mul_le_mul_right pipe.val.toNat hi
      omega
  | case2 st st' hb ih =>
    rw [Loop.run_again _ hb]
    obtain ⟨hfull, hnext⟩ := round_again hok h hb
    rw [ih hnext]
    constructor
    · intro hall i hi hlt
      rcases Nat.eq_or_lt_of_le hi with rfl | hgt
      · exact hfull
      · exact hall i hgt hlt
    · intro hall i hi hlt
      exact hall i (by omega) hlt

end Round

def fresh (content : Bytes) : Middle := ⟨content, 0, [], [], 0, 0⟩

theorem at_round_zero (content : Bytes) (size : UInt64) (pipe : PipeSize) :
    AtRound content size pipe 0 ⟨0, 0, fresh content⟩ := by
  simp [AtRound, fresh]

/-- `source::Splice | sink::Splice` delivers the file, with the pipe empty after each round, exactly
when no round is short. -/
theorem middleman_iff_full_rounds (content : Bytes) (size : UInt64) (pipe : PipeSize)
    (wants drains : Nat → Nat) :
    (Delivered content size (Source.splice (.ok ()) (.ok pipe) (fun i => .ok (wants i))
        (fun i => .ok (drains i)) size (fresh content)) ∧
      ∀ st, (spliceLoop pipe (fun i => .ok (wants i)) (fun i => .ok (drains i)) size).Visits
        ⟨0, 0, fresh content⟩ st → st.middle.pipe = []) ↔
      FullRounds content size pipe wants := by
  have hok := fun i => ok_not_fails (drains i)
  have hstart := at_round_zero content size pipe
  have hrun := rounds_from wants hok hstart
  constructor
  · rintro ⟨hd, -⟩ i hi
    exact hrun.mp hd i (Nat.zero_le i) hi
  · intro hall
    refine ⟨hrun.mpr fun i _ hi => hall i hi, fun st hv => ?_⟩
    obtain ⟨k, hk⟩ := hv.inv (fun st => ∃ k, AtRound content size pipe k st)
      (fun a b ⟨k, hk⟩ hb => ⟨k + 1, (round_again hok hk hb).2⟩) ⟨0, hstart⟩
    exact hk.2.2.2.2.2.1

/-- Two bytes, of which the first splice moves one: the sink waits for the other. -/
theorem middleman_waits_for_ever :
    (Source.splice (.ok ()) (.ok ⟨4096, by decide⟩) (fun _ => .ok 1) (fun _ => .ok 1) 2
      (fresh [65, 66])).1 = none := by
  obtain ⟨m, hm⟩ := round_short (fun _ => 1) (fun _ => ok_not_fails 1)
    (at_round_zero [65, 66] 2 ⟨4096, by decide⟩) (by decide) (by unfold FullRound; decide)
  rw [Source.splice, Loop.run_leave _ hm]

end Omnipp.Cat
