import Mathlib.Data.List.Induction
import Omnipp.Pipeline

/-! # `transform::Batch` -/

namespace Omnipp.Transform

variable {σ : Type}

def bufferSize : Nat := 64 * 1024

/-- `BatchNode::operator()(std::string_view)`, on `buffer_` and what is behind the node. -/
def batch (next : Stage Bytes σ) : Stage Bytes (Bytes × σ) := fun data st =>
  let buffer := st.1 ++ data
  if bufferSize ≤ buffer.length then
    match next buffer st.2 with
    | (.error e, t) => (.error e, buffer, t)
    | (.ok written, t) => (.ok written, [], t)
  else (.ok 0, buffer, st.2)

/-- `BatchNode::operator()()`. It leaves `buffer_` as it is. -/
def flush (next : Stage Bytes σ) (st : Bytes × σ) : Expected × Bytes × σ :=
  match next st.1 st.2 with
  | (.error e, t) => (.error e, st.1, t)
  | (.ok _, t) => (.ok st.1.length, st.1, t)

/-! ## The payloads -/

/-- The buffers that pushes fill, and the buffer they leave. -/
def filled : Bytes → List Bytes → List Bytes × Bytes
  | buffer, [] => ([], buffer)
  | buffer, data :: rest =>
    if bufferSize ≤ (buffer ++ data).length then
      ((buffer ++ data) :: (filled [] rest).1, (filled [] rest).2)
    else filled (buffer ++ data) rest

def payloads (pushes : List Bytes) : List Bytes := (filled [] pushes).1 ++ [(filled [] pushes).2]

theorem filled_full {buffer data : Bytes} (rest : List Bytes)
    (h : bufferSize ≤ (buffer ++ data).length) :
    filled buffer (data :: rest) =
      ((buffer ++ data) :: (filled [] rest).1, (filled [] rest).2) := by
  rw [filled, if_pos h]

theorem filled_room {buffer data : Bytes} (rest : List Bytes)
    (h : (buffer ++ data).length < bufferSize) :
    filled buffer (data :: rest) = filled (buffer ++ data) rest := by
  rw [filled, if_neg (by omega)]

theorem filled_flatten (buffer : Bytes) (pushes : List Bytes) :
    (filled buffer pushes).1.flatten ++ (filled buffer pushes).2 = buffer ++ pushes.flatten := by
  induction pushes generalizing buffer with
  | nil => simp [filled]
  | cons data rest ih =>
    by_cases h : bufferSize ≤ (buffer ++ data).length
    · have := ih []
      rw [List.nil_append] at this
      rw [filled_full rest h]
      simp [this]
    · rw [filled_room rest (by omega), ih]
      simp

theorem payloads_flatten (pushes : List Bytes) : (payloads pushes).flatten = pushes.flatten := by
  simpa [payloads] using filled_flatten [] pushes

theorem filled_append (buffer : Bytes) (xs ys : List Bytes) :
    filled buffer (xs ++ ys) =
      ((filled buffer xs).1 ++ (filled (filled buffer xs).2 ys).1,
        (filled (filled buffer xs).2 ys).2) := by
  induction xs generalizing buffer with
  | nil => simp [filled]
  | cons data rest ih =>
    by_cases h : bufferSize ≤ (buffer ++ data).length
    · rw [List.cons_append, filled_full _ h, filled_full _ h, ih]
      rfl
    · rw [List.cons_append, filled_room _ (by omega), filled_room _ (by omega), ih]

/-- A buffer is delivered with its last push in it, and what is left has room. -/
theorem filled_sizes {longest : Nat} {buffer : Bytes} {pushes : List Bytes}
    (hbuffer : buffer.length < bufferSize) (hpushes : ∀ p ∈ pushes, p.length ≤ longest) :
    (∀ b ∈ (filled buffer pushes).1, bufferSize ≤ b.length ∧ b.length < bufferSize + longest) ∧
      (filled buffer pushes).2.length < bufferSize := by
  induction pushes generalizing buffer with
  | nil => exact ⟨by simp [filled], hbuffer⟩
  | cons data rest ih =>
    have hdata := hpushes data List.mem_cons_self
    have hrest := fun p hp => hpushes p (List.mem_cons_of_mem data hp)
    by_cases h : bufferSize ≤ (buffer ++ data).length
    · obtain ⟨hfull, hlast⟩ := @ih [] (by decide) hrest
      rw [filled_full rest h]
      refine ⟨fun b hb => ?_, hlast⟩
      rcases List.mem_cons.mp hb with rfl | hb
      · exact ⟨h, by rw [List.length_append]; omega⟩
      · exact hfull b hb
    · rw [filled_room rest (by omega)]
      exact ih (by omega) hrest

theorem feed_batch {next : Stage Bytes σ} {buffer : Bytes} {pushes : List Bytes} {s t : σ} {n : Nat}
    (h : feed next (filled buffer pushes).1 s = (.ok n, t)) :
    feed (batch next) pushes (buffer, s) = (.ok n, (filled buffer pushes).2, t) := by
  induction pushes generalizing buffer s n with
  | nil =>
    simp only [filled, feed, Prod.mk.injEq, Except.ok.injEq] at h
    obtain ⟨rfl, rfl⟩ := h
    rfl
  | cons data rest ih =>
    by_cases hfull : bufferSize ≤ (buffer ++ data).length
    · rw [filled_full rest hfull] at h ⊢
      obtain ⟨m, u, k, hnext, hrest, rfl⟩ := feed_cons_ok h
      rw [feed, batch, if_pos hfull, hnext]
      simp only [andThen_ok, ih hrest]
    · rw [filled_room rest (by omega)] at h ⊢
      rw [feed, batch, if_neg hfull, andThen_ok, ih h, andThen_ok, Nat.zero_add]

/-- The calls that a node makes on its sink, for pushes and one flush behind them. -/
def batched (pushes : List Bytes) : List Bytes :=
  (flush record (feed (batch record) pushes ([], [])).2).2.2

theorem batched_eq (pushes : List Bytes) : batched pushes = payloads pushes := by
  rw [batched, feed_batch (feed_record _ _)]
  rfl

/-! ## Pushes and flushes in any order

A flush delivers `buffer_` and keeps it, so what it finds there is delivered again.
-/

/-- The two overloads of `BatchNode::operator()`. -/
inductive Use
  | push (data : Bytes)
  | flush

/-- A next stage that always succeeds, with the counts that `counts` gives. -/
def succeeding (counts : List Bytes → Nat) : Stage Bytes (List Bytes) :=
  answering fun calls => .ok (counts calls)

/-- `buffer_` and the payloads delivered to `next`. -/
abbrev Batched := Bytes × List Bytes

def Use.run (counts : List Bytes → Nat) (st : Batched) : Use → Batched
  | .push data => (batch (succeeding counts) data st).2
  | .flush => (Transform.flush (succeeding counts) st).2

def useAll (counts : List Bytes → Nat) (uses : List Use) : Batched := uses.foldl (Use.run counts) ([], [])

def pushes : List Use → List Bytes
  | [] => []
  | .push data :: uses => data :: pushes uses
  | .flush :: uses => pushes uses

theorem pushes_append (xs ys : List Use) : pushes (xs ++ ys) = pushes xs ++ pushes ys := by
  induction xs with
  | nil => rfl
  | cons x xs ih => cases x <;> simp [pushes, ih]

variable (counts : List Bytes → Nat)

theorem use_push_full {st : Batched} {data : Bytes} (h : bufferSize ≤ (st.1 ++ data).length) :
    (Use.push data).run counts st = ([], st.2 ++ [st.1 ++ data]) := by
  simp only [Use.run, batch, if_pos h, succeeding, answering]

theorem use_push_room {st : Batched} {data : Bytes} (h : ¬ bufferSize ≤ (st.1 ++ data).length) :
    (Use.push data).run counts st = (st.1 ++ data, st.2) := by
  simp only [Use.run, batch, if_neg h]

theorem use_flush (st : Batched) : Use.flush.run counts st = (st.1, st.2 ++ [st.1]) := rfl

theorem useAll_append (uses : List Use) (u : Use) :
    useAll counts (uses ++ [u]) = u.run counts (useAll counts uses) := by
  simp [useAll]

theorem use_push_room_left (st : Batched) (data : Bytes) :
    ((Use.push data).run counts st).1.length < bufferSize := by
  by_cases h : bufferSize ≤ (st.1 ++ data).length
  · rw [use_push_full counts h]
    exact Nat.zero_lt_of_lt (Nat.lt_add_one _)
  · rw [use_push_room counts h]
    exact Nat.lt_of_not_le h

theorem use_delivers (st : Batched) (u : Use) : ∃ new, (u.run counts st).2 = st.2 ++ new := by
  cases u with
  | push data =>
    by_cases h : bufferSize ≤ (st.1 ++ data).length
    · exact ⟨_, by rw [use_push_full counts h]⟩
    · exact ⟨[], by rw [use_push_room counts h, List.append_nil]⟩
  | flush => exact ⟨_, by rw [use_flush]⟩

theorem useAll_delivers (uses later : List Use) :
    ∃ new, (useAll counts (uses ++ later)).2 = (useAll counts uses).2 ++ new := by
  induction later using List.reverseRecOn with
  | nil => exact ⟨[], by simp⟩
  | append_singleton later u ih =>
    obtain ⟨new, hnew⟩ := ih
    obtain ⟨more, hmore⟩ := use_delivers counts (useAll counts (uses ++ later)) u
    refine ⟨new ++ more, ?_⟩
    rw [← List.append_assoc, useAll_append, hmore, hnew, List.append_assoc]

/-- Every flush comes when the pushes before it have just filled their last buffer. -/
def Aligned (uses : List Use) : Prop :=
  ∀ before, before ++ [Use.flush] <+: uses → (filled [] (pushes before)).2 = []

theorem Aligned.of_prefix {xs ys : List Use} (h : Aligned ys) (hp : xs <+: ys) : Aligned xs := by
  intro before hb
  exact h before (hb.trans hp)

theorem useAll_aligned {uses : List Use} (h : Aligned uses) :
    (useAll counts uses).1 = (filled [] (pushes uses)).2 ∧
      (useAll counts uses).2.flatten = (filled [] (pushes uses)).1.flatten := by
  induction uses using List.reverseRecOn with
  | nil => exact ⟨rfl, rfl⟩
  | append_singleton uses u ih =>
    obtain ⟨hbuffer, hout⟩ := ih (h.of_prefix (List.prefix_append _ _))
    rw [useAll_append, pushes_append, filled_append]
    cases u with
    | push data =>
      by_cases hfull : bufferSize ≤ ((useAll counts uses).1 ++ data).length
      · rw [use_push_full counts hfull, pushes, pushes, filled_full _ (hbuffer ▸ hfull)]
        simp [filled, hout, hbuffer]
      · rw [use_push_room counts hfull, pushes, pushes, filled_room _ (by rw [← hbuffer]; omega)]
        simp [filled, hout, hbuffer]
    | flush =>
      have hempty := h uses (List.prefix_rfl)
      rw [use_flush, hbuffer, hempty]
      simp [pushes, filled, hout]

/-- No byte is lost and none comes twice, after each of the calls. -/
structure Lossless (uses : List Use) : Prop where
  kept : ∀ before, before <+: uses →
    (useAll counts before).2.flatten ++ (useAll counts before).1 = (pushes before).flatten
  room : ∀ before data, before ++ [.push data] <+: uses →
    (useAll counts (before ++ [.push data])).1.length < bufferSize
  once : ∀ before later, before ++ [.flush] ++ later <+: uses →
    ∃ new, (useAll counts (before ++ [.flush] ++ later)).2 = (useAll counts (before ++ [.flush])).2 ++ new ∧
      new.flatten ++ (useAll counts (before ++ [.flush] ++ later)).1 = (pushes later).flatten

theorem kept_of_aligned {uses : List Use} (h : Aligned uses) :
    (useAll counts uses).2.flatten ++ (useAll counts uses).1 = (pushes uses).flatten := by
  obtain ⟨hbuffer, hout⟩ := useAll_aligned counts h
  rw [hbuffer, hout, filled_flatten, List.nil_append]

theorem once_of_aligned {before later : List Use} (h : Aligned (before ++ [.flush] ++ later)) :
    ∃ new, (useAll counts (before ++ [.flush] ++ later)).2 = (useAll counts (before ++ [.flush])).2 ++ new ∧
      new.flatten ++ (useAll counts (before ++ [.flush] ++ later)).1 = (pushes later).flatten := by
  obtain ⟨new, hnew⟩ := useAll_delivers counts (before ++ [.flush]) later
  refine ⟨new, hnew, ?_⟩
  have hflush : Aligned (before ++ [Use.flush]) := h.of_prefix (List.prefix_append _ _)
  have hempty : (useAll counts (before ++ [.flush])).1 = [] := by
    rw [(useAll_aligned counts hflush).1, pushes_append]
    simpa [pushes] using h before (List.prefix_append _ _)
  have hstart := kept_of_aligned counts hflush
  have hend := kept_of_aligned counts h
  rw [hempty, List.append_nil] at hstart
  rw [hnew, pushes_append, List.flatten_append, List.flatten_append, hstart, List.append_assoc] at hend
  exact List.append_cancel_left hend

/-- A flush that repeats nothing found `buffer_` empty. -/
theorem Lossless.empty {uses : List Use} (h : Lossless counts uses) {before : List Use}
    (hb : before ++ [Use.flush] <+: uses) : (useAll counts before).1 = [] := by
  have hbefore := h.kept before ((List.prefix_append _ _).trans hb)
  have hafter := h.kept _ hb
  rw [useAll_append, use_flush, pushes_append] at hafter
  simp only [pushes, List.append_nil, List.flatten_append, List.flatten_cons, List.flatten_nil] at hafter
  rw [hbefore] at hafter
  simpa using hafter

theorem aligned_of_empty {uses : List Use}
    (h : ∀ before, before ++ [Use.flush] <+: uses → (useAll counts before).1 = []) : Aligned uses := by
  induction uses using List.reverseRecOn with
  | nil =>
    intro before hb
    simp at hb
  | append_singleton uses u ih =>
    have huses := ih fun before hb => h before (hb.trans (List.prefix_append _ _))
    intro before hb
    rcases List.prefix_concat_iff.mp hb with heq | hb
    · obtain ⟨rfl, hu⟩ := List.append_inj' heq rfl
      rw [← (useAll_aligned counts huses).1]
      exact h before (heq ▸ List.prefix_rfl)
    · exact huses before hb

/-- `Batch` neither loses nor repeats a byte exactly when every flush comes when the pushes before it
have just filled a buffer, or there were none. -/
theorem batch_lossless_iff (uses : List Use) : Lossless counts uses ↔ Aligned uses := by
  constructor
  · intro h
    exact aligned_of_empty counts fun before hb => h.empty counts hb
  · intro h
    refine ⟨fun before hb => kept_of_aligned counts (h.of_prefix hb), ?_,
      fun before later hb => once_of_aligned counts (h.of_prefix hb)⟩
    intro before data _
    rw [useAll_append]
    exact use_push_room_left counts _ data

/-- A push of `a` and two flushes deliver `a` twice. -/
theorem batch_repeats_flushed :
    useAll (fun _ => 0) [.push [97], .flush, .flush] = ([97], [[97], [97]]) ∧
    ¬ Lossless (fun _ => 0) [.push [97], .flush, .flush] := by
  refine ⟨by decide, fun h => ?_⟩
  have hempty : (useAll (fun _ => 0) [.push [97]]).1 = [] := h.empty _ ⟨[.flush], rfl⟩
  exact absurd hempty (by decide)

end Omnipp.Transform
