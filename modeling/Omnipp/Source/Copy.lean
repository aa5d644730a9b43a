import Omnipp.Kernel
import Omnipp.Lib.Loop

/-! # `source::CopyFileRange` and `source::DirectSplice`

Both move the file to stdout inside the kernel, in chunks, until `offset` is the size that
`statx` gave or the file ends.
-/

namespace Omnipp.Source

/-- The loop of both nodes: `limit` is the largest chunk and `failure` the text of the error. -/
def copyLoop (limit : UInt64) (failure : String) (answers : Schedule) (size : UInt64) :
    Loop (UInt64 × Copy) (Expected × Copy) where
  body st :=
    if st.1 = size then .leave (.ok st.1.toNat, st.2)
    else
      match st.2.move answers (min limit (size - st.1)).toNat with
      | (.error _, t) => .leave (.error failure, t)
      | (.ok n, t) =>
        if n = 0 then .leave (.ok st.1.toNat, t) else .again (st.1 + UInt64.ofNat n, t)
  rank st := st.2.content.length - st.2.pos
  falls := by
    rintro ⟨offset, t⟩ st h
    simp only at h
    split at h
    · cases h
    · cases ha : answers t.calls with
      | error text => simp [Copy.move_error _ ha] at h
      | ok want =>
        simp only [Copy.move_ok _ ha] at h
        have := granted_le want (min (min limit (size - offset)).toNat (t.content.length - t.pos))
        split at h
        · cases h
        · cases h
          simp only
          omega

/-- `CopyFileRangeNode::operator()`, with its `max_chunk` of 1 GiB. -/
def copyFileRange (answers : Schedule) (size : UInt64) (t : Copy) : Expected × Copy :=
  (copyLoop (1024 * 1024 * 1024) "failed to copy_file_range" answers size).run (0, t)

/-- `DirectSpliceNode::operator()`. `pipeSize` is the answer to `F_SETPIPE_SZ`. -/
def directSplice (pipeSize : Except String PipeSize) (answers : Schedule) (size : UInt64) (t : Copy) :
    Expected × Copy :=
  match pipeSize with
  | .error text => (.error s!"failed to get out pipe size: {text}", t)
  | .ok pipe => (copyLoop pipe.val "failed to splice data" answers size).run (0, t)

/-! ## The offset stays below the size -/

/-- The bytes of a file of this length that the first `i` calls move, in chunks of at most `limit`. -/
def moved (answers : Schedule) (limit size length : Nat) : Nat → Nat
  | 0 => 0
  | i + 1 =>
    let before := moved answers limit size length i
    before + carried (answers i) (min (min limit (size - before)) (length - before))

def CopyInv (content : Bytes) (answers : Schedule) (limit size : UInt64) (st : UInt64 × Copy) : Prop :=
  st.2.content = content ∧ st.1.toNat = st.2.pos ∧ st.2.pos ≤ content.length ∧ st.1 ≤ size ∧
    st.2.out = content.take st.2.pos ∧ Clean answers 0 st.2.calls ∧
    st.2.pos = moved answers limit.toNat size.toNat content.length st.2.calls

/-- Everything that was asked for is on stdout, or the last call failed and what was moved before is. -/
def CopyPost (content : Bytes) (answers : Schedule) (limit size : Nat) (r : Expected × Copy) : Prop :=
  r.2.out = content.take r.2.pos ∧
  match r.1 with
  | .ok n => n = min size content.length ∧ r.2.pos = n ∧ Clean answers 0 r.2.calls
  | .error _ => ∃ i, r.2.calls = i + 1 ∧ Clean answers 0 i ∧ Fails (answers i) ∧
      r.2.pos = moved answers limit size content.length i

theorem copy_again {limit : UInt64} {failure : String} {content : Bytes} {answers : Schedule}
    {size : UInt64} (a b : UInt64 × Copy) (h : CopyInv content answers limit size a)
    (hb : (copyLoop limit failure answers size).body a = .again b) :
    CopyInv content answers limit size b := by
  obtain ⟨offset, t⟩ := a
  obtain ⟨hcontent, hpos, hle, hsize, hout, hclean, hmoved⟩ := h
  simp only [copyLoop] at hb hcontent hpos hle hsize hout hclean hmoved
  subst hcontent
  split at hb
  · cases hb
  · cases ha : answers t.calls with
    | error text => simp [Copy.move_error _ ha] at hb
    | ok want =>
      have hnext : moved answers limit.toNat size.toNat t.content.length (t.calls + 1) =
          t.pos + granted want (min (min limit (size - offset)).toNat (t.content.length - t.pos)) := by
        rw [moved, ← hmoved, carried_ok ha, chunk_toNat _ _ _ hsize, hpos]
      simp only [Copy.move_ok _ ha] at hb
      have hg := granted_le want (min (min limit (size - offset)).toNat (t.content.length - t.pos))
      generalize granted want (min (min limit (size - offset)).toNat (t.content.length - t.pos)) = n
        at hb hg hnext
      rw [chunk_toNat _ _ _ hsize] at hg
      split at hb
      · cases hb
      · cases hb
        have hs := size.toNat_lt
        have hadd := offset_add offset n (by omega)
        refine ⟨rfl, by simp only [hadd]; omega, by simp only; omega, ?_, ?_, hclean.succ ha, hnext.symm⟩
        · rw [UInt64.le_iff_toNat_le, hadd]
          omega
        · simp only [hout, List.take_add]

theorem copy_leave {limit : UInt64} {failure : String} {content : Bytes} {answers : Schedule}
    {size : UInt64} (hlimit : 0 < limit) (a : UInt64 × Copy) (r : Expected × Copy)
    (h : CopyInv content answers limit size a)
    (hb : (copyLoop limit failure answers size).body a = .leave r) :
    CopyPost content answers limit.toNat size.toNat r := by
  obtain ⟨offset, t⟩ := a
  obtain ⟨hcontent, hpos, hle, hsize, hout, hclean, hmoved⟩ := h
  simp only [copyLoop] at hb hcontent hpos hle hsize hout hclean hmoved
  subst hcontent
  split at hb
  · cases hb
    rename_i heq
    subst heq
    exact ⟨hout, by omega, hpos.symm, hclean⟩
  · rename_i hne
    cases ha : answers t.calls with
    | error text =>
      simp only [Copy.move_error _ ha, Pass.leave.injEq] at hb
      subst hb
      exact ⟨hout, t.calls, rfl, hclean, ⟨text, ha⟩, hmoved⟩
    | ok want =>
      simp only [Copy.move_ok _ ha] at hb
      split at hb
      · rename_i hzero
        cases hb
        have hlt : offset.toNat < size.toNat := by
          rw [UInt64.le_iff_toNat_le] at hsize
          have : offset.toNat ≠ size.toNat := fun he => hne (UInt64.toNat_inj.mp he)
          omega
        have hl : 0 < limit.toNat := UInt64.lt_iff_toNat_lt.mp hlimit
        -- A count of 0 means that the file is at its end: there was room for the chunk.
        have hend : t.pos = t.content.length := by
          by_contra hcon
          have hroom : 0 < min (min limit (size - offset)).toNat (t.content.length - t.pos) := by
            rw [chunk_toNat _ _ _ hsize]
            omega
          have := granted_pos want hroom
          omega
        refine ⟨by simp [hout, hzero], by omega, by simp only; omega, hclean.succ ha⟩
      · cases hb

theorem copy_inv_start (content : Bytes) (answers : Schedule) (limit size : UInt64) :
    CopyInv content answers limit size (0, ⟨content, 0, [], 0⟩) :=
  ⟨rfl, rfl, by simp, UInt64.zero_le, by simp, clean_self _ _, rfl⟩

/-- At the top of every pass `offset` is at most `size`, so `size - offset` does not wrap. -/
theorem copy_visits {limit : UInt64} {failure : String} {content : Bytes} {answers : Schedule}
    {size : UInt64} {st : UInt64 × Copy}
    (h : (copyLoop limit failure answers size).Visits (0, ⟨content, 0, [], 0⟩) st) :
    CopyInv content answers limit size st :=
  h.inv (CopyInv content answers limit size) copy_again (copy_inv_start content answers limit size)

theorem copy_loop_spec {limit : UInt64} (hlimit : 0 < limit) (failure : String) (content : Bytes)
    (answers : Schedule) (size : UInt64) :
    CopyPost content answers limit.toNat size.toNat
      ((copyLoop limit failure answers size).run (0, ⟨content, 0, [], 0⟩)) :=
  Loop.run_spec (CopyInv content answers limit size) _ copy_again (copy_leave hlimit) _
    (copy_inv_start content answers limit size)

end Omnipp.Source
