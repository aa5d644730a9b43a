import Omnipp.Sink.Write
import Omnipp.Source.Copy
import Omnipp.Source.ReadFile

/-! # The plain copy loops of `cat` -/

open Omnipp.Source Omnipp.Sink

namespace Omnipp.Cat

/-! ## `ReadFile | Write` -/

/-- The bytes of the file that the first `k` reads give. -/
def readTo (content : Bytes) (reads : Schedule) : Nat → Nat
  | 0 => 0
  | k + 1 =>
    let before := readTo content reads k
    before + carried (reads k) (min maxSize (content.length - before))

/-- The reads that are done before the write `i`, and the bytes that are written. The next read
comes when the block of the last one is written. -/
def progress (content : Bytes) (reads writes : Schedule) : Nat → Nat × Nat
  | 0 => (1, 0)
  | i + 1 =>
    let (k, before) := progress content reads writes i
    let written := before + carried (writes i) (readTo content reads k - before)
    (if written = readTo content reads k then k + 1 else k, written)

theorem progress_follows {content : Bytes} {reads writes : Schedule} {c k p n : Nat} (hn : 0 < n)
    (h : progress content reads writes c = (k, p)) (hk : readTo content reads k = p + n) :
    Follows writes c n fun i amount =>
      progress content reads writes i = (if amount < n then k else k + 1, p + amount) where
  start := by rw [h, if_pos hn, Nat.add_zero]
  step i amount want hi hlt hw := by
    rw [if_pos hlt] at hi
    have hg := granted_le want (n - amount)
    rw [progress, hi]
    simp only [hk, Nat.add_sub_add_left, carried_ok hw, Nat.add_assoc, Nat.add_left_cancel_iff]
    by_cases hend : amount + granted want (n - amount) = n
    · rw [if_pos hend, if_neg (by omega)]
    · rw [if_neg hend, if_pos (by omega)]

def ReadWriteInv (content : Bytes) (reads writes : Schedule) (st : Reading Stdout) : Prop :=
  st.reader.content = content ∧ st.reader.reads = reads ∧ st.below.writes = writes ∧
    st.readAmount ≤ content.length ∧ st.bytesOutput = st.readAmount ∧
    st.below.bytes = content.take st.readAmount ∧
    Clean reads 0 st.reader.calls ∧ Clean writes 0 st.below.calls ∧
    st.readAmount = readTo content reads st.reader.calls ∧
    progress content reads writes st.below.calls = (st.reader.calls + 1, st.readAmount)

/-- All of the file is on stdout, or the last call failed and what was moved before it is. -/
def ReadWritePost (content : Bytes) (reads writes : Schedule) (r : Expected × Reader × Stdout) : Prop :=
  match r.1 with
  | .ok n => n = content.length ∧ r.2.2.bytes = content ∧
      Clean reads 0 r.2.1.calls ∧ Clean writes 0 r.2.2.calls
  | .error _ =>
      (∃ i, r.2.1.calls = i + 1 ∧ Clean reads 0 i ∧ Fails (reads i) ∧ Clean writes 0 r.2.2.calls ∧
        r.2.2.bytes = content.take (readTo content reads i)) ∨
      ∃ i, r.2.2.calls = i + 1 ∧ Clean writes 0 i ∧ Fails (writes i) ∧ Clean reads 0 r.2.1.calls ∧
        r.2.2.bytes = content.take (progress content reads writes i).2

theorem read_write_pass (content : Bytes) (reads writes : Schedule) (size : Nat) (st : Reading Stdout)
    (h : ReadWriteInv content reads writes st) :
    ((readLoop (write false) size).body st).Gives (ReadWriteInv content reads writes)
      (ReadWritePost content reads writes) := by
  obtain ⟨rfl, rfl, rfl, hle, hout, hbytes, hreads, hwrites, hread, hprogress⟩ := h
  cases hr : st.reader.reads st.reader.calls with
  | error text =>
    rw [read_pass_error _ size st hr]
    exact .inl ⟨st.reader.calls, rfl, hreads, ⟨text, hr⟩, hwrites, by rw [← hread]; exact hbytes⟩
  | ok want =>
    by_cases hlt : st.readAmount < st.reader.content.length
    · obtain ⟨block, hpos, -, hfit, hblock, hlen, hbody⟩ := read_pass_block (write false) size st hr hlt
      have hnext : readTo st.reader.content st.reader.reads (st.reader.calls + 1) =
          st.readAmount + block.length := by
        rw [readTo, ← hread, carried_ok hr, hlen]
      obtain ⟨hw, hcalls, hpost⟩ := write_spec block st.below (progress_follows hpos hprogress hnext)
      have htake : st.reader.content.take st.readAmount ++ block =
          st.reader.content.take (st.readAmount + block.length) := by
        rw [List.take_add, ← hblock]
      rw [hbody]
      rcases hn : write false block st.below with ⟨e | n, o⟩
      · rw [hn] at hw hcalls hpost
        obtain ⟨k, hk, hkbytes, i, hi, hclean, hf, hat⟩ := hpost
        refine .inr ⟨i, hi, hwrites.trans hclean, hf, hreads.succ hr, ?_⟩
        simp only at hkbytes ⊢
        rw [hkbytes, hbytes, hat, List.take_add, hblock, List.take_take, Nat.min_eq_left (Nat.le_of_lt hk)]
      · rw [hn] at hw hcalls hpost
        obtain ⟨rfl, hk, hc, hat⟩ := hpost
        rw [if_neg (Nat.lt_irrefl _)] at hat
        refine ⟨rfl, rfl, hw, hfit, by simp only [hout], ?_, hreads.succ hr, hwrites.trans hc,
          hnext.symm, hat⟩
        simp only at hk ⊢
        rw [hk, hbytes, htake]
    · have hall : st.readAmount = st.reader.content.length := by omega
      rw [hall, List.take_length] at hbytes
      rw [read_pass_end _ size st hr (by omega)]
      exact ⟨by omega, hbytes, hreads.succ hr, hwrites⟩

theorem read_write_spec (content : Bytes) (reads writes : Schedule) (size : Nat) :
    ReadWritePost content reads writes
      (readFile (write false) size ({ content, reads }, { bytes := [], writes })) :=
  Loop.run_gives _ _ (read_write_pass content reads writes size) _
    ⟨rfl, rfl, rfl, by simp, rfl, by simp, clean_self _ _, clean_self _ _, rfl, rfl⟩

theorem ReadWritePost.starts {content : Bytes} {reads writes : Schedule}
    {r : Expected × Reader × Stdout} (h : ReadWritePost content reads writes r) :
    r.2.2.bytes <+: content := by
  unfold ReadWritePost at h
  split at h
  · exact ⟨[], by rw [List.append_nil, h.2.1]⟩
  · rcases h with ⟨i, -, -, -, -, hbytes⟩ | ⟨i, -, -, -, -, hbytes⟩ <;> rw [hbytes] <;>
      exact List.take_prefix _ _

/-! ## The three pipelines -/

/-- A call that fails is the last one. The result is then an error, and stdout has what the calls
before it `moved`. -/
def StopsAt (content : Bytes) (answers : Schedule) (moved : Nat → Nat) (calls : Nat) (res : Expected)
    (out : Bytes) : Prop :=
  ∀ i < calls, Fails (answers i) →
    calls = i + 1 ∧ (∃ e, res = .error e) ∧ out = content.take (moved i)

/-- Without a failed call, `count` bytes of the file are on stdout and the result says so. -/
structure Exact (content : Bytes) (count : Nat) (answers : Schedule) (moved : Nat → Nat) (calls : Nat)
    (res : Expected) (out : Bytes) : Prop where
  whole : Clean answers 0 calls → res = .ok count ∧ out = content.take count
  broken : StopsAt content answers moved calls res out

/-- The same for reads and writes. A run has at most one call that fails. -/
structure ReadWriteExact (content : Bytes) (reads writes : Schedule) (r : Expected × Reader × Stdout) :
    Prop where
  whole : Clean reads 0 r.2.1.calls → Clean writes 0 r.2.2.calls →
    r.1 = .ok content.length ∧ r.2.2.bytes = content
  readBroken : StopsAt content reads (readTo content reads) r.2.1.calls r.1 r.2.2.bytes
  writeBroken : StopsAt content writes (fun i => (progress content reads writes i).2) r.2.2.calls r.1
    r.2.2.bytes
  once : Clean reads 0 r.2.1.calls ∨ Clean writes 0 r.2.2.calls

theorem stopsAt_of_clean {content : Bytes} {answers : Schedule} {calls : Nat} (h : Clean answers 0 calls)
    (moved : Nat → Nat) (res : Expected) (out : Bytes) :
    StopsAt content answers moved calls res out :=
  fun i hi hf => absurd hf (h i (Nat.zero_le i) hi)

theorem stopsAt_last {content : Bytes} {answers : Schedule} {calls i : Nat} (hcalls : calls = i + 1)
    (hclean : Clean answers 0 i) {moved : Nat → Nat} {out : Bytes} (hout : out = content.take (moved i))
    (e : String) : StopsAt content answers moved calls (.error e) out := by
  intro j hj hf
  obtain rfl : j = i := by
    by_contra hne
    exact hclean j (Nat.zero_le j) (by omega) hf
  exact ⟨hcalls, ⟨e, rfl⟩, hout⟩

theorem exact_of_copy {content : Bytes} {answers : Schedule} {limit size : Nat} {r : Expected × Copy}
    (h : CopyPost content answers limit size r) :
    Exact content (min size content.length) answers (moved answers limit size content.length) r.2.calls
      r.1 r.2.out := by
  obtain ⟨res, t⟩ := r
  obtain ⟨hout, hres⟩ := h
  cases res with
  | ok n =>
    obtain ⟨rfl, hpos, hclean⟩ := hres
    exact ⟨fun _ => ⟨rfl, by rw [hout, hpos]⟩, stopsAt_of_clean hclean _ _ _⟩
  | error e =>
    obtain ⟨i, hcalls, hclean, hf, hpos⟩ := hres
    refine ⟨fun hc => absurd hf (hc i (Nat.zero_le i) (by omega)), stopsAt_last hcalls hclean ?_ e⟩
    rw [hout, hpos]

theorem exact_of_read_write {content : Bytes} {reads writes : Schedule}
    {r : Expected × Reader × Stdout} (h : ReadWritePost content reads writes r) :
    ReadWriteExact content reads writes r := by
  obtain ⟨res, rd, o⟩ := r
  cases res with
  | ok n =>
    obtain ⟨rfl, hbytes, hreads, hwrites⟩ := h
    exact ⟨fun _ _ => ⟨rfl, hbytes⟩, stopsAt_of_clean hreads _ _ _, stopsAt_of_clean hwrites _ _ _,
      .inl hreads⟩
  | error e =>
    rcases h with ⟨i, hcalls, hclean, hf, hwrites, hbytes⟩ | ⟨i, hcalls, hclean, hf, hreads, hbytes⟩
    · exact ⟨fun hc _ => absurd hf (hc i (Nat.zero_le i) (by omega)), stopsAt_last hcalls hclean hbytes e,
        stopsAt_of_clean hwrites _ _ _, .inr hwrites⟩
    · exact ⟨fun _ hc => absurd hf (hc i (Nat.zero_le i) (by omega)), stopsAt_of_clean hreads _ _ _,
        stopsAt_last hcalls hclean hbytes e, .inl hreads⟩

/-- The copy loops of `cat`, for every file, every reported size and every schedule of the kernel.
That they end is part of their definition. -/
theorem copies_are_exact (content : Bytes) (size : UInt64) (pipe : PipeSize) (text : String)
    (answers reads writes : Schedule) :
    let file : Copy := ⟨content, 0, [], 0⟩
    (let r := copyFileRange answers size file
     Exact content (min size.toNat content.length) answers
      (moved answers (1024 * 1024 * 1024) size.toNat content.length) r.2.calls r.1 r.2.out) ∧
    (let r := directSplice (.ok pipe) answers size file
     Exact content (min size.toNat content.length) answers
      (moved answers pipe.val.toNat size.toNat content.length) r.2.calls r.1 r.2.out) ∧
    (let r := directSplice (.error text) answers size file
     (∃ e, r.1 = .error e) ∧ r.2 = file) ∧
    (∀ limit failure st, (copyLoop limit failure answers size).Visits (0, file) st →
      st.1.toNat ≤ size.toNat ∧ (size - st.1).toNat = size.toNat - st.1.toNat) ∧
    ReadWriteExact content reads writes
      (readFile (write false) size.toNat ({ content, reads }, { bytes := [], writes })) := by
  refine ⟨?_, ?_, ⟨⟨_, rfl⟩, rfl⟩, ?_, ?_⟩
  · exact exact_of_copy (copy_loop_spec (by decide) _ content answers size)
  · exact exact_of_copy (copy_loop_spec pipe.pos _ content answers size)
  · intro limit failure st h
    have hle := (copy_visits h).2.2.2.1
    exact ⟨UInt64.le_iff_toNat_le.mp hle, UInt64.toNat_sub_of_le _ _ hle⟩
  · exact exact_of_read_write (read_write_spec content reads writes size.toNat)

end Omnipp.Cat
