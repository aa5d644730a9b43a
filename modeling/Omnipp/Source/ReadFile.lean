import Omnipp.Kernel
import Omnipp.Lib.Loop

/-! # `source::ReadFile` -/

namespace Omnipp.Source

def maxSize : Nat := 10 * 1024 * 1024

structure Reading (σ : Type) where
  reader : Reader
  readAmount : Nat
  bytesOutput : Nat
  below : σ

variable {σ : Type}

/-- The loop of `ReadFileNode::operator()`. -/
def readLoop (next : Stage Bytes σ) (size : Nat) : Loop (Reading σ) (Expected × Reader × σ) where
  body st :=
    match st.reader.pread maxSize st.readAmount with
    | (.error _, r) =>
      .leave (.error s!"failed to read: [{st.readAmount}/{size} bytes]", r, st.below)
    | (.ok block, r) =>
      if block.length = 0 then .leave (.ok st.bytesOutput, r, st.below)
      else
        match next block st.below with
        | (.error e, t) => .leave (.error e, r, t)
        | (.ok n, t) => .again ⟨r, st.readAmount + block.length, st.bytesOutput + n, t⟩
  rank st := st.reader.content.length - st.readAmount
  falls := by
    intro st st' h
    split at h
    · cases h
    · rename_i block r hp
      split at h
      · cases h
      · rename_i hne
        obtain ⟨want, -, rfl, -, hlen⟩ := Reader.pread_block hp
        have := granted_le want (min maxSize (st.reader.content.length - st.readAmount))
        split at h
        · cases h
        · cases h
          simp only
          omega

/-- `ReadFileNode::operator()(fd, size)`, where the reader stands for `fd`. -/
def readFile (next : Stage Bytes σ) : Stage Nat (Reader × σ) := fun size s =>
  (readLoop next size).run ⟨s.1, 0, 0, s.2⟩

/-! ## One pass -/

theorem read_pass_error (next : Stage Bytes σ) (size : Nat) (st : Reading σ) {text : String}
    (h : st.reader.reads st.reader.calls = .error text) :
    (readLoop next size).body st =
      .leave (.error s!"failed to read: [{st.readAmount}/{size} bytes]",
        { st.reader with calls := st.reader.calls + 1 }, st.below) := by
  simp only [readLoop, Reader.pread_error _ _ h]

theorem read_pass_end (next : Stage Bytes σ) (size : Nat) (st : Reading σ) {want : Nat}
    (h : st.reader.reads st.reader.calls = .ok want)
    (hend : st.reader.content.length ≤ st.readAmount) :
    (readLoop next size).body st =
      .leave (.ok st.bytesOutput, { st.reader with calls := st.reader.calls + 1 }, st.below) := by
  have hroom : st.reader.content.length - st.readAmount = 0 := by omega
  simp [readLoop, Reader.pread_ok _ _ h, hroom]

theorem read_pass_block (next : Stage Bytes σ) (size : Nat) (st : Reading σ) {want : Nat}
    (h : st.reader.reads st.reader.calls = .ok want)
    (hlt : st.readAmount < st.reader.content.length) :
    ∃ block : Bytes, 0 < block.length ∧ block.length ≤ maxSize ∧
      st.readAmount + block.length ≤ st.reader.content.length ∧
      block = (st.reader.content.drop st.readAmount).take block.length ∧
      block.length = granted want (min maxSize (st.reader.content.length - st.readAmount)) ∧
      (readLoop next size).body st =
        match next block st.below with
        | (.error e, t) => .leave (.error e, { st.reader with calls := st.reader.calls + 1 }, t)
        | (.ok n, t) => .again ⟨{ st.reader with calls := st.reader.calls + 1 },
            st.readAmount + block.length, st.bytesOutput + n, t⟩ := by
  cases hp : st.reader.pread maxSize st.readAmount with
  | mk res r =>
    cases res with
    | error text => simp [Reader.pread_ok _ _ h] at hp
    | ok block =>
      obtain ⟨want', hw, rfl, hblock, hlen⟩ := Reader.pread_block hp
      rw [h, Except.ok.injEq] at hw
      subst hw
      have hroom : 0 < min maxSize (st.reader.content.length - st.readAmount) := by
        unfold maxSize
        omega
      have hpos := granted_pos want hroom
      have hle := granted_le want (min maxSize (st.reader.content.length - st.readAmount))
      refine ⟨block, by omega, by omega, by omega, hblock, hlen, ?_⟩
      simp only [readLoop, hp]
      rw [if_neg (by omega)]

/-- What the caller of the pipeline and the stages below see of a run. -/
def outcome (r : Expected × Reader × σ) : Expected × σ := (r.1, r.2.2)

/-- The passes over blocks that the answers cut, one after the other. -/
theorem read_loop_blocks (next : Stage Bytes σ) (size : Nat) {r : Reader} {bs : List Bytes} {rest : Bytes}
    (hfilled : ∀ b ∈ bs, b ≠ []) (hsmall : ∀ b ∈ bs, b.length ≤ maxSize) {amount : Nat}
    (hjoin : r.content.drop amount = bs.flatten ++ rest)
    (hreads : ∀ i b, bs[i]? = some b → r.reads (r.calls + i) = .ok b.length) (out : Nat) (s : σ) :
    outcome ((readLoop next size).run ⟨r, amount, out, s⟩) =
      andThen (feed next bs s) fun n t =>
        outcome ((readLoop next size).run
          ⟨{ r with calls := r.calls + bs.length }, amount + bs.flatten.length, out + n, t⟩) := by
  induction bs generalizing r amount out s with
  | nil => rfl
  | cons b bs ih =>
    have hb := hfilled b List.mem_cons_self
    have hpos : 0 < b.length := List.length_pos_iff.mpr hb
    have hlen : r.content.length - amount = b.length + (bs.flatten ++ rest).length := by
      rw [← List.length_drop, hjoin, List.flatten_cons, List.append_assoc, List.length_append]
    obtain ⟨block, -, -, -, hblock, hgrant, hbody⟩ := read_pass_block next size ⟨r, amount, out, s⟩
      (hreads 0 b rfl) (by simp only; omega)
    have hblen : block.length = b.length := by
      rw [hgrant]
      have := hsmall b List.mem_cons_self
      exact granted_self hpos (by simp only; omega)
    have hbb : block = b := by
      rw [hblock, hblen, hjoin, List.flatten_cons, List.append_assoc, List.take_left]
    rw [hbb] at hbody
    rw [feed]
    rcases hn : next b s with ⟨e | n, t⟩
    · simp only [hn] at hbody
      rw [Loop.run_leave _ hbody]
      rfl
    · simp only [hn] at hbody
      rw [Loop.run_again _ hbody]
      have hrest : r.content.drop (amount + b.length) = bs.flatten ++ rest := by
        rw [← List.drop_drop, hjoin, List.flatten_cons, List.append_assoc, List.drop_left]
      have hnext : ∀ i b', bs[i]? = some b' → r.reads (r.calls + 1 + i) = .ok b'.length := by
        intro i b' hi
        rw [Nat.add_assoc, Nat.add_comm 1]
        exact hreads (i + 1) b' hi
      rw [@ih { r with calls := r.calls + 1 } (fun b' hb' => hfilled b' (List.mem_cons_of_mem b hb'))
        (fun b' hb' => hsmall b' (List.mem_cons_of_mem b hb')) (amount + b.length) hrest hnext (out + n) t]
      simp [andThen_assoc, Nat.add_assoc, Nat.add_comm 1]

/-! ## Cuts

One way for the `pread` calls to cut a file into blocks, without a failure.
-/

structure Cut (content : Bytes) where
  blocks : List Bytes
  joined : blocks.flatten = content
  filled : ∀ b ∈ blocks, b ≠ []
  small : ∀ b ∈ blocks, b.length ≤ maxSize

/-- One answer gives the whole file. -/
def Cut.whole {content : Bytes} (hne : content ≠ []) (hsmall : content.length ≤ maxSize) :
    Cut content where
  blocks := [content]
  joined := List.flatten_singleton
  filled := List.forall_mem_singleton.mpr hne
  small := List.forall_mem_singleton.mpr hsmall

/-- The file, with the answers that cut it this way. -/
def Cut.reader {content : Bytes} (cut : Cut content) : Reader where
  content := content
  reads i := .ok ((cut.blocks[i]?.map List.length).getD 0)

/-- `ReadFile` calls `next` on the blocks in turn, until the first error. -/
theorem read_file_cut {content : Bytes} (cut : Cut content) (next : Stage Bytes σ) (size : Nat)
    (s : σ) : outcome (readFile next size (cut.reader, s)) = feed next cut.blocks s := by
  have hreads : ∀ i b, cut.blocks[i]? = some b → cut.reader.reads (0 + i) = .ok b.length := by
    intro i b hi
    simp [Cut.reader, hi]
  have hjoin : cut.reader.content.drop 0 = cut.blocks.flatten ++ [] := by
    simp [Cut.reader, cut.joined]
  have hrun := read_loop_blocks next size cut.filled cut.small hjoin hreads 0 s
  have hend : ∀ n t, outcome ((readLoop next size).run
      ⟨{ cut.reader with calls := 0 + cut.blocks.length }, 0 + cut.blocks.flatten.length, 0 + n, t⟩) =
        (.ok n, t) := by
    intro n t
    rw [Loop.run_leave _ (read_pass_end next size _ rfl (by simp [Cut.reader, cut.joined]))]
    simp [outcome]
  unfold readFile
  refine hrun.trans ?_
  rw [show cut.reader.calls = 0 from rfl]
  simp only [hend, andThen_pure]

/-! ## Cuts that break off

Some blocks of the file are read, and then a `pread` fails.
-/

structure Broken (content : Bytes) where
  blocks : List Bytes
  joined : blocks.flatten <+: content
  filled : ∀ b ∈ blocks, b ≠ []
  small : ∀ b ∈ blocks, b.length ≤ maxSize
  text : String

def Broken.reader {content : Bytes} (cut : Broken content) : Reader where
  content := content
  reads i := match cut.blocks[i]? with
    | none => .error cut.text
    | some b => .ok b.length

/-- `ReadFile` calls `next` on the blocks that were read, and returns the error of the `pread`. -/
theorem read_file_broken {content : Bytes} (cut : Broken content) (next : Stage Bytes σ) (size : Nat)
    (s : σ) :
    outcome (readFile next size (cut.reader, s)) =
      andThen (feed next cut.blocks s) fun _ t =>
        (.error s!"failed to read: [{cut.blocks.flatten.length}/{size} bytes]", t) := by
  have hreads : ∀ i b, cut.blocks[i]? = some b → cut.reader.reads (0 + i) = .ok b.length := by
    intro i b hi
    simp [Broken.reader, hi]
  obtain ⟨rest, hrest⟩ := cut.joined
  have hjoin : cut.reader.content.drop 0 = cut.blocks.flatten ++ rest := hrest.symm
  have hrun := read_loop_blocks next size cut.filled cut.small hjoin hreads 0 s
  have hfail : ∀ n t, outcome ((readLoop next size).run
      ⟨{ cut.reader with calls := 0 + cut.blocks.length }, 0 + cut.blocks.flatten.length, 0 + n, t⟩) =
        (.error s!"failed to read: [{cut.blocks.flatten.length}/{size} bytes]", t) := by
    intro n t
    rw [Loop.run_leave _ (read_pass_error next size _ (by simp [Broken.reader]; rfl))]
    simp [outcome]
  unfold readFile
  refine hrun.trans ?_
  rw [show cut.reader.calls = 0 from rfl]
  simp only [hfail]

end Omnipp.Source
