import Omnipp.Utils.Memcpy

/-!
# `rte_memcpy` copies

Every path of it covers the range with words that stay inside, so the result is that of a plain
`memcpy`. Only the loads of the unaligned SSE path may start before the source.
-/

namespace Omnipp.Memcpy

open Memory

/-! ## Fixed sizes -/

/-- `mov` copies `k` bytes wherever it is called. -/
def Copies (mov : Nat → Nat → Bytes → Bytes) (k : Nat) : Prop :=
  ∀ (j : Job UInt8) (done o : Nat) (m : Bytes), Copied j done m → o ≤ done → o + k ≤ j.len →
    Copied j (max done (o + k)) (mov (j.dst + o) (j.src + o) m)

theorem copies_moves (w k : Nat) : Copies (fun dst src m => m.moves w k dst src) (k * w) :=
  fun _ _ _ _ h ho hk => h.moves k ho hk

theorem copies_mov16 : Copies rteMov16 16 := fun _ _ _ _ h ho hk => h.move ho hk

theorem copies_mov32 (b : Build) : Copies (rteMov32 b) 32 := by
  cases b with
  | sse => exact copies_moves 16 2
  | avx2 => exact fun _ _ _ _ h ho hk => h.move ho hk

theorem copies_mov64 (b : Build) : Copies (rteMov64 b) 64 := by
  cases b with
  | sse => exact copies_moves 16 4
  | avx2 => exact copies_moves 32 2

theorem copies_mov128 (b : Build) : Copies (rteMov128 b) 128 := by
  cases b with
  | sse => exact copies_moves 16 8
  | avx2 => exact copies_moves 32 4

theorem copies_mov256 (b : Build) : Copies (rteMov256 b) 256 := by
  cases b with
  | sse => exact copies_moves 16 16
  | avx2 => exact copies_moves 32 8

theorem copies_then {mov next : Nat → Nat → Bytes → Bytes} {k l : Nat} (hmov : Copies mov k)
    (hnext : Copies next l) :
    Copies (fun dst src m => next (dst + k) (src + k) (mov dst src m)) (k + l) := by
  intro j done o m hc ho hk
  have hfirst := hmov j done o m hc ho (by omega)
  have hsecond := hnext j _ (o + k) _ hfirst (by omega) (by omega)
  rw [← Nat.add_assoc, ← Nat.add_assoc] at hsecond
  exact hsecond.mono (by omega)

theorem copies_mov128Block : Copies mov128Block 128 := by
  intro j done o m h ho hk
  have hfloor := j.floor_le
  have hload := h.loadRow (w := 32) (k := 4) (a := j.src + o) (by omega) (by omega)
  have hvalues : (m.loadRow 32 4 (j.src + o)).1 =
      (List.range 4).map fun i => read j.before (j.src + o + i * 32) 32 := by
    rw [Machine.loadRow_values]
    apply List.map_congr_left
    intro i hi
    have := List.mem_range.mp hi
    exact h.source (by omega) (by omega)
  have hlen : (m.loadRow 32 4 (j.src + o)).1.length = 4 := by rw [hvalues]; rfl
  have hstore := hload.storeRow (m.loadRow 32 4 (j.src + o)).1 (w := 32) (o := o)
    (by rw [hlen, hvalues]) ho (by omega)
  rw [hlen] at hstore
  exact hstore

/-! ## A copy under way -/

/-- What is left of `j` is the last `c.n` bytes. -/
structure At (j : Job UInt8) (c : Locals) : Prop where
  dst : c.dst + c.n = j.dst + j.len
  src : c.src + c.n = j.src + j.len
  le : c.n ≤ j.len
  copied : Copied j (j.len - c.n) c.m

namespace At

variable {j : Job UInt8} {c : Locals} {mov : Nat → Nat → Bytes → Bytes}

theorem here (h : At j c) {k : Nat} (hmov : Copies mov k) (hk : k ≤ c.n) :
    Copied j (j.len - c.n + k) (mov c.dst c.src c.m) := by
  have hle := h.le
  have hdst := h.dst
  have hsrc := h.src
  have hnext := hmov j _ (j.len - c.n) _ h.copied (by omega) (by omega)
  rw [show j.dst + (j.len - c.n) = c.dst by omega, show j.src + (j.len - c.n) = c.src by omega] at hnext
  exact hnext.mono (by omega)

theorem block' (h : At j c) {k l : Nat} (hmov : Copies mov k) (hk : k ≤ c.n) (hl : l ≤ k) :
    At j (c.block mov l) := by
  have hle := h.le
  have hdst := h.dst
  have hsrc := h.src
  refine ⟨?_, ?_, ?_, (h.here hmov hk).mono ?_⟩ <;> simp only [Locals.block] <;> omega

theorem block (h : At j c) {k : Nat} (hmov : Copies mov k) (hk : k ≤ c.n) : At j (c.block mov k) :=
  h.block' hmov hk le_rfl

theorem block_if (h : At j c) {k : Nat} (hmov : Copies mov k) :
    At j (if k ≤ c.n then c.block mov k else c) := by
  split
  · next hk => exact h.block hmov hk
  · exact h

/-- The last word is taken from the end, over bytes that may be there already. -/
theorem tail {k done : Nat} {m : Bytes} (h : At j c) (hm : Copied j done m) (hmov : Copies mov k)
    (hk : k ≤ j.len) (hdone : j.len - k ≤ done) :
    Copied j j.len (mov (c.dst + c.n - k) (c.src + c.n - k) m) := by
  have hlast := hmov j done (j.len - k) m hm hdone (by omega)
  rw [show j.dst + (j.len - k) = c.dst + c.n - k by rw [h.dst]; omega,
    show j.src + (j.len - k) = c.src + c.n - k by rw [h.src]; omega] at hlast
  exact hlast.mono (by omega)

theorem finished (h : At j c) (hn : c.n = 0) : Copied j j.len c.m := by
  have hc := h.copied
  rwa [hn] at hc

/-- The end of a copy in words of `k` bytes. -/
theorem back {k : Nat} (h : At j c) (hmov : Copies mov k) (hk : k ≤ j.len) (hn : c.n ≤ 2 * k) :
    Copied j j.len (if k < c.n then mov (c.dst + c.n - k) (c.src + c.n - k) (mov c.dst c.src c.m)
      else if 0 < c.n then mov (c.dst + c.n - k) (c.src + c.n - k) c.m else c.m) := by
  have hle := h.le
  split
  · next hlt => exact h.tail (h.here hmov (by omega)) hmov hk (by omega)
  · split
    · exact h.tail h.copied hmov hk (by omega)
    · exact h.finished (by omega)

end At

variable {j : Job UInt8} {c : Locals}

/-! ## Up to 15 bytes -/

/-- `o` of the bytes are copied, by the bits of `n` that were looked at. -/
structure AtBit (j : Job UInt8) (o : Nat) (c : Locals) : Prop where
  dst : c.dst = j.dst + o
  src : c.src = j.src + o
  n : c.n = j.len
  copied : Copied j o c.m

theorem AtBit.bit {o k : Nat} (h : AtBit j o c) (hk : j.len &&& k = 0 ∨ j.len &&& k = k)
    (hle : o + (j.len &&& k) ≤ j.len) : AtBit j (o + (j.len &&& k)) (c.bit k) := by
  unfold Locals.bit
  rw [h.n]
  split
  · next hne =>
    have hbit := hk.resolve_left hne
    rw [hbit] at hle ⊢
    refine ⟨by dsimp only; rw [h.dst]; omega, by dsimp only; rw [h.src]; omega, rfl, ?_⟩
    have hmove := h.copied.move (w := k) (o := o) le_rfl hle
    rw [h.dst, h.src]
    exact hmove.mono (by omega)
  · next hzero =>
    rw [Classical.not_not.mp hzero]
    exact h

theorem bits_of_lt : ∀ n, n < 16 →
    (n &&& 8 = 0 ∨ n &&& 8 = 8) ∧ (n &&& 4 = 0 ∨ n &&& 4 = 4) ∧ (n &&& 2 = 0 ∨ n &&& 2 = 2) ∧
      (n &&& 1 = 0 ∨ n &&& 1 = 1) ∧ (n &&& 8) + (n &&& 4) + (n &&& 2) + (n &&& 1) = n := by
  decide

theorem rteMov15OrLess_copied {m : Bytes} (hm : Copied j 0 m) (hn : j.len < 16) :
    Copied j j.len (rteMov15OrLess j.dst j.src j.len m).2 := by
  obtain ⟨h8, h4, h2, h1, hsum⟩ := bits_of_lt j.len hn
  have hstart : AtBit j 0 ⟨j.dst, j.src, j.len, m⟩ := ⟨rfl, rfl, rfl, hm⟩
  have hlast := (((hstart.bit h8 (by omega)).bit h4 (by omega)).bit h2 (by omega)).bit h1 (by omega)
  exact hlast.copied.mono (by omega)

/-! ## SSE -/

theorem copyBlock64Back15_copied (h : At j c) (hn : c.n ≤ 64) (hlen : 16 ≤ j.len) :
    Copied j j.len (copyBlock64Back15 c) := by
  have hnext := h.block_if (copies_mov32 .sse)
  refine hnext.back copies_mov16 hlen ?_
  split
  · simp only [Locals.block]; omega
  · omega

theorem copyBlock128Back15_copied (h : At j c) (hn : c.n ≤ 128) (hlen : 16 ≤ j.len) :
    Copied j j.len (copyBlock128Back15 c) := by
  refine copyBlock64Back15_copied (h.block_if (copies_mov64 .sse)) ?_ hlen
  split
  · simp only [Locals.block]; omega
  · omega

theorem copyBlock255Back15_copied (h : At j c) (hn : c.n ≤ 256) (hlen : 16 ≤ j.len) :
    Copied j j.len (copyBlock255Back15 c) := by
  refine copyBlock128Back15_copied (h.block_if (copies_mov128 .sse)) ?_ hlen
  split
  · simp only [Locals.block]; omega
  · omega

theorem mov256Loop_at (h : At j c) : At j (mov256Loop c) ∧ (mov256Loop c).n < 256 := by
  induction c using mov256Loop.induct with
  | case1 c hn ih =>
    rw [mov256Loop, if_pos hn]
    exact ih (h.block (copies_mov256 .sse) hn)
  | case2 c hn =>
    rw [mov256Loop, if_neg hn]
    exact ⟨h, by omega⟩

/-! ### Loads from aligned addresses -/

theorem alignr_read (mem : Nat → UInt8) (a offset : Nat) (h : offset ≤ 16) :
    alignr (read mem (a + 16) 16) (read mem a 16) offset = read mem (a + offset) 16 := by
  rw [alignr, read_append, read_slice _ (by omega)]

theorem alignr_row (m : Bytes) (k a offset : Nat) (h : offset ≤ 16) :
    List.zipWith (fun lo hi => alignr hi lo offset) (m.loadRow 16 (k + 1) a).1
        (m.loadRow 16 (k + 1) a).1.tail =
      (List.range k).map fun i => read m.mem (a + offset + i * 16) 16 := by
  rw [Machine.loadRow_values]
  apply List.ext_getElem
  · simp
  · intro i _ _
    simp only [List.getElem_zipWith, List.getElem_map, List.getElem_range, List.getElem_tail]
    rw [show a + (i + 1) * 16 = a + i * 16 + 16 by omega, alignr_read _ _ _ h]
    congr 1
    omega

theorem unalignedBlock_at (h : At j c) (k offset : Nat) (hoffset : offset ≤ 16)
    (hk : 16 * k + 16 - offset ≤ c.n) (hfloor : j.floor + offset ≤ c.src) :
    At j (c.block (unalignedBlock k offset) (16 * k)) := by
  have hle := h.le
  have hdst := h.dst
  have hsrc := h.src
  have hload := h.copied.loadRow (w := 16) (k := k + 1) (a := c.src - offset) (by omega) (by omega)
  have hvalues : List.zipWith (fun lo hi => alignr hi lo offset)
        (c.m.loadRow 16 (k + 1) (c.src - offset)).1 (c.m.loadRow 16 (k + 1) (c.src - offset)).1.tail =
      (List.range k).map fun i => read j.before (j.src + (j.len - c.n) + i * 16) 16 := by
    rw [alignr_row _ _ _ _ hoffset]
    apply List.map_congr_left
    intro i hi
    have := List.mem_range.mp hi
    rw [show c.src - offset + offset = j.src + (j.len - c.n) by omega]
    exact h.copied.source (by omega) (by omega)
  have hstore := hload.storeRow (w := 16) (o := j.len - c.n)
    ((List.range k).map fun i => read j.before (j.src + (j.len - c.n) + i * 16) 16) (by simp) le_rfl (by simp; omega)
  rw [List.length_map, List.length_range, show j.dst + (j.len - c.n) = c.dst by omega] at hstore
  have hblock : Copied j (j.len - (c.n - 16 * k)) (unalignedBlock k offset c.dst c.src c.m) := by
    unfold unalignedBlock
    dsimp only
    rw [hvalues]
    exact hstore.mono (by omega)
  refine ⟨?_, ?_, ?_, hblock⟩ <;> simp only [Locals.block] <;> omega

theorem unalignedLoop_at (k : Nat) (offset : Fin 16) (h : At j c)
    (hn : 16 - offset ≤ c.n) (hfloor : j.floor + offset ≤ c.src) :
    At j (unalignedLoop k offset c) ∧ j.floor + offset ≤ (unalignedLoop k offset c).src ∧
      16 - offset ≤ (unalignedLoop k offset c).n ∧
      (unalignedLoop k offset c).n < 16 * (k + 1) + 16 - offset := by
  have hoffset := offset.isLt
  induction c using unalignedLoop.induct k offset with
  | case1 c hk ih =>
    rw [unalignedLoop, if_pos hk]
    refine ih (unalignedBlock_at h _ _ (by omega) hk hfloor) ?_ ?_ <;> simp only [Locals.block] <;> omega
  | case2 c hk =>
    rw [unalignedLoop, if_neg hk]
    exact ⟨h, hfloor, hn, by omega⟩

/-- The masks only repeat what the loops have left over. -/
theorem cut_eq (mask : Nat) (offset : Fin 16) (hmask : mask + 1 ∣ UInt64.size)
    (hn : 16 - offset ≤ c.n) (hlt : c.n < mask + 1 + 16 - offset) : c.cut mask offset = c := by
  have hoffset := offset.isLt
  have hsize : 16 ≤ UInt64.size := by decide
  have hlen : (c.n + UInt64.size - 16 + offset) % UInt64.size % (mask + 1) + 16 - offset = c.n := by
    rw [show c.n + UInt64.size - 16 + offset = c.n + offset - 16 + UInt64.size by omega,
      Nat.add_mod_right, Nat.mod_mod_of_dvd _ hmask, Nat.mod_eq_of_lt (by omega)]
    omega
  simp only [Locals.cut, hlen, Nat.sub_self, Nat.add_zero]

theorem moveUnalignedLeft47Imm_at (offset : Fin 16) (h : At j c) (hn : 16 - offset ≤ c.n)
    (hfloor : j.floor + offset ≤ c.src) :
    At j (moveUnalignedLeft47Imm offset c) ∧ (moveUnalignedLeft47Imm offset c).n < 48 := by
  obtain ⟨hat, hfloor, hge, hlt⟩ := unalignedLoop_at 7 offset h hn hfloor
  unfold moveUnalignedLeft47Imm
  rw [cut_eq 127 offset (by decide) hge hlt]
  dsimp only
  split
  · obtain ⟨hat, -, hge, hlt⟩ := unalignedLoop_at 1 offset hat hge hfloor
    rw [cut_eq 31 offset (by decide) hge hlt]
    exact ⟨hat, by omega⟩
  · exact ⟨hat, by omega⟩

theorem moveUnalignedLeft47_eq {n : Nat} (h : n % 16 ≠ 0) :
    moveUnalignedLeft47 (n % 16) c = moveUnalignedLeft47Imm ⟨n % 16, Nat.mod_lt _ (by decide)⟩ c := by
  unfold moveUnalignedLeft47
  rw [dif_pos (by omega)]

/-! ### All sizes -/

theorem at_start {m : Bytes} (hm : Copied j 0 m) : At j ⟨j.dst, j.src, j.len, m⟩ :=
  ⟨rfl, rfl, le_rfl, by simpa using hm⟩

/-- The first word and the last one. -/
theorem first_and_last {mov last : Nat → Nat → Bytes → Bytes} {k l : Nat} {m : Bytes}
    (hm : Copied j 0 m) (hmov : Copies mov k) (hlast : Copies last l) (hk : k ≤ j.len)
    (hl : l ≤ j.len) (hsum : j.len ≤ k + l) :
    Copied j j.len (last (j.dst + j.len - l) (j.src + j.len - l) (mov j.dst j.src m)) := by
  have hstart := at_start hm
  exact hstart.tail (hstart.here hmov hk) hlast hl (by dsimp only; omega)

theorem aligned_store_at {m : Bytes} (hm : Copied j 0 m) (hn : 512 < j.len)
    (hfloor : j.dst % 16 = 0 → j.src % 16 ≠ 0 → j.floor + j.src % 16 ≤ j.src) :
    ∀ c, (if 0 < j.dst % 16 then
        (Locals.mk j.dst j.src j.len m).block (rteMov32 .sse) (16 - j.dst % 16 + 16)
      else ⟨j.dst, j.src, j.len, m⟩) = c →
    At j c ∧ 16 ≤ c.n ∧ (c.src % 16 ≠ 0 → j.floor + c.src % 16 ≤ c.src) := by
  have hle := j.floor_le
  have hstart := at_start hm
  rintro c rfl
  split
  · refine ⟨hstart.block' (copies_mov32 .sse) (by dsimp only; omega) (by omega), ?_, ?_⟩
    · simp only [Locals.block]; omega
    · intro _
      simp only [Locals.block]; omega
  · exact ⟨hstart, by dsimp only; omega, fun hsrc => hfloor (by omega) hsrc⟩

theorem rteMemcpyGenericSse_copied {m : Bytes} (hm : Copied j 0 m)
    (hfloor : 512 < j.len → j.dst % 16 = 0 → j.src % 16 ≠ 0 → j.floor + j.src % 16 ≤ j.src) :
    Copied j j.len (rteMemcpyGenericSse j.dst j.src j.len m).2 := by
  have hstart := at_start hm
  unfold rteMemcpyGenericSse
  dsimp only
  split
  · next hn => exact rteMov15OrLess_copied hm hn
  split
  · exact first_and_last hm copies_mov16 copies_mov16 (by omega) (by omega) (by omega)
  split
  · exact first_and_last hm (copies_mov32 .sse) copies_mov16 (by omega) (by omega) (by omega)
  split
  · exact first_and_last hm (copies_then (copies_mov32 .sse) copies_mov16) copies_mov16 (by omega)
      (by omega) (by omega)
  split
  · exact copyBlock128Back15_copied hstart (by dsimp only; omega) (by omega)
  split
  · have hnext := hstart.block_if (copies_then (copies_mov128 .sse) (copies_mov128 .sse))
    refine copyBlock255Back15_copied hnext ?_ (by omega)
    split
    · simp only [Locals.block]; omega
    · dsimp only at *; omega
  generalize hc : (if 0 < j.dst % 16 then
      (Locals.mk j.dst j.src j.len m).block (rteMov32 .sse) (16 - j.dst % 16 + 16)
    else ⟨j.dst, j.src, j.len, m⟩) = c
  obtain ⟨hat, hn, hfloor⟩ := aligned_store_at hm (by omega) (hfloor (by omega)) c hc
  split
  · obtain ⟨hloop, hlt⟩ := mov256Loop_at hat
    exact copyBlock255Back15_copied hloop (by omega) (by omega)
  · next hsrc =>
    rw [moveUnalignedLeft47_eq hsrc]
    obtain ⟨hmoved, hlt⟩ := moveUnalignedLeft47Imm_at ⟨_, Nat.mod_lt _ (by decide)⟩ hat
      (by dsimp only; omega) (hfloor hsrc)
    exact copyBlock64Back15_copied hmoved (by omega) (by omega)

theorem unalignedBlock_loads (k offset dst src : Nat) (m : Bytes) :
    (src - offset, 16) ∈ (unalignedBlock k offset dst src m).loads := by
  unfold unalignedBlock
  dsimp only
  rw [Machine.storeRow_loads]
  exact Machine.first_mem_loadRow m 16 k (src - offset)

theorem moveUnalignedLeft47Imm_step (offset : Fin 16) (hn : 144 ≤ c.n) :
    moveUnalignedLeft47Imm offset c =
      moveUnalignedLeft47Imm offset (c.block (unalignedBlock 8 offset) 128) := by
  have hstep : unalignedLoop 7 offset c =
      unalignedLoop 7 offset (c.block (unalignedBlock 8 offset) 128) := by
    rw [unalignedLoop, if_pos (by omega)]
  unfold moveUnalignedLeft47Imm
  rw [hstep]

/-- The first load takes the aligned word that holds the first byte of the source. -/
theorem rteMemcpyGenericSse_strays {m : Bytes} (hm : Copied j 0 m) (hn : 512 < j.len)
    (hdst : j.dst % 16 = 0) (hsrc : j.src % 16 ≠ 0) (hfloor : j.floor + j.src % 16 ≤ j.src) :
    (j.src - j.src % 16, 16) ∈ (rteMemcpyGenericSse j.dst j.src j.len m).2.loads := by
  have hfirst := unalignedBlock_at (at_start hm) 8 (j.src % 16) (by omega)
    (by dsimp only; omega) hfloor
  have hloads := unalignedBlock_loads 8 (j.src % 16) j.dst j.src m
  have hseen : At { j with seen := [(j.src - j.src % 16, 16)] }
      ((Locals.mk j.dst j.src j.len m).block (unalignedBlock 8 (j.src % 16)) (16 * 8)) :=
    ⟨hfirst.dst, hfirst.src, hfirst.le, hfirst.copied.see _ (by simpa [Locals.block] using hloads)⟩
  obtain ⟨hmoved, hlt⟩ := moveUnalignedLeft47Imm_at ⟨j.src % 16, Nat.mod_lt _ (by decide)⟩ hseen
    (by simp only [Locals.block]; omega) (by simp only [Locals.block]; omega)
  have hlast := copyBlock64Back15_copied hmoved (by omega) (by dsimp only; omega)
  unfold rteMemcpyGenericSse
  dsimp only
  rw [if_neg (by omega), if_neg (by omega), if_neg (by omega), if_neg (by omega), if_neg (by omega),
    if_neg (by omega), if_neg (by omega : ¬ 0 < j.dst % 16), if_neg hsrc, moveUnalignedLeft47_eq hsrc,
    moveUnalignedLeft47Imm_step _ (by dsimp only; omega)]
  exact hlast.seen _ (by simp)

/-! ## AVX2 -/

theorem rteMov128blocks_copied (h : At j c) :
    At j ⟨c.dst + (c.n - c.n % 128), c.src + (c.n - c.n % 128), c.n % 128, rteMov128blocks c⟩ := by
  induction c using rteMov128blocks.induct with
  | case1 c hn ih =>
    rw [rteMov128blocks, if_pos hn]
    have hnext := ih (h.block copies_mov128Block hn)
    have hmod : (c.n - 128) % 128 = c.n % 128 := by omega
    simp only [Locals.block, hmod] at hnext
    rw [show c.dst + 128 + (c.n - 128 - c.n % 128) = c.dst + (c.n - c.n % 128) by omega,
      show c.src + 128 + (c.n - 128 - c.n % 128) = c.src + (c.n - c.n % 128) by omega] at hnext
    exact hnext
  | case2 c hn =>
    rw [rteMov128blocks, if_neg hn, Nat.mod_eq_of_lt (by omega), Nat.sub_self]
    exact h

theorem copyBlock128Back31_copied (h : At j c) (hn : c.n ≤ 128) (hlen : 32 ≤ j.len) :
    Copied j j.len (copyBlock128Back31 c) := by
  have hnext := h.block_if (copies_mov64 .avx2)
  refine hnext.back (copies_mov32 .avx2) hlen ?_
  split
  · simp only [Locals.block]; omega
  · omega

theorem rteMemcpyGenericAvx2_copied {m : Bytes} (hm : Copied j 0 m) :
    Copied j j.len (rteMemcpyGenericAvx2 j.dst j.src j.len m).2 := by
  have hstart := at_start hm
  unfold rteMemcpyGenericAvx2
  dsimp only
  split
  · next hn => exact rteMov15OrLess_copied hm hn
  split
  · exact first_and_last hm copies_mov16 copies_mov16 (by omega) (by omega) (by omega)
  split
  · exact first_and_last hm (copies_then copies_mov16 copies_mov16) copies_mov16 (by omega)
      (by omega) (by omega)
  split
  · exact first_and_last hm (copies_mov32 .avx2) (copies_mov32 .avx2) (by omega) (by omega)
      (by omega)
  split
  · refine copyBlock128Back31_copied (hstart.block_if (copies_mov128 .avx2)) ?_ (by omega)
    split
    · simp only [Locals.block]; omega
    · dsimp only at *; omega
  have hat : At j (if 0 < j.dst % 32 then
      (Locals.mk j.dst j.src j.len m).block (rteMov32 .avx2) (32 - j.dst % 32)
    else ⟨j.dst, j.src, j.len, m⟩) := by
    split
    · exact hstart.block' (copies_mov32 .avx2) (by dsimp only; omega) (by omega)
    · exact hstart
  exact copyBlock128Back31_copied (rteMov128blocks_copied hat) (by dsimp only; omega) (by omega)

/-! ## Both -/

theorem mov64Loop_at (b : Build) (h : At j c) (hn : 0 < c.n) :
    At j (mov64Loop b c) ∧ (mov64Loop b c).n ≤ 64 := by
  induction c using mov64Loop.induct b with
  | case1 c hlt ih =>
    rw [mov64Loop, if_pos hlt]
    exact ih (h.block (copies_mov64 b) (by omega)) (by simp only [Locals.block]; omega)
  | case2 c hlt =>
    rw [mov64Loop, if_neg hlt]
    exact ⟨h, by omega⟩

theorem rteMemcpyAligned_copied (b : Build) {m : Bytes} (hm : Copied j 0 m) :
    Copied j j.len (rteMemcpyAligned b j.dst j.src j.len m).2 := by
  unfold rteMemcpyAligned
  dsimp only
  split
  · next hn => exact rteMov15OrLess_copied hm hn
  split
  · exact first_and_last hm copies_mov16 copies_mov16 (by omega) (by omega) (by omega)
  split
  · exact first_and_last hm (copies_mov32 b) (copies_mov32 b) (by omega) (by omega) (by omega)
  · obtain ⟨hat, hle⟩ := mov64Loop_at b (at_start hm) (by dsimp only; omega)
    exact hat.tail hat.copied (copies_mov64 b) (by omega) (by omega)

theorem rteMemcpy_returns (b : Build) (dst src n : Nat) (m : Bytes) :
    (rteMemcpy b dst src n m).1 = dst := by
  cases b <;>
    simp only [rteMemcpy, rteMemcpyGeneric, rteMemcpyAligned, rteMemcpyGenericSse,
      rteMemcpyGenericAvx2, rteMov15OrLess] <;>
    repeat' split
  all_goals rfl

theorem rteMemcpy_copied (b : Build) {m : Bytes} (hm : Copied j 0 m)
    (hfloor : b = .sse → 512 < j.len → j.dst % 16 = 0 → j.src % 16 ≠ 0 →
      j.floor + j.src % 16 ≤ j.src) :
    Copied j j.len (rteMemcpy b j.dst j.src j.len m).2 := by
  unfold rteMemcpy
  split
  · exact rteMemcpyAligned_copied b hm
  · cases b with
    | sse => exact rteMemcpyGenericSse_copied hm (hfloor rfl)
    | avx2 => exact rteMemcpyGenericAvx2_copied hm

theorem unaligned_of_src {dst src : Nat} (h : src % 16 ≠ 0) :
    (dst ||| src) % Build.sse.alignment ≠ 0 := by
  have hor : (dst ||| src) % Build.sse.alignment = dst % 16 ||| src % 16 :=
    Nat.or_mod_two_pow (n := 4)
  rw [hor]
  intro h0
  exact h (Nat.or_eq_zero_iff.mp h0).2

/-- What `memcpy` is for. -/
def plainMemcpy (dst src n : Nat) (mem : Nat → UInt8) : Nat → UInt8 :=
  fun a => if dst ≤ a ∧ a < dst + n then mem (src + (a - dst)) else mem a

theorem plain_of_copied {m : Bytes} (h : Copied j j.len m) :
    m.mem = plainMemcpy j.dst j.src j.len j.before := by
  funext a
  unfold plainMemcpy
  split
  · next ha =>
    have hc := h.copied (a - j.dst) (by omega)
    rwa [show j.dst + (a - j.dst) = a by omega] at hc
  · exact h.rest a (by omega)

/-- The copies whose first load starts before the source. -/
def Strays (b : Build) (dst src n : Nat) : Prop :=
  b = .sse ∧ 512 < n ∧ dst % 16 = 0 ∧ src % 16 ≠ 0

/-- The copy, with nothing done yet. -/
def job (dst src n : Nat) (mem : Nat → UInt8) (hapart : src + n ≤ dst ∨ dst + n ≤ src)
    (floor : Nat) (hfloor : floor ≤ src) : Job UInt8 :=
  ⟨dst, src, n, mem, hapart, floor, hfloor, []⟩

theorem copied_nothing (j : Job UInt8) (h : j.seen = []) : Copied j 0 ⟨j.before, [], []⟩ where
  rest _ _ := rfl
  copied _ hi := absurd hi (Nat.not_lt_zero _)
  loads _ hl := absurd hl List.not_mem_nil
  stores _ hs := absurd hs List.not_mem_nil
  seen l hl := by simp [h] at hl

/-- Between ranges that do not overlap, both builds do what `memcpy` does. They store inside the
destination and load from the source and, in the copies that stray, from the rest of the aligned
word in which it starts. -/
theorem memcpy_copies (b : Build) (dst src n : Nat) (mem : Nat → UInt8)
    (hapart : src + n ≤ dst ∨ dst + n ≤ src) :
    ∃ m, wrapMemcpy b dst src n ⟨mem, [], []⟩ = (dst, m) ∧
      m.mem = plainMemcpy dst src n mem ∧
      (∀ s ∈ m.stores, dst ≤ s.1 ∧ s.1 + s.2 ≤ dst + n) ∧
      (∀ l ∈ m.loads, src - src % 16 ≤ l.1 ∧ l.1 + l.2 ≤ src + n) ∧
      ((∃ l ∈ m.loads, l.1 < src) ↔ Strays b dst src n) := by
  refine ⟨(rteMemcpy b dst src n ⟨mem, [], []⟩).2, Prod.ext (rteMemcpy_returns b dst src n _) rfl, ?_⟩
  by_cases hs : Strays b dst src n
  · obtain ⟨rfl, hn, hdst, hsrc⟩ := hs
    let j := job dst src n mem hapart (src - src % 16) (Nat.sub_le _ _)
    have hmod := Nat.mod_le src 16
    have hjob : j.floor + src % 16 ≤ src := by simp only [j, job]; omega
    have hc := rteMemcpy_copied (j := j) .sse (copied_nothing j rfl) fun _ _ _ _ => hjob
    have hstray := rteMemcpyGenericSse_strays (copied_nothing j rfl) hn hdst hsrc hjob
    refine ⟨plain_of_copied hc, hc.stores, hc.loads, fun _ => ⟨rfl, hn, hdst, hsrc⟩, fun _ => ?_⟩
    refine ⟨(src - src % 16, 16), ?_, by dsimp only; omega⟩
    rw [rteMemcpy, if_neg (unaligned_of_src hsrc)]
    exact hstray
  · let j := job dst src n mem hapart src le_rfl
    have hc := rteMemcpy_copied (j := j) b (copied_nothing j rfl)
      fun hb hn hdst hsrc => absurd ⟨hb, hn, hdst, hsrc⟩ hs
    refine ⟨plain_of_copied hc, hc.stores, ?_, ?_, fun h => absurd h hs⟩
    · intro l hl
      exact ⟨Nat.le_trans (Nat.sub_le _ _) (hc.loads l hl).1, (hc.loads l hl).2⟩
    · rintro ⟨l, hl, hlt⟩
      exact absurd (hc.loads l hl).1 (Nat.not_le.mpr hlt)

/-- 600 bytes from an odd address to an aligned one behind the source. -/
theorem memcpy_copies_behind : 101 + 600 ≤ 704 ∧
    ∃ m, wrapMemcpy .sse 704 101 600 ⟨UInt8.ofNat, [], []⟩ = (704, m) ∧ m.mem 704 = 101 ∧
      ∃ l ∈ m.loads, l.1 < 101 := by
  obtain ⟨m, heq, hmem, -, -, hstray⟩ :=
    memcpy_copies .sse 704 101 600 UInt8.ofNat (.inl (by decide))
  refine ⟨by decide, m, heq, ?_, hstray.mpr ⟨rfl, by decide, by decide, by decide⟩⟩
  rw [hmem]
  rfl

end Omnipp.Memcpy
