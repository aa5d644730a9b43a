import Omnipp.Lib.Memory

/-!
# `rte_memcpy`

omnipp is linked with `--wrap=memcpy`, and `__wrap_memcpy` is DPDK's `rte_memcpy`. The header has
a version for AVX2, which a build for the native CPU takes, and one for SSE, which the others take.
The one for AVX512 is off. Addresses are natural numbers: `dst - 16 + n` is `dst + n - 16`.
-/

namespace Omnipp.Memcpy

open Memory

inductive Build where
  -- `ALIGNMENT_MASK 0x0F`
  | sse
  -- `ALIGNMENT_MASK 0x1F`
  | avx2

def Build.alignment : Build → Nat
  | .sse => 16
  | .avx2 => 32

abbrev Bytes := Machine UInt8

/-! ## Fixed sizes -/

def rteMov16 (dst src : Nat) (m : Bytes) : Bytes := m.move 16 dst src

def rteMov32 (b : Build) (dst src : Nat) (m : Bytes) : Bytes :=
  match b with
  | .sse => m.moves 16 2 dst src
  | .avx2 => m.move 32 dst src

def rteMov64 (b : Build) (dst src : Nat) (m : Bytes) : Bytes :=
  match b with
  | .sse => m.moves 16 4 dst src
  | .avx2 => m.moves 32 2 dst src

def rteMov128 (b : Build) (dst src : Nat) (m : Bytes) : Bytes :=
  match b with
  | .sse => m.moves 16 8 dst src
  | .avx2 => m.moves 32 4 dst src

def rteMov256 (b : Build) (dst src : Nat) (m : Bytes) : Bytes :=
  match b with
  | .sse => m.moves 16 16 dst src
  | .avx2 => m.moves 32 8 dst src

/-- The variables of a copy: what is left of it, and the memory. -/
structure Locals where
  dst : Nat
  src : Nat
  n : Nat
  m : Bytes

/-- `n -= k`, a copy of at least `k` bytes, `src += k`, `dst += k`. -/
def Locals.block (c : Locals) (mov : Nat → Nat → Bytes → Bytes) (k : Nat) : Locals :=
  ⟨c.dst + k, c.src + k, c.n - k, mov c.dst c.src c.m⟩

/-- One `if (n & k)` of `rte_mov15_or_less`. It leaves `n` as it is. -/
def Locals.bit (c : Locals) (k : Nat) : Locals :=
  if c.n &&& k ≠ 0 then { c with dst := c.dst + k, src := c.src + k, m := c.m.move k c.dst c.src }
  else c

def rteMov15OrLess (dst src n : Nat) (m : Bytes) : Nat × Bytes :=
  (dst, ((((Locals.mk dst src n m).bit 8).bit 4).bit 2).bit 1 |>.m)

/-! ## SSE -/

/-- `COPY_BLOCK_64_BACK15` -/
def copyBlock64Back15 (c : Locals) : Bytes :=
  let c := if 32 ≤ c.n then c.block (rteMov32 .sse) 32 else c
  if 16 < c.n then
    rteMov16 (c.dst + c.n - 16) (c.src + c.n - 16) (rteMov16 c.dst c.src c.m)
  else if 0 < c.n then
    rteMov16 (c.dst + c.n - 16) (c.src + c.n - 16) c.m
  else c.m

/-- `COPY_BLOCK_128_BACK15` -/
def copyBlock128Back15 (c : Locals) : Bytes :=
  copyBlock64Back15 (if 64 ≤ c.n then c.block (rteMov64 .sse) 64 else c)

/-- `COPY_BLOCK_255_BACK15` -/
def copyBlock255Back15 (c : Locals) : Bytes :=
  copyBlock128Back15 (if 128 ≤ c.n then c.block (rteMov128 .sse) 128 else c)

/-- `for (; n >= 256; n -= 256)` -/
def mov256Loop (c : Locals) : Locals :=
  if 256 ≤ c.n then mov256Loop (c.block (rteMov256 .sse) 256) else c
termination_by c.n
decreasing_by simp only [Locals.block]; omega

/-- `_mm_alignr_epi8(hi, lo, offset)` -/
def alignr (hi lo : List UInt8) (offset : Nat) : List UInt8 := ((lo ++ hi).drop offset).take 16

/-- One pass over `16 * k` bytes: `k + 1` loads from aligned addresses, then `k` stores. -/
def unalignedBlock (k offset dst src : Nat) (m : Bytes) : Bytes :=
  let (xmm, m) := m.loadRow 16 (k + 1) (src - offset)
  m.storeRow 16 dst (List.zipWith (fun lo hi => alignr hi lo offset) xmm xmm.tail)

/-- `while (len >= 16 * k + 16 - offset)` -/
def unalignedLoop (k : Nat) (offset : Fin 16) (c : Locals) : Locals :=
  if 16 * (k + 1) + 16 - offset ≤ c.n then
    unalignedLoop k offset (c.block (unalignedBlock (k + 1) offset) (16 * (k + 1)))
  else c
termination_by c.n
decreasing_by simp only [Locals.block]; omega

/-- `len = ((len - 16 + offset) & mask) + 16 - offset`, in `size_t`, and what follows from it. -/
def Locals.cut (c : Locals) (mask : Nat) (offset : Fin 16) : Locals :=
  let len := (c.n + UInt64.size - 16 + offset) % UInt64.size % (mask + 1) + 16 - offset
  let tmp := c.n - len
  { c with dst := c.dst + tmp, src := c.src + tmp, n := len }

def moveUnalignedLeft47Imm (offset : Fin 16) (c : Locals) : Locals :=
  let c := (unalignedLoop 7 offset c).cut 127 offset
  if 32 + 16 - offset ≤ c.n then (unalignedLoop 1 offset c).cut 31 offset else c

/-- The `switch` has a case for each offset from 1 to 15. -/
def moveUnalignedLeft47 (offset : Nat) (c : Locals) : Locals :=
  if h : 1 ≤ offset ∧ offset ≤ 15 then moveUnalignedLeft47Imm ⟨offset, by omega⟩ c else c

def rteMemcpyGenericSse (dst src n : Nat) (m : Bytes) : Nat × Bytes :=
  let ret := dst
  if n < 16 then rteMov15OrLess dst src n m
  else if n ≤ 32 then
    (ret, rteMov16 (dst + n - 16) (src + n - 16) (rteMov16 dst src m))
  else if n ≤ 48 then
    (ret, rteMov16 (dst + n - 16) (src + n - 16) (rteMov32 .sse dst src m))
  else if n ≤ 64 then
    let m := rteMov16 (dst + 32) (src + 32) (rteMov32 .sse dst src m)
    (ret, rteMov16 (dst + n - 16) (src + n - 16) m)
  else if n ≤ 128 then (ret, copyBlock128Back15 ⟨dst, src, n, m⟩)
  else if n ≤ 512 then
    let c : Locals := ⟨dst, src, n, m⟩
    let mov dst src m := rteMov128 .sse (dst + 128) (src + 128) (rteMov128 .sse dst src m)
    (ret, copyBlock255Back15 (if 256 ≤ n then c.block mov 256 else c))
  else
    let c : Locals := ⟨dst, src, n, m⟩
    let dstofss := dst % 16
    let c := if 0 < dstofss then c.block (rteMov32 .sse) (16 - dstofss + 16) else c
    let srcofs := c.src % 16
    if srcofs = 0 then (ret, copyBlock255Back15 (mov256Loop c))
    else (ret, copyBlock64Back15 (moveUnalignedLeft47 srcofs c))

/-! ## AVX2 -/

/-- One pass of `rte_mov128blocks`: four loads, then four stores. -/
def mov128Block (dst src : Nat) (m : Bytes) : Bytes :=
  let (ymm, m) := m.loadRow 32 4 src
  m.storeRow 32 dst ymm

/-- It has its own `dst`, `src` and `n`: the caller takes no more than the memory. -/
def rteMov128blocks (c : Locals) : Bytes :=
  if 128 ≤ c.n then rteMov128blocks (c.block mov128Block 128) else c.m
termination_by c.n
decreasing_by simp only [Locals.block]; omega

/-- `COPY_BLOCK_128_BACK31` -/
def copyBlock128Back31 (c : Locals) : Bytes :=
  let c := if 64 ≤ c.n then c.block (rteMov64 .avx2) 64 else c
  if 32 < c.n then
    rteMov32 .avx2 (c.dst + c.n - 32) (c.src + c.n - 32) (rteMov32 .avx2 c.dst c.src c.m)
  else if 0 < c.n then
    rteMov32 .avx2 (c.dst + c.n - 32) (c.src + c.n - 32) c.m
  else c.m

def rteMemcpyGenericAvx2 (dst src n : Nat) (m : Bytes) : Nat × Bytes :=
  let ret := dst
  if n < 16 then rteMov15OrLess dst src n m
  else if n ≤ 32 then
    (ret, rteMov16 (dst + n - 16) (src + n - 16) (rteMov16 dst src m))
  else if n ≤ 48 then
    let m := rteMov16 (dst + 16) (src + 16) (rteMov16 dst src m)
    (ret, rteMov16 (dst + n - 16) (src + n - 16) m)
  else if n ≤ 64 then
    (ret, rteMov32 .avx2 (dst + n - 32) (src + n - 32) (rteMov32 .avx2 dst src m))
  else if n ≤ 256 then
    let c : Locals := ⟨dst, src, n, m⟩
    (ret, copyBlock128Back31 (if 128 ≤ n then c.block (rteMov128 .avx2) 128 else c))
  else
    let c : Locals := ⟨dst, src, n, m⟩
    let dstofss := dst % 32
    let c := if 0 < dstofss then c.block (rteMov32 .avx2) (32 - dstofss) else c
    let m := rteMov128blocks c
    let bits := c.n - c.n % 128
    (ret, copyBlock128Back31 ⟨c.dst + bits, c.src + bits, c.n % 128, m⟩)

/-! ## Both -/

/-- `for (; n > 64; n -= 64)` -/
def mov64Loop (b : Build) (c : Locals) : Locals :=
  if 64 < c.n then mov64Loop b (c.block (rteMov64 b) 64) else c
termination_by c.n
decreasing_by simp only [Locals.block]; omega

def rteMemcpyAligned (b : Build) (dst src n : Nat) (m : Bytes) : Nat × Bytes :=
  let ret := dst
  if n < 16 then rteMov15OrLess dst src n m
  else if n ≤ 32 then
    (ret, rteMov16 (dst + n - 16) (src + n - 16) (rteMov16 dst src m))
  else if n ≤ 64 then
    (ret, rteMov32 b (dst + n - 32) (src + n - 32) (rteMov32 b dst src m))
  else
    let c := mov64Loop b ⟨dst, src, n, m⟩
    (ret, rteMov64 b (c.dst + c.n - 64) (c.src + c.n - 64) c.m)

def rteMemcpyGeneric (b : Build) : Nat → Nat → Nat → Bytes → Nat × Bytes :=
  match b with
  | .sse => rteMemcpyGenericSse
  | .avx2 => rteMemcpyGenericAvx2

def rteMemcpy (b : Build) (dst src n : Nat) (m : Bytes) : Nat × Bytes :=
  if (dst ||| src) % b.alignment = 0 then rteMemcpyAligned b dst src n m
  else rteMemcpyGeneric b dst src n m

/-- `__wrap_memcpy` -/
def wrapMemcpy (b : Build) (dest src n : Nat) (m : Bytes) : Nat × Bytes := rteMemcpy b dest src n m

end Omnipp.Memcpy
