import Omnipp.Pipeline

/-!
# System calls

What the kernel may answer to the calls that move bytes. Every answer that POSIX allows is
some schedule's answer: -1, a short count of at least one byte, or 0 at the end of a file.
-/

namespace Omnipp

/-- The answers to the calls of one kind, in order. `.error text` is -1 with `strerror(errno)`, and
`.ok k` moves `k` bytes, or as near to `k` as the call allows. -/
abbrev Schedule := Nat → Except String Nat

def Fails (answer : Except String Nat) : Prop := ∃ text, answer = .error text

theorem ok_not_fails (n : Nat) : ¬ Fails (.ok n) := by
  rintro ⟨text, ht⟩
  cases ht

def Clean (answers : Schedule) (a b : Nat) : Prop := ∀ i, a ≤ i → i < b → ¬ Fails (answers i)

theorem clean_self (answers : Schedule) (a : Nat) : Clean answers a a := by
  intro i h1 h2
  omega

theorem Clean.succ {answers : Schedule} {a b want : Nat} (h : Clean answers a b)
    (hb : answers b = .ok want) : Clean answers a (b + 1) := by
  intro i h1 h2
  rcases Nat.lt_succ_iff_lt_or_eq.mp h2 with hi | rfl
  · exact h i h1 hi
  · rintro ⟨text, ht⟩
    simp [hb] at ht

theorem Clean.trans {answers : Schedule} {a b c : Nat} (h : Clean answers a b)
    (h' : Clean answers b c) : Clean answers a c := by
  intro i h1 h2
  by_cases hb : i < b
  · exact h i h1 hb
  · exact h' i (by omega) h2

/-- The count of a successful call that has `room` for so many bytes. -/
def granted (want room : Nat) : Nat := min (max 1 want) room

theorem granted_le (want room : Nat) : granted want room ≤ room := Nat.min_le_right _ _

@[simp] theorem granted_zero (want : Nat) : granted want 0 = 0 := by simp [granted]

theorem granted_pos (want : Nat) {room : Nat} (h : 0 < room) : 0 < granted want room := by
  unfold granted
  omega

/-- Every count between 1 and `room` is some schedule's answer. -/
theorem granted_self {n room : Nat} (h1 : 1 ≤ n) (h2 : n ≤ room) : granted n room = n := by
  unfold granted
  omega

/-- The bytes that a call moves which has `room` for so many. A failed call moves none. -/
def carried (answer : Except String Nat) (room : Nat) : Nat :=
  match answer with
  | .error _ => 0
  | .ok want => granted want room

theorem carried_ok {answer : Except String Nat} {want : Nat} (h : answer = .ok want) (room : Nat) :
    carried answer room = granted want room := by
  rw [h, carried]

/-! ## Offsets

`std::size_t`, 64 bits wide.
-/

theorem chunk_toNat (limit size offset : UInt64) (h : offset ≤ size) :
    (min limit (size - offset)).toNat = min limit.toNat (size.toNat - offset.toNat) := by
  rw [← UInt64.toNat_sub_of_le _ _ h]
  change (if limit ≤ size - offset then limit else size - offset).toNat = _
  split <;> rename_i hle <;> rw [UInt64.le_iff_toNat_le] at hle <;> omega

theorem offset_add (offset : UInt64) (n : Nat) (h : offset.toNat + n < 2 ^ 64) :
    (offset + UInt64.ofNat n).toNat = offset.toNat + n := by
  rw [UInt64.toNat_add, UInt64.toNat_ofNat_of_lt' (by unfold UInt64.size; omega),
    Nat.mod_eq_of_lt h]

/-! ## Reading a file at an offset -/

/-- An open file and the answers to the `pread` calls on it. -/
structure Reader where
  content : Bytes
  reads : Schedule
  calls : Nat := 0

def Reader.pread (r : Reader) (count offset : Nat) : Except String Bytes × Reader :=
  let r' := { r with calls := r.calls + 1 }
  match r.reads r.calls with
  | .error text => (.error text, r')
  | .ok want =>
    let room := min count (r.content.length - offset)
    (.ok ((r.content.drop offset).take (granted want room)), r')

theorem Reader.pread_error {r : Reader} {text : String} (count offset : Nat)
    (h : r.reads r.calls = .error text) :
    r.pread count offset = (.error text, { r with calls := r.calls + 1 }) := by
  rw [Reader.pread, h]

theorem Reader.pread_ok {r : Reader} {want : Nat} (count offset : Nat)
    (h : r.reads r.calls = .ok want) :
    r.pread count offset =
      (.ok ((r.content.drop offset).take (granted want (min count (r.content.length - offset)))),
        { r with calls := r.calls + 1 }) := by
  rw [Reader.pread, h]

theorem Reader.pread_block {r r' : Reader} {count offset : Nat} {block : Bytes}
    (h : r.pread count offset = (.ok block, r')) :
    ∃ want, r.reads r.calls = .ok want ∧ r' = { r with calls := r.calls + 1 } ∧
      block = (r.content.drop offset).take block.length ∧
      block.length = granted want (min count (r.content.length - offset)) := by
  cases hr : r.reads r.calls with
  | error text => simp [Reader.pread_error _ _ hr] at h
  | ok want =>
    simp only [Reader.pread_ok _ _ hr, Prod.mk.injEq, Except.ok.injEq] at h
    obtain ⟨rfl, rfl⟩ := h
    have hlen : ((r.content.drop offset).take
        (granted want (min count (r.content.length - offset)))).length =
        granted want (min count (r.content.length - offset)) := by
      have := granted_le want (min count (r.content.length - offset))
      simp only [List.length_take, List.length_drop]
      omega
    exact ⟨want, rfl, rfl, by rw [hlen], hlen⟩

/-! ## Writing to stdout -/

structure Stdout where
  bytes : Bytes
  writes : Schedule
  calls : Nat := 0

/-- `::write(STDOUT_FILENO, ...)` -/
def Stdout.write (o : Stdout) (data : Bytes) : Expected × Stdout :=
  match o.writes o.calls with
  | .error text => (.error text, { o with calls := o.calls + 1 })
  | .ok want =>
    let n := granted want data.length
    (.ok n, { o with bytes := o.bytes ++ data.take n, calls := o.calls + 1 })

theorem Stdout.write_error {o : Stdout} {text : String} (data : Bytes)
    (h : o.writes o.calls = .error text) :
    o.write data = (.error text, { o with calls := o.calls + 1 }) := by
  rw [Stdout.write, h]

theorem Stdout.write_ok {o : Stdout} {want : Nat} (data : Bytes) (h : o.writes o.calls = .ok want) :
    o.write data =
      (.ok (granted want data.length),
        { o with bytes := o.bytes ++ data.take (granted want data.length), calls := o.calls + 1 }) := by
  rw [Stdout.write, h]

theorem Stdout.write_pos {o o' : Stdout} {data : Bytes} {n : Nat} (h : o.write data = (.ok n, o'))
    (hd : 0 < data.length) : 0 < n := by
  cases hw : o.writes o.calls with
  | error text => simp [Stdout.write_error _ hw] at h
  | ok want =>
    simp only [Stdout.write_ok _ hw, Prod.mk.injEq, Except.ok.injEq] at h
    rw [← h.1]
    exact granted_pos want hd

/-! ## Moving bytes from a file to stdout inside the kernel -/

structure Copy where
  content : Bytes
  pos : Nat
  out : Bytes
  calls : Nat

/-- `copy_file_range`, or `splice` from a file to a pipe on stdout. -/
def Copy.move (answers : Schedule) (t : Copy) (count : Nat) : Expected × Copy :=
  match answers t.calls with
  | .error text => (.error text, { t with calls := t.calls + 1 })
  | .ok want =>
    let n := granted want (min count (t.content.length - t.pos))
    (.ok n, { t with pos := t.pos + n, out := t.out ++ (t.content.drop t.pos).take n
                     calls := t.calls + 1 })

/-- The capacity of a pipe, as `F_SETPIPE_SZ` reports it. -/
structure PipeSize where
  val : UInt64
  pos : 0 < val

theorem Copy.move_error {answers : Schedule} {t : Copy} {text : String} (count : Nat)
    (h : answers t.calls = .error text) :
    t.move answers count = (.error text, { t with calls := t.calls + 1 }) := by
  rw [Copy.move, h]

theorem Copy.move_ok {answers : Schedule} {t : Copy} {want : Nat} (count : Nat)
    (h : answers t.calls = .ok want) :
    t.move answers count =
      (.ok (granted want (min count (t.content.length - t.pos))),
        { t with pos := t.pos + granted want (min count (t.content.length - t.pos))
                 out := t.out ++
                   (t.content.drop t.pos).take (granted want (min count (t.content.length - t.pos)))
                 calls := t.calls + 1 }) := by
  rw [Copy.move, h]

end Omnipp
