import Omnipp.Kernel
import Omnipp.Lib.Loop

/-! # `sink::Write` -/

namespace Omnipp.Sink

structure Writing where
  amount : Nat
  out : Stdout

/-- The loop of `WriteNode::operator()`, under the mutex. -/
def writeLoop (data : Bytes) : Loop Writing (Expected × Stdout) where
  body w :=
    if w.amount < data.length then
      match w.out.write (data.drop w.amount) with
      | (.error text, o) =>
        .leave (.error s!"failed to write: [{w.amount}/{data.length} bytes] {text}", o)
      | (.ok n, o) => .again ⟨w.amount + n, o⟩
    else .leave (.ok w.amount, w.out)
  rank w := data.length - w.amount
  falls := by
    intro w v h
    split at h
    · rename_i hlt
      split at h
      · cases h
      · rename_i n o hw
        cases h
        have := Stdout.write_pos hw (by rw [List.length_drop]; omega)
        simp only
        omega
    · cases h

/-- `WriteNode::operator()`. The result of the newline's `write` is not looked at. -/
def write (forceNewline : Bool) : Stage Bytes Stdout := fun data o =>
  andThen ((writeLoop data).run ⟨0, o⟩) fun amount o =>
    if forceNewline then (.ok (amount + 1), (o.write [newline]).2) else (.ok amount, o)

/-! ## What it writes -/

/-- A relation between the calls that were made and the bytes of `n` that are written, which every
call keeps. -/
structure Follows (writes : Schedule) (c n : Nat) (At : Nat → Nat → Prop) : Prop where
  start : At c 0
  step : ∀ i amount want, At i amount → amount < n → writes i = .ok want →
    At (i + 1) (amount + granted want (n - amount))

theorem follows_true (writes : Schedule) (c n : Nat) : Follows writes c n fun _ _ => True :=
  ⟨trivial, fun _ _ _ _ _ _ => trivial⟩

def WriteInv (data : Bytes) (o : Stdout) (At : Nat → Nat → Prop) (w : Writing) : Prop :=
  w.amount ≤ data.length ∧ w.out.bytes = o.bytes ++ data.take w.amount ∧
    w.out.writes = o.writes ∧ o.calls ≤ w.out.calls ∧ Clean o.writes o.calls w.out.calls ∧
    At w.out.calls w.amount

/-- All of the data is on stdout and no call failed, or the last call did and stdout has a proper
prefix of the data. -/
def WritePost (data : Bytes) (o : Stdout) (At : Nat → Nat → Prop) (r : Expected × Stdout) : Prop :=
  r.2.writes = o.writes ∧ o.calls ≤ r.2.calls ∧
  match r.1 with
  | .ok n => n = data.length ∧ r.2.bytes = o.bytes ++ data ∧ Clean o.writes o.calls r.2.calls ∧
      At r.2.calls data.length
  | .error _ => ∃ k < data.length, r.2.bytes = o.bytes ++ data.take k ∧
      ∃ i, r.2.calls = i + 1 ∧ Clean o.writes o.calls i ∧ Fails (o.writes i) ∧ At i k

theorem write_loop_spec (data : Bytes) (o : Stdout) {At : Nat → Nat → Prop}
    (hat : Follows o.writes o.calls data.length At) :
    WritePost data o At ((writeLoop data).run ⟨0, o⟩) := by
  apply Loop.run_spec (WriteInv data o At)
  · rintro ⟨amount, out⟩ w ⟨hle, hbytes, hw, hc, hclean, hheld⟩ hb
    simp only [writeLoop] at hb hle hbytes hw hc hclean hheld
    split at hb
    · rename_i hlt
      cases hs : out.writes out.calls with
      | error text => simp [Stdout.write_error _ hs] at hb
      | ok want =>
        simp only [Stdout.write_ok _ hs, Pass.again.injEq] at hb
        subst hb
        have hg := granted_le want (data.drop amount).length
        rw [List.length_drop] at hg
        refine ⟨by simp only [List.length_drop]; omega, ?_, hw, by simp only; omega,
          hclean.succ (hw ▸ hs), ?_⟩
        · simp only [hbytes, List.append_assoc, List.take_add]
        · simp only [List.length_drop]
          exact hat.step _ _ _ hheld hlt (hw ▸ hs)
    · cases hb
  · rintro ⟨amount, out⟩ r ⟨hle, hbytes, hw, hc, hclean, hheld⟩ hb
    simp only [writeLoop] at hb hle hbytes hw hc hclean hheld
    split at hb
    · cases hs : out.writes out.calls with
      | error text =>
        simp only [Stdout.write_error _ hs, Pass.leave.injEq] at hb
        subst hb
        exact ⟨hw, by simp only; omega, amount, by assumption, hbytes, out.calls, rfl, hclean,
          ⟨text, hw ▸ hs⟩, hheld⟩
      | ok want => simp [Stdout.write_ok _ hs] at hb
    · cases hb
      have : amount = data.length := by omega
      subst this
      exact ⟨hw, hc, rfl, by simpa using hbytes, hclean, hheld⟩
  · exact ⟨by simp, by simp, rfl, by simp, clean_self _ _, hat.start⟩

theorem write_spec (data : Bytes) (o : Stdout) {At : Nat → Nat → Prop}
    (hat : Follows o.writes o.calls data.length At) :
    WritePost data o At (write false data o) := by
  have h : write false data o = (writeLoop data).run ⟨0, o⟩ := by simp [write]
  rw [h]
  exact write_loop_spec data o hat

/-! ## Writes that do not fail -/

theorem write_whole (data : Bytes) {o : Stdout} (hok : ∀ i, ¬ Fails (o.writes i)) :
    ∃ o', write false data o = (.ok data.length, o') ∧ o'.bytes = o.bytes ++ data ∧
      o'.writes = o.writes := by
  have hspec := write_spec data o (follows_true o.writes o.calls data.length)
  rcases hw : write false data o with ⟨e | n, o'⟩
  · rw [hw] at hspec
    obtain ⟨-, -, -, -, -, i, -, -, hf, -⟩ := hspec
    exact absurd hf (hok i)
  · rw [hw] at hspec
    obtain ⟨hwrites, -, rfl, hbytes, -, -⟩ := hspec
    exact ⟨o', rfl, hbytes, hwrites⟩

theorem feed_write (blocks : List Bytes) {o : Stdout} (hok : ∀ i, ¬ Fails (o.writes i)) :
    ∃ o', feed (write false) blocks o = (.ok blocks.flatten.length, o') ∧
      o'.bytes = o.bytes ++ blocks.flatten := by
  induction blocks generalizing o with
  | nil => exact ⟨o, rfl, by simp⟩
  | cons block blocks ih =>
    obtain ⟨o1, hfirst, hbytes, hwrites⟩ := write_whole block hok
    obtain ⟨o2, hrest, hbytes'⟩ := ih (o := o1) (by rw [hwrites]; exact hok)
    refine ⟨o2, ?_, ?_⟩
    · rw [feed, hfirst, andThen_ok, hrest, andThen_ok, List.flatten_cons, List.length_append]
    · rw [hbytes', hbytes, List.flatten_cons, List.append_assoc]

/-! ## What it reports

The loop looks at every result, and the newline's `write` is the call behind those of the loop.
-/

/-- The calls from `c` on take `n` bytes, the last one is the one before `i`, and none fails. -/
inductive Takes (writes : Schedule) : Nat → Nat → Nat → Prop
  | none (c : Nat) : Takes writes c 0 c
  | some {c n i want : Nat} (hn : 0 < n) (hc : writes c = .ok want)
      (h : Takes writes (c + 1) (n - granted want n) i) : Takes writes c n i

theorem Takes.first {writes : Schedule} {c n i : Nat} (h : Takes writes c n i) (hn : 0 < n) :
    ∃ want, writes c = .ok want ∧ Takes writes (c + 1) (n - granted want n) i := by
  cases h with
  | none => omega
  | some _ hc h => exact ⟨_, hc, h⟩

theorem Takes.unique {writes : Schedule} {c n i j : Nat} (h : Takes writes c n i)
    (h' : Takes writes c n j) : j = i := by
  induction h with
  | none c =>
    cases h' with
    | none => rfl
    | some hn => omega
  | some hn hc _ ih =>
    obtain ⟨want, hc', hrest⟩ := h'.first hn
    rw [hc, Except.ok.injEq] at hc'
    subst hc'
    exact ih hrest

/-- The loop gets through exactly when the calls take all of the data. -/
def TakesPost (writes : Schedule) (c n : Nat) (r : Expected × Stdout) : Prop :=
  match r.1 with
  | .ok _ => Takes writes c n r.2.calls
  | .error _ => ∀ i, ¬ Takes writes c n i

theorem write_loop_takes (data : Bytes) (w : Writing) (h : w.amount ≤ data.length) :
    TakesPost w.out.writes w.out.calls (data.length - w.amount) ((writeLoop data).run w) := by
  induction w using Loop.run.induct (writeLoop data) with
  | case1 w r hb =>
    rw [Loop.run_leave _ hb]
    simp only [writeLoop] at hb
    split at hb
    · rename_i hlt
      cases hs : w.out.writes w.out.calls with
      | error text =>
        simp only [Stdout.write_error _ hs, Pass.leave.injEq] at hb
        subst hb
        intro i hi
        obtain ⟨want, hc, -⟩ := hi.first (by omega)
        simp [hs] at hc
      | ok want => simp [Stdout.write_ok _ hs] at hb
    · cases hb
      rw [Nat.sub_eq_zero_of_le (by omega)]
      exact .none _
  | case2 w v hb ih =>
    rw [Loop.run_again _ hb]
    simp only [writeLoop] at hb
    split at hb
    · rename_i hlt
      cases hs : w.out.writes w.out.calls with
      | error text => simp [Stdout.write_error _ hs] at hb
      | ok want =>
        simp only [Stdout.write_ok _ hs, Pass.again.injEq, List.length_drop] at hb
        subst hb
        have hg := granted_le want (data.length - w.amount)
        have hpost := ih (by simp only; omega)
        simp only [← Nat.sub_sub] at hpost
        unfold TakesPost at hpost ⊢
        split at hpost
        · exact .some (by omega) hs hpost
        · intro i hi
          obtain ⟨want', hc, hrest⟩ := hi.first (by omega)
          rw [hs, Except.ok.injEq] at hc
          subst hc
          exact hpost i hrest
    · cases hb

/-- All of `data`, and a newline when one is asked for. -/
def wanted (forceNewline : Bool) (data : Bytes) : Bytes :=
  data ++ if forceNewline then [newline] else []

/-- A value is the number of bytes that stdout got, all that were wanted. With an error, it got
fewer. -/
def Reports (forceNewline : Bool) (data : Bytes) (o : Stdout) : Prop :=
  let r := write forceNewline data o
  ∃ got, r.2.bytes = o.bytes ++ got ∧
    match r.1 with
    | .ok n => got = wanted forceNewline data ∧ n = got.length
    | .error _ => got <+: wanted forceNewline data ∧ got ≠ wanted forceNewline data

theorem reports_error {forceNewline : Bool} {data : Bytes} {o : Stdout} {e : String} {o' : Stdout}
    (h : (writeLoop data).run ⟨0, o⟩ = (.error e, o')) : Reports forceNewline data o := by
  have hspec := write_loop_spec data o (follows_true o.writes o.calls data.length)
  rw [h] at hspec
  obtain ⟨-, -, k, hk, hbytes, -⟩ := hspec
  have hr : write forceNewline data o = (.error e, o') := by rw [write, h, andThen_error]
  unfold Reports
  rw [hr]
  refine ⟨data.take k, hbytes, ?_, ?_⟩
  · exact (List.take_prefix k data).trans (List.prefix_append data _)
  · intro heq
    have := congrArg List.length heq
    simp only [wanted, List.length_append, List.length_take] at this
    omega

/-- The loop got through, and the newline's `write` is the next call. -/
theorem reports_ok {forceNewline : Bool} {data : Bytes} {o o' : Stdout} {n : Nat}
    (h : (writeLoop data).run ⟨0, o⟩ = (.ok n, o')) :
    Reports forceNewline data o ↔ (forceNewline = true → ¬ Fails (o.writes o'.calls)) := by
  have hspec := write_loop_spec data o (follows_true o.writes o.calls data.length)
  rw [h] at hspec
  obtain ⟨hw, -, rfl, hbytes, -⟩ := hspec
  simp only at hw hbytes
  unfold Reports
  rw [write, h, andThen_ok]
  cases forceNewline with
  | false => simp [wanted, hbytes]
  | true =>
    cases hs : o.writes o'.calls with
    | error text =>
      have hs' : o'.writes o'.calls = .error text := hw ▸ hs
      simp [Stdout.write_error _ hs', hbytes, wanted, Fails]
    | ok want =>
      have hs' : o'.writes o'.calls = .ok want := hw ▸ hs
      have hone : granted want 1 = 1 := by
        unfold granted
        omega
      simp [Stdout.write_ok _ hs', hone, hbytes, wanted, Fails]

/-- The node reports what it wrote exactly when the newline's `write`, if there is one, does not
fail. -/
theorem write_reports_iff (forceNewline : Bool) (data : Bytes) (o : Stdout) :
    Reports forceNewline data o ↔
      (forceNewline = true → ∀ i, Takes o.writes o.calls data.length i → ¬ Fails (o.writes i)) := by
  have htakes := write_loop_takes data ⟨0, o⟩ (Nat.zero_le _)
  rcases h : (writeLoop data).run ⟨0, o⟩ with ⟨e | n, o'⟩
  · rw [h] at htakes
    exact ⟨fun _ _ i hi => absurd hi (htakes i), fun _ => reports_error h⟩
  · rw [h] at htakes
    rw [reports_ok h]
    constructor
    · intro hok hf i hi
      rw [Takes.unique htakes hi]
      exact hok hf
    · intro hok hf
      exact hok hf _ htakes

/-- The data goes out whole, the newline's `write` fails, and the node returns one byte more than
stdout got. -/
theorem write_reports_lost_newline :
    let o : Stdout := { bytes := [], writes := fun i => if i = 0 then .ok 1 else .error "EIO" }
    (write true [97] o).1 = .ok 2 ∧ (write true [97] o).2.bytes = [97] ∧ ¬ Reports true [97] o := by
  intro o
  have hloop : (writeLoop [97]).run ⟨0, o⟩ = (.ok 1, ⟨[97], o.writes, 1⟩) := by
    rw [Loop.run_again _ (t := ⟨1, [97], o.writes, 1⟩) rfl]
    exact Loop.run_leave _ rfl
  refine ⟨by rw [write, hloop]; rfl, by rw [write, hloop]; rfl, fun h => ?_⟩
  exact (reports_ok hloop).mp h rfl ⟨"EIO", rfl⟩

end Omnipp.Sink
