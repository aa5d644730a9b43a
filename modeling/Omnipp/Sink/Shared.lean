import Omnipp.Lib.Threads
import Omnipp.Sink.Write

/-! # `sink::Write` under its mutex

Workers that share stdout and the mutex of `sink::Write`. A step is one pass of the write
loop, or taking or giving back the mutex around it.
-/

open Omnipp.Threads

namespace Omnipp.Sink

variable {ι : Type}

/-- The mutex, stdout, and who wrote which byte of it. -/
structure Shared (ι : Type) where
  owner : Option ι
  out : Stdout
  log : List (ι × Byte)

/-- Where a worker stands. `todo` are the payloads it will still call the sink with. -/
inductive Pc where
  | idle (todo : List Bytes)
  | writing (data : Bytes) (amount : Nat) (todo : List Bytes)
  | failed (error : String) (todo : List Bytes)

/-- The bytes of a payload, as its worker writes them. -/
def spread (x : ι × Bytes) : List (ι × Byte) := x.2.map fun b => (x.1, b)

inductive Moves (i : ι) : Shared ι → Pc → Shared ι → Pc → Prop
  | lock {sh : Shared ι} {data : Bytes} {todo : List Bytes} (h : sh.owner = none) :
      Moves i sh (.idle (data :: todo)) { sh with owner := some i } (.writing data 0 todo)
  | pass {sh : Shared ι} {data : Bytes} {amount : Nat} {todo : List Bytes} {w : Writing}
      (h : (writeLoop data).body ⟨amount, sh.out⟩ = .again w) :
      Moves i sh (.writing data amount todo)
        ⟨sh.owner, w.out, sh.log ++ spread (i, (data.drop amount).take (w.amount - amount))⟩
        (.writing data w.amount todo)
  | done {sh : Shared ι} {data : Bytes} {amount n : Nat} {todo : List Bytes} {o : Stdout}
      (h : (writeLoop data).body ⟨amount, sh.out⟩ = .leave (.ok n, o)) :
      Moves i sh (.writing data amount todo) ⟨none, o, sh.log⟩ (.idle todo)
  | fail {sh : Shared ι} {data : Bytes} {amount : Nat} {e : String} {todo : List Bytes} {o : Stdout}
      (h : (writeLoop data).body ⟨amount, sh.out⟩ = .leave (.error e, o)) :
      Moves i sh (.writing data amount todo) ⟨none, o, sh.log⟩ (.failed e todo)

/-- Every worker is about to make its calls. `wants` are the results of `write`, none of which
is -1. -/
def start (wants : Nat → Nat) (calls : ι → List Bytes) : Config ι (Shared ι) Pc :=
  ⟨⟨none, { bytes := [], writes := fun k => .ok (wants k) }, []⟩, fun i => .idle (calls i)⟩

def Finished (c : Config ι (Shared ι) Pc) : Prop := ∀ i, c.pc i = .idle []

def Pc.Writing : Pc → Prop
  | .writing _ _ _ => True
  | _ => False

/-- The payloads that are not written yet, or not in full. -/
def Pc.left : Pc → List Bytes
  | .idle todo => todo
  | .writing data _ todo => data :: todo
  | .failed _ todo => todo

/-- The payloads of worker `i`. -/
def of [DecidableEq ι] {α : Type} (i : ι) (xs : List (ι × α)) : List α :=
  (xs.filter fun x => x.1 = i).map Prod.snd

/-! ## One pass of the loop -/

section Pass
variable {data : Bytes} {amount : Nat} {out : Stdout}

theorem pass_again {w : Writing} (h : (writeLoop data).body ⟨amount, out⟩ = .again w) :
    ∃ n, 0 < n ∧ amount + n ≤ data.length ∧ w.amount = amount + n ∧ w.out.writes = out.writes ∧
      w.out.bytes = out.bytes ++ (data.drop amount).take n := by
  simp only [writeLoop] at h
  split at h
  · cases hs : out.writes out.calls with
    | error text => simp [Stdout.write_error _ hs] at h
    | ok want =>
      simp only [Stdout.write_ok _ hs, Pass.again.injEq] at h
      have hle := granted_le want (data.drop amount).length
      have hlen : 0 < (data.drop amount).length := by
        rw [List.length_drop]
        omega
      have hpos := granted_pos want hlen
      rw [List.length_drop] at hle
      subst h
      exact ⟨_, hpos, by simp only [List.length_drop] at *; omega, rfl, rfl, rfl⟩
  · cases h

theorem pass_not_fails {w : Writing} (h : (writeLoop data).body ⟨amount, out⟩ = .again w) :
    ¬ Fails (out.writes out.calls) := by
  rintro ⟨text, ht⟩
  simp only [writeLoop, Stdout.write_error _ ht] at h
  split at h <;> cases h

theorem pass_done {n : Nat} {o : Stdout} (h : (writeLoop data).body ⟨amount, out⟩ = .leave (.ok n, o)) :
    n = amount ∧ o = out ∧ data.length ≤ amount := by
  simp only [writeLoop] at h
  split at h
  · cases hs : out.writes out.calls with
    | error text => simp [Stdout.write_error _ hs] at h
    | ok want => simp [Stdout.write_ok _ hs] at h
  · rename_i hle
    simp only [Pass.leave.injEq, Prod.mk.injEq, Except.ok.injEq] at h
    exact ⟨h.1.symm, h.2.symm, by omega⟩

theorem pass_failed {e : String} {o : Stdout}
    (h : (writeLoop data).body ⟨amount, out⟩ = .leave (.error e, o)) :
    amount < data.length ∧ Fails (out.writes out.calls) ∧ o.bytes = out.bytes := by
  simp only [writeLoop] at h
  split at h
  · rename_i hlt
    cases hs : out.writes out.calls with
    | error text =>
      simp only [Stdout.write_error _ hs, Pass.leave.injEq, Prod.mk.injEq] at h
      exact ⟨hlt, ⟨text, rfl⟩, by rw [← h.2]⟩
    | ok want => simp [Stdout.write_ok _ hs] at h
  · simp at h

theorem pass_leave {res : Expected} {o : Stdout} (hok : ∀ k, ¬ Fails (out.writes k))
    (h : (writeLoop data).body ⟨amount, out⟩ = .leave (res, o)) :
    res = .ok amount ∧ o = out ∧ data.length ≤ amount := by
  cases res with
  | error e =>
    obtain ⟨-, hfails, -⟩ := pass_failed h
    exact absurd hfails (hok out.calls)
  | ok n =>
    obtain ⟨rfl, ho, hle⟩ := pass_done h
    exact ⟨rfl, ho, hle⟩

theorem pass_enabled (hok : ∀ k, ¬ Fails (out.writes k)) (h : amount < data.length) :
    ∃ w, (writeLoop data).body ⟨amount, out⟩ = .again w := by
  cases hb : (writeLoop data).body ⟨amount, out⟩ with
  | again w => exact ⟨w, rfl⟩
  | leave r =>
    obtain ⟨-, -, hle⟩ := pass_leave hok hb
    omega

theorem pass_disabled (h : data.length ≤ amount) :
    (writeLoop data).body ⟨amount, out⟩ = .leave (.ok amount, out) := by
  simp only [writeLoop]
  exact if_neg (by omega)

end Pass

/-! ## What every run writes -/

section Run
variable [DecidableEq ι]

theorem of_append {α : Type} (i : ι) (xs ys : List (ι × α)) : of i (xs ++ ys) = of i xs ++ of i ys := by
  simp [of]

theorem of_map_self (i : ι) {α : Type} (xs : List α) : of i (xs.map fun x => (i, x)) = xs := by
  simp [of, List.filter_map, Function.comp_def]

theorem of_map_of_ne {i j : ι} (h : i ≠ j) {α : Type} (xs : List α) :
    of j (xs.map fun x => (i, x)) = [] := by
  simp [of, List.filter_map, Function.comp_def, h]

omit [DecidableEq ι] in
theorem spread_append (i : ι) (xs ys : Bytes) : spread (i, xs ++ ys) = spread (i, xs) ++ spread (i, ys) :=
  List.map_append

/-- The payloads `done` are on stdout one after the other, and behind them what the worker at the
mutex has written of its own. -/
structure Wrote (calls : ι → List Bytes) (done : List (ι × Bytes)) (c : Config ι (Shared ι) Pc) :
    Prop where
  mutex : Exclusive Shared.owner Pc.Writing c
  bytes : c.shared.log.map Prod.snd = c.shared.out.bytes
  kernel : ∀ k, ¬ Fails (c.shared.out.writes k)
  split : ∀ i, of i done ++ (c.pc i).left = calls i
  sound : ∀ i e todo, c.pc i ≠ .failed e todo
  free : c.shared.owner = none → c.shared.log = done.flatMap spread
  busy : ∀ i data amount todo, c.pc i = .writing data amount todo →
    amount ≤ data.length ∧ c.shared.log = done.flatMap spread ++ spread (i, data.take amount)

theorem wrote_start (wants : Nat → Nat) (calls : ι → List Bytes) : Wrote calls [] (start wants calls) where
  mutex i := by simp [start, Pc.Writing]
  bytes := rfl
  kernel k := ok_not_fails (wants k)
  split i := rfl
  sound i e todo h := by cases h
  free _ := rfl
  busy i data amount todo h := by cases h

variable {calls : ι → List Bytes} {done : List (ι × Bytes)} {c : Config ι (Shared ι) Pc}

/-- Worker `i` moves, and the payloads `new` of it are done. -/
theorem Wrote.split_move (h : Wrote calls done c) {i : ι} {k : Pc} (sh : Shared ι) (new : List Bytes)
    (hk : new ++ k.left = (c.pc i).left) (j : ι) :
    of j (done ++ new.map fun data => (i, data)) ++ ((c.move i sh k).pc j).left = calls j := by
  rw [of_append, List.append_assoc, ← h.split j]
  by_cases hj : j = i
  · subst hj
    rw [of_map_self, move_pc_self, hk]
  · rw [of_map_of_ne (Ne.symm hj), move_pc_of_ne c sh k hj, List.nil_append]

theorem Wrote.sound_move (h : Wrote calls done c) {i : ι} {k : Pc} (sh : Shared ι)
    (hk : ∀ e todo, k ≠ .failed e todo) : ∀ j e todo, (c.move i sh k).pc j ≠ .failed e todo :=
  forall_move c (P := fun _ p => ∀ e todo, p ≠ .failed e todo) hk fun j _ => h.sound j

theorem Wrote.lock (h : Wrote calls done c) {i : ι} {data : Bytes} {todo : List Bytes}
    (hp : c.pc i = .idle (data :: todo)) (hfree : c.shared.owner = none) :
    Wrote calls done (c.move i { c.shared with owner := some i } (.writing data 0 todo)) where
  mutex := h.mutex.move (.inr (.inl ⟨hfree, rfl, trivial⟩))
  bytes := h.bytes
  kernel := h.kernel
  split j := by simpa using h.split_move { c.shared with owner := some i } [] (by rw [hp]; rfl) j
  sound := h.sound_move _ nofun
  free ho := by cases ho
  busy j data' amount todo' hj := by
    rw [move_pc] at hj
    split at hj
    · cases hj
      exact ⟨Nat.zero_le _, by simpa [spread] using h.free hfree⟩
    · have := (h.mutex j).mp (by rw [hj]; trivial)
      rw [hfree] at this
      cases this

theorem Wrote.alone (h : Wrote calls done c) {i j : ι} {data data' : Bytes} {amount amount' : Nat}
    {todo todo' : List Bytes} (hi : c.pc i = .writing data amount todo)
    (hj : c.pc j = .writing data' amount' todo') : i = j :=
  h.mutex.unique (by rw [hi]; trivial) (by rw [hj]; trivial)

theorem Wrote.pass (h : Wrote calls done c) {i : ι} {data : Bytes} {amount : Nat} {todo : List Bytes}
    (hp : c.pc i = .writing data amount todo) {w : Writing}
    (hb : (writeLoop data).body ⟨amount, c.shared.out⟩ = .again w) :
    Wrote calls done (c.move i ⟨c.shared.owner, w.out,
      c.shared.log ++ spread (i, (data.drop amount).take (w.amount - amount))⟩
      (.writing data w.amount todo)) := by
  obtain ⟨n, hpos, hle, hamount, hwrites, hbytes⟩ := pass_again hb
  obtain ⟨-, hlog⟩ := h.busy i data amount todo hp
  have hn : w.amount - amount = n := by omega
  refine ⟨?_, ?_, ?_, ?_, ?_, ?_, ?_⟩
  · exact h.mutex.move (.inl ⟨rfl, by rw [hp]; rfl⟩)
  · simp [hn, hbytes, h.bytes, spread, Function.comp_def]
  · intro k
    rw [move_shared, hwrites]
    exact h.kernel k
  · intro j
    simpa using h.split_move _ [] (by rw [hp]; rfl) j
  · exact h.sound_move _ nofun
  · intro ho
    have := (h.mutex i).mp (by rw [hp]; trivial)
    rw [move_shared] at ho
    rw [ho] at this
    cases this
  · intro j data' amount' todo' hj
    rw [move_pc] at hj
    split at hj
    · rename_i hji
      cases hj
      refine ⟨by omega, ?_⟩
      rw [move_shared, hji, hn, hlog, List.append_assoc, ← spread_append, hamount, List.take_add]
    · rename_i hji
      exact absurd (h.alone hj hp) hji

theorem Wrote.unlock (h : Wrote calls done c) {i : ι} {data : Bytes} {amount : Nat}
    {todo : List Bytes} (hp : c.pc i = .writing data amount todo) (hle : data.length ≤ amount) :
    Wrote calls (done ++ [(i, data)])
      (c.move i ⟨none, c.shared.out, c.shared.log⟩ (.idle todo)) := by
  obtain ⟨hamount, hlog⟩ := h.busy i data amount todo hp
  have howner := (h.mutex i).mp (by rw [hp]; trivial)
  refine ⟨?_, h.bytes, h.kernel, ?_, ?_, ?_, ?_⟩
  · exact h.mutex.move (.inr (.inr ⟨howner, rfl, fun hw => hw⟩))
  · exact h.split_move _ [data] (by rw [hp]; rfl)
  · exact h.sound_move _ nofun
  · intro _
    rw [move_shared, List.flatMap_append, List.flatMap_singleton, hlog, List.take_of_length_le hle]
  · intro j data' amount' todo' hj
    rw [move_pc] at hj
    split at hj
    · cases hj
    · rename_i hji
      exact absurd (h.alone hj hp) hji

theorem wrote_step (h : Wrote calls done c) {i : ι} {sh : Shared ι} {k : Pc}
    (hm : Moves i c.shared (c.pc i) sh k) : ∃ done', Wrote calls done' (c.move i sh k) := by
  generalize hp : c.pc i = p at hm
  cases hm with
  | lock hfree => exact ⟨done, h.lock hp hfree⟩
  | pass hb => exact ⟨done, h.pass hp hb⟩
  | done hb =>
    obtain ⟨-, rfl, hle⟩ := pass_leave h.kernel hb
    exact ⟨_, h.unlock hp hle⟩
  | fail hb =>
    obtain ⟨hres, -, -⟩ := pass_leave h.kernel hb
    cases hres

theorem wrote_run {wants : Nat → Nat} (h : Reaches Moves (start wants calls) c) :
    ∃ done, Wrote calls done c := by
  refine h.invariant (fun c => ∃ done, Wrote calls done c) ?_ ⟨[], wrote_start wants calls⟩
  rintro c i sh k ⟨done, hw⟩ - hm
  exact wrote_step hw hm

/-! ## Every order of payloads is the order of some run -/

/-- Worker `i` has called its sink with `data`, and nobody else has moved. -/
structure Called (i : ι) (data : Bytes) (todo : List Bytes) (c d : Config ι (Shared ι) Pc) : Prop where
  run : Reaches Moves c d
  free : d.shared.owner = none
  log : d.shared.log = c.shared.log ++ spread (i, data)
  kernel : ∀ k, ¬ Fails (d.shared.out.writes k)
  mine : d.pc i = .idle todo
  others : ∀ j, j ≠ i → d.pc j = c.pc j

theorem Called.head {i : ι} {p k : Pc} {sh : Shared ι} {ys : Bytes} {todo : List Bytes}
    {c d : Config ι (Shared ι) Pc} (xs : Bytes) (h : Called i ys todo (c.move i sh k) d) (hp : c.pc i = p)
    (hm : Moves i c.shared p sh k) (hlog : sh.log = c.shared.log ++ spread (i, xs)) :
    Called i (xs ++ ys) todo c d where
  run := (Reaches.step i .refl (hp ▸ hm)).trans h.run
  free := h.free
  log := by rw [h.log, move_shared, hlog, List.append_assoc, ← spread_append]
  kernel := h.kernel
  mine := h.mine
  others j hj := (h.others j hj).trans (move_pc_of_ne c _ _ hj)

theorem call_rest {i : ι} {data : Bytes} {todo : List Bytes} (amount : Nat)
    (c : Config ι (Shared ι) Pc) (hok : ∀ k, ¬ Fails (c.shared.out.writes k))
    (hp : c.pc i = .writing data amount todo) : ∃ d, Called i (data.drop amount) todo c d := by
  by_cases hlt : amount < data.length
  · obtain ⟨w, hb⟩ := pass_enabled hok hlt
    obtain ⟨n, hpos, hle, hamount, hwrites, -⟩ := pass_again hb
    let sh : Shared ι :=
      ⟨c.shared.owner, w.out, c.shared.log ++ spread (i, (data.drop amount).take (w.amount - amount))⟩
    obtain ⟨d, hd⟩ := call_rest w.amount (c.move i sh (.writing data w.amount todo))
      (by simp only [move_shared, sh, hwrites]; exact hok) (move_pc_self ..)
    have hall := hd.head _ hp (.pass hb) rfl
    rw [show w.amount = amount + (w.amount - amount) by omega, ← List.drop_drop,
      Nat.add_sub_cancel_left, List.take_append_drop] at hall
    exact ⟨d, hall⟩
  · have hm : Moves i c.shared (.writing data amount todo) ⟨none, c.shared.out, c.shared.log⟩
      (.idle todo) := .done (pass_disabled (by omega))
    refine ⟨c.move i ⟨none, c.shared.out, c.shared.log⟩ (.idle todo), Reaches.step i .refl (hp ▸ hm),
      rfl, ?_, hok, move_pc_self .., fun j hj => move_pc_of_ne c _ _ hj⟩
    rw [move_shared, List.drop_of_length_le (by omega)]
    simp [spread]
termination_by data.length - amount

theorem call_sink {i : ι} {data : Bytes} {todo : List Bytes} (c : Config ι (Shared ι) Pc)
    (hfree : c.shared.owner = none) (hok : ∀ k, ¬ Fails (c.shared.out.writes k))
    (hp : c.pc i = .idle (data :: todo)) : ∃ d, Called i data todo c d := by
  obtain ⟨d, hd⟩ := call_rest 0 (c.move i { c.shared with owner := some i } (.writing data 0 todo))
    hok (move_pc_self ..)
  exact ⟨d, hd.head [] hp (.lock hfree) (by simp [spread])⟩

theorem of_cons {α : Type} (i j : ι) (x : α) (xs : List (ι × α)) :
    of j ((i, x) :: xs) = if i = j then x :: of j xs else of j xs := by
  by_cases h : i = j <;> simp [of, h]

/-- Any list of payloads that holds the calls of every worker in their order is what some run
writes. -/
theorem run_in_order (order : List (ι × Bytes)) (c : Config ι (Shared ι) Pc)
    (hfree : c.shared.owner = none) (hok : ∀ k, ¬ Fails (c.shared.out.writes k))
    (hpc : ∀ i, c.pc i = .idle (of i order)) :
    ∃ d, Reaches Moves c d ∧ Finished d ∧ d.shared.log = c.shared.log ++ order.flatMap spread := by
  induction order generalizing c with
  | nil => exact ⟨c, .refl, hpc, by simp⟩
  | cons x order ih =>
    obtain ⟨i, data⟩ := x
    obtain ⟨d, hd⟩ := call_sink c hfree hok (by rw [hpc i, of_cons, if_pos rfl])
    obtain ⟨e, hrun, hfin, hlog⟩ := ih d hd.free hd.kernel (by
      intro j
      by_cases hj : j = i
      · rw [hj, hd.mine]
      · rw [hd.others j hj, hpc j, of_cons, if_neg (Ne.symm hj)])
    exact ⟨e, hd.run.trans hrun, hfin, by rw [hlog, hd.log, List.flatMap_cons, List.append_assoc]⟩

theorem start_in_order (wants : Nat → Nat) {calls : ι → List Bytes} (order : List (ι × Bytes))
    (h : ∀ i, of i order = calls i) :
    ∃ c, Reaches Moves (start wants calls) c ∧ Finished c ∧ c.shared.log = order.flatMap spread := by
  obtain ⟨c, hrun, hfin, hlog⟩ := run_in_order order (start wants calls) rfl
    (fun k => ok_not_fails (wants k)) fun i => by rw [h]; rfl
  exact ⟨c, hrun, hfin, by simpa [start] using hlog⟩

end Run

/-! ## When `write` may fail -/

/-- The call of the sink is over. -/
def Pc.Returned : Pc → Prop
  | .idle [] | .failed _ _ => True
  | _ => False

/-- What is written and what the calls of the sink still have to write is all that was pushed. A call
that failed has lost something. -/
def Owed (written pushed : Bytes) : Pc → Prop
  | .idle todo => written ++ todo.flatten = pushed
  | .writing data amount todo => written ++ (data.drop amount ++ todo.flatten) = pushed
  | .failed _ todo => ∃ lost, lost ≠ [] ∧ written ++ (lost ++ todo.flatten) = pushed

section MayFail
variable {i : ι} {sh sh' : Shared ι} {k k' : Pc}

theorem not_moves_of_returned (h : k.Returned) : ¬ Moves i sh k sh' k' := by
  intro hm
  cases hm <;> exact h

theorem moves_log (h : Moves i sh k sh' k') :
    ∃ xs, sh'.log = sh.log ++ spread (i, xs) ∧ sh'.out.bytes = sh.out.bytes ++ xs := by
  cases h with
  | lock _ => exact ⟨[], by simp [spread]⟩
  | pass hb =>
    obtain ⟨n, -, -, hamount, -, hbytes⟩ := pass_again hb
    refine ⟨_, rfl, ?_⟩
    rw [hbytes, hamount, Nat.add_sub_cancel_left]
  | done hb =>
    obtain ⟨-, rfl, -⟩ := pass_done hb
    exact ⟨[], by simp [spread]⟩
  | fail hb =>
    obtain ⟨-, -, hbytes⟩ := pass_failed hb
    exact ⟨[], by simp [spread, hbytes]⟩

variable [DecidableEq ι]

theorem of_spread (i : ι) (xs : Bytes) : of i (spread (i, xs)) = xs := of_map_self i xs

theorem owed_step {pushed : Bytes} (h : Moves i sh k sh' k') (ho : Owed (of i sh.log) pushed k) :
    Owed (of i sh'.log) pushed k' := by
  cases h with
  | lock _ => simpa [Owed] using ho
  | @pass data amount todo w hb =>
    obtain ⟨n, -, -, hamount, -, -⟩ := pass_again hb
    have hdrop : (data.drop amount).take n ++ data.drop (amount + n) = data.drop amount := by
      rw [← List.drop_drop, List.take_append_drop]
    simp only [Owed, of_append, of_spread, hamount, Nat.add_sub_cancel_left] at ho ⊢
    rw [List.append_assoc, ← List.append_assoc (List.take n _), hdrop]
    exact ho
  | done hb =>
    obtain ⟨-, rfl, hle⟩ := pass_done hb
    simpa [Owed, List.drop_of_length_le hle] using ho
  | @fail data amount _ _ _ hb =>
    obtain ⟨hlt, -, -⟩ := pass_failed hb
    refine ⟨data.drop amount, ?_, ho⟩
    intro hnil
    have := List.drop_eq_nil_iff.mp hnil
    omega

end MayFail

end Omnipp.Sink
