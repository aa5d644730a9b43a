import Mathlib.Algebra.Ring.Nat

/-!
# Pipelines

A node is its `operator()`: from its input and the state of everything it can touch to
`std::expected<std::size_t, std::string>` and the new state. `left | right` is the node
`left` with `right` as its `next`.
-/

namespace Omnipp

abbrev Byte := UInt8
abbrev Bytes := List Byte

/-- `'\n'` -/
def newline : Byte := 10

abbrev Expected := Except String Nat

abbrev Stage (α σ : Type) := α → σ → Expected × σ

/-- `if (!res) return std::unexpected(res.error());`, then `f`. -/
def andThen {σ τ : Type} (res : Expected × σ) (f : Nat → σ → Except String τ × σ) :
    Except String τ × σ :=
  match res with
  | (.error e, t) => (.error e, t)
  | (.ok n, t) => f n t

@[simp] theorem andThen_error {σ τ : Type} (e : String) (t : σ) (f : Nat → σ → Except String τ × σ) :
    andThen (.error e, t) f = (.error e, t) := rfl

@[simp] theorem andThen_ok {σ τ : Type} (n : Nat) (t : σ) (f : Nat → σ → Except String τ × σ) :
    andThen (.ok n, t) f = f n t := rfl

theorem andThen_assoc {σ τ : Type} (res : Expected × σ) (f : Nat → σ → Expected × σ)
    (g : Nat → σ → Except String τ × σ) :
    andThen (andThen res f) g = andThen res fun n t => andThen (f n t) g := by
  rcases res with ⟨_ | _, _⟩ <;> rfl

@[simp] theorem andThen_pure {σ : Type} (res : Expected × σ) :
    andThen res (fun n t => (.ok n, t)) = res := by
  rcases res with ⟨_ | _, _⟩ <;> rfl

/-! ## Calls in a row -/

/-- Calls `next` on each item in turn and adds up the results. The first error ends it. -/
def feed {α σ : Type} (next : Stage α σ) : List α → σ → Expected × σ
  | [], s => (.ok 0, s)
  | x :: xs, s => andThen (next x s) fun n t => andThen (feed next xs t) fun m u => (.ok (n + m), u)

theorem feed_append {α σ : Type} (next : Stage α σ) (xs ys : List α) (s : σ) :
    feed next (xs ++ ys) s =
      andThen (feed next xs s) fun n t => andThen (feed next ys t) fun m u => (.ok (n + m), u) := by
  induction xs generalizing s with
  | nil => simp [feed]
  | cons x xs ih => simp [feed, ih, andThen_assoc, Nat.add_assoc]

theorem andThen_eq_ok {σ τ : Type} {res : Expected × σ} {f : Nat → σ → Except String τ × σ} {r : τ}
    {t : σ} (h : andThen res f = (.ok r, t)) : ∃ n u, res = (.ok n, u) ∧ f n u = (.ok r, t) := by
  rcases res with ⟨e | n, u⟩
  · simp at h
  · exact ⟨n, u, rfl, h⟩

theorem andThen_add_ok {σ : Type} {res : Expected × σ} {f : σ → Expected × σ} {n : Nat} {t : σ}
    (h : (andThen res fun m u => andThen (f u) fun k v => (.ok (m + k), v)) = (.ok n, t)) :
    ∃ m u k, res = (.ok m, u) ∧ f u = (.ok k, t) ∧ n = m + k := by
  obtain ⟨m, u, hx, h⟩ := andThen_eq_ok h
  obtain ⟨k, v, hxs, h⟩ := andThen_eq_ok h
  simp only [Prod.mk.injEq, Except.ok.injEq] at h
  obtain ⟨rfl, rfl⟩ := h
  exact ⟨m, u, k, hx, hxs, rfl⟩

theorem feed_cons_ok {α σ : Type} {next : Stage α σ} {x : α} {xs : List α} {s t : σ} {n : Nat}
    (h : feed next (x :: xs) s = (.ok n, t)) :
    ∃ m u k, next x s = (.ok m, u) ∧ feed next xs u = (.ok k, t) ∧ n = m + k :=
  andThen_add_ok h

theorem feed_append_ok {α σ : Type} {next : Stage α σ} {xs ys : List α} {s t : σ} {n : Nat}
    (h : feed next (xs ++ ys) s = (.ok n, t)) :
    ∃ m u k, feed next xs s = (.ok m, u) ∧ feed next ys u = (.ok k, t) ∧ n = m + k := by
  rw [feed_append] at h
  exact andThen_add_ok h

/-- `next(line)`, then `next("\n")`. -/
def printLine {σ : Type} (next : Stage Bytes σ) (line : Bytes) (s : σ) : Expected × σ :=
  andThen (next line s) fun _ t => next [newline] t

def printed (lines : List Bytes) : List Bytes := lines.flatMap fun line => [line, [newline]]

theorem printed_append (xs ys : List Bytes) : printed (xs ++ ys) = printed xs ++ printed ys :=
  List.flatMap_append

theorem printed_injective {xs ys : List Bytes} (h : printed xs = printed ys) : xs = ys := by
  induction xs generalizing ys with
  | nil =>
    cases ys with
    | nil => rfl
    | cons y ys => simp [printed] at h
  | cons x xs ih =>
    cases ys with
    | nil => simp [printed] at h
    | cons y ys =>
      simp only [printed, List.flatMap_cons, List.cons_append, List.nil_append, List.cons.injEq,
        true_and] at h
      rw [h.1, ih h.2]

theorem feed_printed_cons {σ τ : Type} (next : Stage Bytes σ) (line : Bytes) (lines : List Bytes)
    (s : σ) (f : σ → Except String τ × σ) :
    andThen (feed next (printed (line :: lines)) s) (fun _ t => f t) =
      andThen (printLine next line s) fun _ t =>
        andThen (feed next (printed lines) t) fun _ u => f u := by
  simp [printed, printLine, feed, andThen_assoc]

/-- A next stage that succeeds and keeps the calls made to it. -/
def record {α : Type} : Stage α (List α) := fun x calls => (.ok 0, calls ++ [x])

theorem feed_record {α : Type} (xs calls : List α) : feed record xs calls = (.ok 0, calls ++ xs) := by
  induction xs generalizing calls with
  | nil => simp [feed]
  | cons x xs ih => simp [feed, record, ih]

/-- A next stage that keeps the calls made to it and answers each of them as `answers` says. -/
def answering {α : Type} (answers : List α → Expected) : Stage α (List α) := fun x calls =>
  (answers (calls ++ [x]), calls ++ [x])

/-- The first `n` of the calls do not fail. -/
def Accepted {α : Type} (answers : List α → Expected) (calls : List α) (n : Nat) : Prop :=
  ∀ k < n, ∃ m, answers (calls.take (k + 1)) = .ok m

theorem feed_answering {α : Type} {answers : List α → Expected} {calls xs : List α}
    (h : ∀ k < xs.length, ∃ m, answers (calls ++ xs.take (k + 1)) = .ok m) :
    ∃ n, feed (answering answers) xs calls = (.ok n, calls ++ xs) := by
  induction xs generalizing calls with
  | nil => exact ⟨0, by simp [feed]⟩
  | cons x xs ih =>
    obtain ⟨m, hm⟩ := h 0 (by simp)
    obtain ⟨n, hn⟩ := @ih (calls ++ [x]) fun k hk => by simpa using h (k + 1) (by simpa using hk)
    refine ⟨m + n, ?_⟩
    simp only [List.take_succ_cons, List.take_zero] at hm
    simp [feed, answering, hm] at hn ⊢
    simp [hn]

theorem feed_accepted {α : Type} {answers : List α → Expected} {calls : List α}
    (h : Accepted answers calls calls.length) :
    ∃ n, feed (answering answers) calls [] = (.ok n, calls) := by
  have hfeed : ∀ k < calls.length, ∃ m, answers ([] ++ calls.take (k + 1)) = .ok m := h
  simpa using feed_answering hfeed

/-- The call at `j` is the first one that fails, and the last one. -/
theorem feed_rejected {α : Type} {answers : List α → Expected} {calls : List α} {j : Nat} {e : String}
    (hj : j < calls.length) (h : Accepted answers calls j) (he : answers (calls.take (j + 1)) = .error e) :
    feed (answering answers) calls [] = (.error e, calls.take (j + 1)) := by
  have hsplit : calls = calls.take j ++ calls[j] :: calls.drop (j + 1) := by
    rw [List.getElem_cons_drop, List.take_append_drop]
  have hlen : (calls.take j).length = j := by
    rw [List.length_take]
    omega
  have hfirst : Accepted answers (calls.take j) (calls.take j).length := by
    intro k hk
    rw [hlen] at hk
    rw [List.take_take, Nat.min_eq_left (by omega)]
    exact h k hk
  obtain ⟨n, hn⟩ := feed_accepted hfirst
  rw [List.take_succ_eq_append_getElem hj] at he ⊢
  calc feed (answering answers) calls []
      = feed (answering answers) (calls.take j ++ calls[j] :: calls.drop (j + 1)) [] :=
        congrArg (feed (answering answers) · []) hsplit
    _ = (.error e, calls.take j ++ [calls[j]]) := by
        rw [feed_append, hn, andThen_ok, feed, answering, he, andThen_error, andThen_error]

end Omnipp
