import Mathlib.Data.List.Basic

/-!
# Loops over a span of records

The loop goes on while the span is not empty, and each pass looks at the record in front and says
where the next one is. Nothing makes it end, so the loop has fuel.
-/

namespace Omnipp.Cursor

variable {α δ ε τ : Type*}

/-- The passes over `span`, or `none` when the fuel does not do. -/
def scan (pass : List α → τ → Except ε (List α × τ)) : Nat → List α → τ → Option (Except ε τ)
  | 0, _, _ => none
  | _ + 1, [], st => some (.ok st)
  | fuel + 1, a :: span, st =>
    match pass (a :: span) st with
    | .error e => some (.error e)
    | .ok (rest, st) => scan pass fuel rest st

variable {pass : List α → τ → Except ε (List α × τ)} {record : δ → List α} {step : τ → δ → Except ε τ}

/-- A pass takes the record in front off, and does what `step` says. -/
def Takes (pass : List α → τ → Except ε (List α × τ)) (record : δ → List α) (step : τ → δ → Except ε τ) :
    Prop :=
  ∀ d rest st, record d ≠ [] ∧ pass (record d ++ rest) st = (step st d).map fun st => (rest, st)

/-- The loop over encoded records is the fold over what they encode. -/
theorem scan_records (h : Takes pass record step) (ds : List δ) (st : τ) {fuel : Nat}
    (hfuel : ds.length < fuel) : scan pass fuel (ds.flatMap record) st = some (ds.foldlM step st) := by
  induction ds generalizing st fuel with
  | nil =>
    obtain ⟨fuel, rfl⟩ := Nat.exists_eq_succ_of_ne_zero (Nat.ne_zero_of_lt hfuel)
    rfl
  | cons d ds ih =>
    obtain ⟨fuel, rfl⟩ := Nat.exists_eq_succ_of_ne_zero (Nat.ne_zero_of_lt hfuel)
    obtain ⟨hne, hpass⟩ := h d (ds.flatMap record) st
    obtain ⟨a, as, hrec⟩ := List.exists_cons_of_ne_nil hne
    rw [List.flatMap_cons, List.foldlM_cons]
    rw [hrec, List.cons_append] at hpass ⊢
    rw [scan, hpass]
    cases hstep : step st d with
    | error e => rfl
    | ok st' => exact ih st' (by simpa using hfuel)

end Omnipp.Cursor
