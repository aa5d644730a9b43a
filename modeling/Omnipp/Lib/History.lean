import Mathlib.Data.List.Basic

/-!
# Runs with their history

The steps of a machine carry labels. A run keeps the state and the label of every step it
made, so that what happened along it can be read off.
-/

namespace Omnipp.History

variable {S L : Type*} {step : S → L → S → Prop}

/-- The runs from `s` whose every step is allowed where it is made. -/
inductive Run (step : S → L → S → Prop) (ok : S → L → Prop) (s : S) : List (S × L) → S → Prop
  | nil : Run step ok s [] s
  | snoc {past : List (S × L)} {t u : S} {a : L} (h : Run step ok s past t) (hok : ok t a)
      (hstep : step t a u) : Run step ok s (past ++ [(t, a)]) u

/-- The invariant rule, for what a state and the past before it have in common. -/
theorem Run.invariant {ok : S → L → Prop} (inv : List (S × L) → S → Prop) {s t : S}
    {past : List (S × L)} (h : Run step ok s past t) (hs : inv [] s)
    (hstep : ∀ past t a u, Run step ok s past t → inv past t → ok t a → step t a u →
      inv (past ++ [(t, a)]) u) : inv past t := by
  induction h with
  | nil => exact hs
  | snoc h hok hu ih => exact hstep _ _ _ _ h ih hok hu

/-- The rule for an invariant of the states alone. -/
theorem Run.keeps {ok : S → L → Prop} (inv : S → Prop) {s t : S} {past : List (S × L)}
    (h : Run step ok s past t) (hs : inv s)
    (hstep : ∀ t a u, inv t → ok t a → step t a u → inv u) : inv t :=
  h.invariant (fun _ => inv) hs fun _ t a u _ => hstep t a u

theorem Run.mono {ok ok' : S → L → Prop} {s t : S} {past : List (S × L)} (h : Run step ok s past t)
    (hok : ∀ s a, ok s a → ok' s a) : Run step ok' s past t := by
  induction h with
  | nil => exact .nil
  | snoc _ ha hu ih => exact .snoc ih (hok _ _ ha) hu

/-- A run of which every step is found to be allowed. -/
theorem Run.restrict {ok ok' : S → L → Prop} {s t : S} {past : List (S × L)}
    (h : Run step ok s past t) (hok : ∀ x ∈ past, ok' x.1 x.2) :
    Run step (fun s a => ok s a ∧ ok' s a) s past t := by
  induction h with
  | nil => exact .nil
  | snoc _ ha hu ih =>
    refine .snoc (ih fun x hx => hok x (List.mem_append_left _ hx)) ⟨ha, ?_⟩ hu
    exact hok _ (List.mem_append_right _ (List.mem_singleton_self _))

theorem Run.trans {ok : S → L → Prop} {s t u : S} {past more : List (S × L)}
    (h : Run step ok s past t) (h' : Run step ok t more u) : Run step ok s (past ++ more) u := by
  induction h' with
  | nil => rwa [List.append_nil]
  | snoc _ ha hu ih =>
    rw [← List.append_assoc]
    exact .snoc ih ha hu

end Omnipp.History
