import Mathlib.Algebra.Ring.Nat
import Mathlib.Data.List.Basic

/-!
# Consecutive slices

A slice of a list is given by where it starts and how long it is. Slices that follow one another
make up one slice.
-/

namespace Omnipp.Slices

variable {α : Type*}

def slice (l : List α) (x : Nat × Nat) : List α := (l.drop x.1).take x.2

def span (xs : List (Nat × Nat)) : Nat := (xs.map Prod.snd).sum

/-- The first one starts at `n`, and each of the others where the one before it ends. -/
def Consecutive : Nat → List (Nat × Nat) → Prop
  | _, [] => True
  | n, x :: xs => x.1 = n ∧ Consecutive (n + x.2) xs

theorem span_append (xs ys : List (Nat × Nat)) : span (xs ++ ys) = span xs + span ys := by
  simp [span]

theorem consecutive_snoc {n : Nat} {xs : List (Nat × Nat)} {x : Nat × Nat} (h : Consecutive n xs)
    (hx : x.1 = n + span xs) : Consecutive n (xs ++ [x]) := by
  induction xs generalizing n with
  | nil => exact ⟨hx, trivial⟩
  | cons y xs ih =>
    refine ⟨h.1, ih h.2 ?_⟩
    rw [hx, span, span, List.map_cons, List.sum_cons, Nat.add_assoc]

theorem flatMap_slice (l : List α) {n : Nat} {xs : List (Nat × Nat)} (h : Consecutive n xs) :
    xs.flatMap (slice l) = slice l (n, span xs) := by
  induction xs generalizing n with
  | nil => simp [slice, span]
  | cons x xs ih =>
    obtain ⟨rfl, h⟩ := h
    rw [List.flatMap_cons, ih h]
    simp only [slice, span, List.map_cons, List.sum_cons, List.take_add, List.drop_drop]

end Omnipp.Slices
