import Mathlib.Data.List.Nodup
import Mathlib.Logic.Equiv.Basic

/-!
# Tokens and the places that hold them

A place holds one token or none. Tokens are given to places, two places exchange what they hold, and a
place drops its token for good. No operation copies a token, so each one is held once or gone once.
-/

open Function

namespace Omnipp.Tokens

variable {P T : Type*}

/-- What the places hold, and the tokens that were dropped. -/
structure World (P T : Type*) where
  holds : P → Option T
  gone : List T

def World.empty : World P T := ⟨fun _ => none, []⟩

/-- Each of the tokens `given` is gone, or held by one place. -/
structure Exact (given : List T) (w : World P T) : Prop where
  given : ∀ t, t ∈ given ↔ t ∈ w.gone ∨ ∃ p, w.holds p = some t
  once : w.gone.Nodup
  kept : ∀ p t, w.holds p = some t → t ∉ w.gone
  alone : ∀ p q t, w.holds p = some t → w.holds q = some t → p = q

theorem exact_empty : Exact [] (World.empty : World P T) where
  given t := by simp [World.empty]
  once := List.nodup_nil
  kept p t h := by cases h
  alone p q t h := by cases h

section Operations
variable [DecidableEq P]

def World.give (w : World P T) (p : P) (x : Option T) : World P T := { w with holds := update w.holds p x }

def World.exchange (w : World P T) (p q : P) : World P T := { w with holds := w.holds ∘ Equiv.swap p q }

def World.drop (w : World P T) (p : P) : World P T := ⟨update w.holds p none, w.gone ++ (w.holds p).toList⟩

variable {given : List T} {w : World P T} {p q : P}

theorem World.drop_holds (w : World P T) (p : P) : (w.drop p).holds p = none := by
  simp [World.drop]

theorem World.give_none (h : w.holds p = none) : w.give p none = w := by
  unfold World.give
  rw [← h, update_eq_self]

theorem World.update_eq_some {x : Option T} {r : P} {t : T} (h : update w.holds p x r = some t) :
    (r = p ∧ x = some t) ∨ (r ≠ p ∧ w.holds r = some t) := by
  by_cases hr : r = p
  · subst hr
    exact .inl ⟨rfl, by simpa using h⟩
  · exact .inr ⟨hr, by rwa [update_of_ne hr] at h⟩

theorem World.exists_update_iff {x : Option T} {t : T} :
    (∃ r, update w.holds p x r = some t) ↔ x = some t ∨ ∃ r, r ≠ p ∧ w.holds r = some t := by
  constructor
  · rintro ⟨r, hr⟩
    rcases World.update_eq_some hr with ⟨-, hu⟩ | ⟨hne, hu⟩
    · exact .inl hu
    · exact .inr ⟨r, hne, hu⟩
  · rintro (rfl | ⟨r, hne, hr⟩)
    · exact ⟨p, update_self ..⟩
    · exact ⟨r, by rwa [update_of_ne hne]⟩

theorem World.exists_holds_iff (p : P) {t : T} :
    (∃ r, w.holds r = some t) ↔ w.holds p = some t ∨ ∃ r, r ≠ p ∧ w.holds r = some t := by
  rw [← World.exists_update_iff, update_eq_self]

omit [DecidableEq P] in
theorem Exact.not_given (h : Exact given w) {t : T} (ht : t ∉ given) :
    t ∉ w.gone ∧ ∀ r, w.holds r ≠ some t := by
  rw [h.given] at ht
  exact ⟨fun hg => ht (.inl hg), fun r hr => ht (.inr ⟨r, hr⟩)⟩

theorem Exact.give_some (h : Exact given w) (hp : w.holds p = none) {t : T} (ht : t ∉ given) :
    Exact (given ++ [t]) (w.give p (some t)) := by
  obtain ⟨hgone, hheld⟩ := h.not_given ht
  refine ⟨?_, h.once, ?_, ?_⟩
  · intro u
    have hmem : u = t ↔ some t = some u := by rw [Option.some_inj, eq_comm]
    simp only [World.give, List.mem_append, List.mem_singleton, h.given, World.exists_holds_iff p,
      World.exists_update_iff, hp, reduceCtorEq, false_or, hmem]
    rw [or_assoc, or_comm (a := some t = some u)]
  · intro r u hr
    rcases World.update_eq_some hr with ⟨-, hu⟩ | ⟨-, hu⟩
    · cases hu
      exact hgone
    · exact h.kept r u hu
  · intro r r' u hr hr'
    rcases World.update_eq_some hr with ⟨rfl, hu⟩ | ⟨-, hu⟩
    · cases hu
      rcases World.update_eq_some hr' with ⟨rfl, -⟩ | ⟨-, hu'⟩
      · rfl
      · exact absurd hu' (hheld r')
    · rcases World.update_eq_some hr' with ⟨rfl, hu'⟩ | ⟨-, hu'⟩
      · cases hu'
        exact absurd hu (hheld r)
      · exact h.alone r r' u hu hu'

/-- A place that holds nothing gets a token that is new, or nothing. -/
theorem Exact.give (h : Exact given w) (hp : w.holds p = none) {x : Option T} (hx : ∀ t ∈ x, t ∉ given) :
    Exact (given ++ x.toList) (w.give p x) := by
  cases x with
  | none =>
    rw [World.give_none hp]
    simpa using h
  | some t => exact h.give_some hp (hx t rfl)

theorem Exact.exchange (h : Exact given w) (p q : P) : Exact given (w.exchange p q) where
  given t := by
    rw [h.given]
    exact or_congr Iff.rfl (Equiv.swap p q).exists_congr_left
  once := h.once
  kept r t hr := h.kept _ t hr
  alone r r' t hr hr' := (Equiv.swap p q).injective (h.alone _ _ t hr hr')

theorem Exact.drop (h : Exact given w) (p : P) : Exact given (w.drop p) := by
  have hheld : ∀ r t, (w.drop p).holds r = some t → w.holds r = some t ∧ r ≠ p := by
    intro r t hr
    rcases World.update_eq_some hr with ⟨-, hu⟩ | ⟨hne, hu⟩
    · cases hu
    · exact ⟨hu, hne⟩
  refine ⟨?_, ?_, ?_, ?_⟩
  · intro t
    simp only [h.given, World.drop, List.mem_append, Option.mem_toList, World.exists_holds_iff p,
      World.exists_update_iff, reduceCtorEq, false_or]
    exact or_assoc.symm
  · apply h.once.append
    · cases w.holds p with
      | none => exact List.nodup_nil
      | some t => exact List.nodup_singleton t
    · intro t hg hp
      exact h.kept p t (by simpa using hp) hg
  · intro r t hr hg
    obtain ⟨hu, hne⟩ := hheld r t hr
    rcases List.mem_append.mp hg with hg | hp
    · exact h.kept r t hu hg
    · exact hne (h.alone r p t hu (by simpa using hp))
  · intro r r' t hr hr'
    exact h.alone r r' t (hheld r t hr).1 (hheld r' t hr').1

end Operations

/-- When no place holds a token, each one is gone once. -/
theorem Exact.settled [DecidableEq T] {given : List T} {w : World P T} (h : Exact given w)
    (hw : ∀ p, w.holds p = none) {t : T} (ht : t ∈ given) : w.gone.count t = 1 := by
  apply List.count_eq_one_of_mem h.once
  rcases (h.given t).mp ht with hg | ⟨p, hp⟩
  · exact hg
  · simp [hw p] at hp

end Omnipp.Tokens
