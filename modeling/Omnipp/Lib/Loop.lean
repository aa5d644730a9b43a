import Mathlib.Data.Nat.Basic

/-!
# Loops that end

A loop is a body with a rank that every further pass makes smaller. `run` is what the
loop returns, `Visits` the states at the top of its passes.
-/

namespace Omnipp

/-- One pass of a loop body: go round again, or leave with a result. -/
inductive Pass (σ ρ : Type*) where
  | again (s : σ)
  | leave (r : ρ)

/-- What a pass hands to the next one, or returns. -/
def Pass.Gives {σ ρ : Type*} (inv : σ → Prop) (post : ρ → Prop) : Pass σ ρ → Prop
  | .again s => inv s
  | .leave r => post r

structure Loop (σ ρ : Type*) where
  body : σ → Pass σ ρ
  rank : σ → Nat
  falls : ∀ s t, body s = .again t → rank t < rank s

namespace Loop

variable {σ ρ : Type*}

def run (l : Loop σ ρ) (s : σ) : ρ :=
  match _h : l.body s with
  | .leave r => r
  | .again t => l.run t
termination_by l.rank s
decreasing_by exact l.falls s t _h

variable (l : Loop σ ρ)

theorem run_leave {s : σ} {r : ρ} (h : l.body s = .leave r) : l.run s = r := by
  rw [run]
  split <;> simp_all

theorem run_again {s t : σ} (h : l.body s = .again t) : l.run s = l.run t := by
  rw [run]
  split <;> simp_all

/-- The states that the loop started in `s` has at the top of a pass. -/
inductive Visits (s : σ) : σ → Prop
  | start : Visits s s
  | again {t u : σ} (h : Visits s t) (hb : l.body t = .again u) : Visits s u

variable {l}

theorem Visits.inv {s t : σ} (h : l.Visits s t) (inv : σ → Prop)
    (hb : ∀ a b, inv a → l.body a = .again b → inv b) (hs : inv s) : inv t := by
  induction h with
  | start => exact hs
  | again _ hbody ih => exact hb _ _ ih hbody

/-- The invariant rule: a pass keeps `inv`, and leaving from `inv` gives `post`. -/
theorem run_spec (inv : σ → Prop) (post : ρ → Prop)
    (hagain : ∀ a b, inv a → l.body a = .again b → inv b)
    (hleave : ∀ a r, inv a → l.body a = .leave r → post r) (s : σ) (hs : inv s) :
    post (l.run s) := by
  induction s using run.induct l with
  | case1 s r hb => rw [l.run_leave hb]; exact hleave s r hs hb
  | case2 s t hb ih => rw [l.run_again hb]; exact ih (hagain s t hs hb)

/-- The invariant rule with both outcomes of a pass in one obligation. -/
theorem run_gives (inv : σ → Prop) (post : ρ → Prop)
    (hpass : ∀ s, inv s → (l.body s).Gives inv post) (s : σ) (hs : inv s) : post (l.run s) := by
  refine run_spec inv post (fun a b ha hb => ?_) (fun a r ha hb => ?_) s hs
  · have h := hpass a ha
    rwa [hb] at h
  · have h := hpass a ha
    rwa [hb] at h

end Loop

end Omnipp
