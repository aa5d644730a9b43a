import Omnipp.Lib.Threads

/-!
# Counting the steps of a run

The steps that count are paid from a potential. Some of them put off a part of their price, and
the debt is paid later by whoever takes it away; the steps that do not count may cost up to `a`.
-/

namespace Omnipp.Threads

variable {ι σ κ : Type*} [DecidableEq ι]

/-- A run with `n` steps of `act` and `s` steps of `extra`. -/
inductive Counted (act extra : Act ι σ κ) (c : Config ι σ κ) : ℕ → ℕ → Config ι σ κ → Prop
  | refl : Counted act extra c 0 0 c
  | act {n s d} (i : ι) {sh : σ} {k : κ} (h : Counted act extra c n s d)
      (ha : act i d.shared (d.pc i) sh k) : Counted act extra c (n + 1) s (d.move i sh k)
  | extra {n s d} (i : ι) {sh : σ} {k : κ} (h : Counted act extra c n s d)
      (ha : extra i d.shared (d.pc i) sh k) : Counted act extra c n (s + 1) (d.move i sh k)

theorem Reaches.counted {act extra both : Act ι σ κ} {c d : Config ι σ κ} (h : Reaches both c d)
    (hboth : ∀ i sh k sh' k', both i sh k sh' k' → act i sh k sh' k' ∨ extra i sh k sh' k') :
    ∃ n s, Counted act extra c n s d := by
  induction h with
  | refl => exact ⟨0, 0, .refl⟩
  | tail _ hs ih =>
    obtain ⟨n, s, ih⟩ := ih
    obtain ⟨i, -, ha⟩ := hs
    rcases hboth _ _ _ _ _ ha with ha | ha
    · exact ⟨n + 1, s, ih.act i ha⟩
    · exact ⟨n, s + 1, ih.extra i ha⟩

/-- What a run has used and what is left do not exceed what it had. -/
theorem Counted.spent {act extra : Act ι σ κ} (inv : Config ι σ κ → Prop)
    (fuel debt : Config ι σ κ → ℕ) (a : ℕ)
    (hact : ∀ c i sh k, inv c → act i c.shared (c.pc i) sh k → inv (c.move i sh k) ∧
      fuel (c.move i sh k) + 1 + debt c ≤ fuel c + debt (c.move i sh k))
    (hextra : ∀ c i sh k, inv c → extra i c.shared (c.pc i) sh k → inv (c.move i sh k) ∧
      fuel (c.move i sh k) + debt c ≤ fuel c + debt (c.move i sh k) + a)
    {c d : Config ι σ κ} {n s : ℕ} (h : Counted act extra c n s d) (hc : inv c) :
    inv d ∧ n + fuel d + debt c ≤ fuel c + a * s + debt d := by
  induction h with
  | refl => exact ⟨hc, by omega⟩
  | act i _ ha ih =>
    obtain ⟨hinv, ih⟩ := ih
    obtain ⟨hinv', hpay⟩ := hact _ i _ _ hinv ha
    exact ⟨hinv', by omega⟩
  | @extra n s d i sh k _ ha ih =>
    obtain ⟨hinv, ih⟩ := ih
    obtain ⟨hinv', hpay⟩ := hextra _ i _ _ hinv ha
    refine ⟨hinv', ?_⟩
    have hmul : a * (s + 1) = a * s + a := Nat.mul_succ a s
    omega

/-- Steps that make a rank fall can be made until none is left. -/
theorem Runs.comes_to_rest {act : Act ι σ κ} {guard : ι → Config ι σ κ → Prop} (inv : Config ι σ κ → Prop)
    (advances : κ → κ → Prop) (rank : Config ι σ κ → ℕ)
    (hfalls : ∀ c i sh k, inv c → guard i c → act i c.shared (c.pc i) sh k → advances (c.pc i) k →
      inv (c.move i sh k) ∧ rank (c.move i sh k) < rank c) {c : Config ι σ κ} (hc : inv c) :
    ∃ d, Runs act guard c d ∧ inv d ∧
      ∀ i, guard i d → ∀ sh k, act i d.shared (d.pc i) sh k → ¬ advances (d.pc i) k := by
  induction hr : rank c using Nat.strong_induction_on generalizing c with
  | _ n ih =>
    subst hr
    by_cases hrest : ∀ i, guard i c → ∀ sh k, act i c.shared (c.pc i) sh k → ¬ advances (c.pc i) k
    · exact ⟨c, .refl, hc, hrest⟩
    · push Not at hrest
      obtain ⟨i, hg, sh, k, ha, hadv⟩ := hrest
      obtain ⟨hinv, hlt⟩ := hfalls c i sh k hc hg ha hadv
      obtain ⟨d, hrun, hd⟩ := ih _ hlt hinv rfl
      exact ⟨d, Relation.ReflTransGen.head (.intro i hg ha) hrun, hd⟩

end Omnipp.Threads
