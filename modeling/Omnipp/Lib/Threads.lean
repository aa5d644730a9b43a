import Mathlib.Algebra.BigOperators.Group.Finset.Basic
import Mathlib.Data.Fintype.Basic
import Mathlib.Logic.Relation
import Mathlib.Tactic.Abel

/-!
# Threads over one shared state

A thread is a local state and a relation that says what it may do next. One step
of the system moves one thread. The rules below carry a fact about one local step
to every run: an invariant, a balance between the shared state and the sum of
what the threads hold, and mutual exclusion.
-/

open Function Relation

namespace Omnipp.Threads

variable {ι σ κ : Type*}

/-- What the threads share, and where each of them stands. -/
structure Config (ι σ κ : Type*) where
  shared : σ
  pc : ι → κ

abbrev Act (ι σ κ : Type*) := ι → σ → κ → σ → κ → Prop

section Run
variable [DecidableEq ι]

def Config.move (c : Config ι σ κ) (i : ι) (sh : σ) (k : κ) : Config ι σ κ :=
  ⟨sh, update c.pc i k⟩

@[simp] theorem move_shared (c : Config ι σ κ) (i : ι) (sh : σ) (k : κ) :
    (c.move i sh k).shared = sh := rfl

@[simp] theorem move_pc_self (c : Config ι σ κ) (i : ι) (sh : σ) (k : κ) :
    (c.move i sh k).pc i = k := by simp [Config.move]

theorem move_pc_of_ne (c : Config ι σ κ) {i j : ι} (sh : σ) (k : κ) (h : j ≠ i) :
    (c.move i sh k).pc j = c.pc j := by simp [Config.move, h]

theorem move_pc (c : Config ι σ κ) (i j : ι) (sh : σ) (k : κ) :
    (c.move i sh k).pc j = if j = i then k else c.pc j := by
  simp [Config.move, update_apply]

/-- A thread that stands elsewhere than the one that moved stood there before. -/
theorem pc_of_move {c : Config ι σ κ} {i j : ι} {sh : σ} {k l : κ} (h : (c.move i sh k).pc j = l)
    (hne : k ≠ l) : c.pc j = l := by
  rw [move_pc] at h
  split at h
  · exact absurd h hne
  · exact h

/-- What holds of every thread, shown for the one that moved and for the others. -/
theorem forall_move {P : ι → κ → Prop} (c : Config ι σ κ) {i : ι} {sh : σ} {k : κ} (hi : P i k)
    (hj : ∀ j, j ≠ i → P j (c.pc j)) : ∀ j, P j ((c.move i sh k).pc j) := by
  intro j
  by_cases h : j = i
  · subst h
    rwa [move_pc_self]
  · rw [move_pc_of_ne c sh k h]
    exact hj j h

/-- Thread `i` moves, from a state that meets the guard. -/
inductive Step (act : Act ι σ κ) (guard : ι → Config ι σ κ → Prop) :
    Config ι σ κ → Config ι σ κ → Prop
  | intro {c : Config ι σ κ} (i : ι) {sh : σ} {k : κ} (hg : guard i c)
      (ha : act i c.shared (c.pc i) sh k) : Step act guard c (c.move i sh k)

/-- The runs whose every step meets the guard. -/
def Runs (act : Act ι σ κ) (guard : ι → Config ι σ κ → Prop) :
    Config ι σ κ → Config ι σ κ → Prop := ReflTransGen (Step act guard)

abbrev Reaches (act : Act ι σ κ) : Config ι σ κ → Config ι σ κ → Prop :=
  Runs act (fun _ _ => True)

theorem Runs.step {act : Act ι σ κ} {guard : ι → Config ι σ κ → Prop} {c d : Config ι σ κ} (i : ι)
    {sh : σ} {k : κ} (h : Runs act guard c d) (hg : guard i d) (ha : act i d.shared (d.pc i) sh k) :
    Runs act guard c (d.move i sh k) :=
  ReflTransGen.tail h (.intro i hg ha)

theorem Reaches.step {act : Act ι σ κ} {c d : Config ι σ κ} (i : ι) {sh : σ} {k : κ}
    (h : Reaches act c d) (ha : act i d.shared (d.pc i) sh k) : Reaches act c (d.move i sh k) :=
  Runs.step i h trivial ha

theorem move_move (c : Config ι σ κ) (i : ι) (sh sh' : σ) (k k' : κ) :
    (c.move i sh k).move i sh' k' = c.move i sh' k' := by
  simp [Config.move]

/-- The thread that has just moved moves again. -/
theorem Reaches.again {act : Act ι σ κ} {c d : Config ι σ κ} {i : ι} {sh sh' : σ} {k k' : κ}
    (h : Reaches act c (d.move i sh k)) (ha : act i sh k sh' k') :
    Reaches act c (d.move i sh' k') := by
  rw [← move_move d i sh sh' k k']
  refine h.step i ?_
  rwa [move_shared, move_pc_self]

theorem Runs.reaches {act : Act ι σ κ} {guard : ι → Config ι σ κ → Prop} {c d : Config ι σ κ}
    (h : Runs act guard c d) : Reaches act c d := by
  induction h with
  | refl => exact .refl
  | tail _ hs ih =>
    obtain ⟨i, -, ha⟩ := hs
    exact Reaches.step i ih ha

theorem Runs.invariant {act : Act ι σ κ} {guard : ι → Config ι σ κ → Prop}
    (inv : Config ι σ κ → Prop)
    (hstep : ∀ c i sh k, inv c → guard i c → act i c.shared (c.pc i) sh k → inv (c.move i sh k))
    {c d : Config ι σ κ} (h : Runs act guard c d) (hc : inv c) : inv d := by
  induction h with
  | refl => exact hc
  | tail _ hs ih =>
    obtain ⟨i, hg, ha⟩ := hs
    exact hstep _ i _ _ ih hg ha

/-- A step outside of the guard leaves a mark, and no step takes it away. -/
theorem Runs.of_unmarked {act : Act ι σ κ} {guard : ι → Config ι σ κ → Prop}
    (mark : Config ι σ κ → Prop)
    (hkeep : ∀ c i sh k, mark c → act i c.shared (c.pc i) sh k → mark (c.move i sh k))
    (hmark : ∀ c i sh k, ¬ guard i c → act i c.shared (c.pc i) sh k → mark (c.move i sh k))
    {c d : Config ι σ κ} (h : Reaches act c d) (hd : ¬ mark d) : Runs act guard c d := by
  induction h with
  | refl => exact .refl
  | @tail b d _ hs ih =>
    obtain ⟨i, -, ha⟩ := hs
    have hb : ¬ mark b := fun hb => hd (hkeep b i _ _ hb ha)
    have hg : guard i b := Classical.not_not.mp fun hg => hd (hmark b i _ _ hg ha)
    exact (ih hb).step i hg ha

/-! ### Projections -/

/-- The part of a system that `f` and `g` show. -/
def Config.map {σ' κ' : Type*} (f : σ → σ') (g : κ → κ') (c : Config ι σ κ) : Config ι σ' κ' :=
  ⟨f c.shared, fun i => g (c.pc i)⟩

theorem map_move {σ' κ' : Type*} (f : σ → σ') (g : κ → κ') (c : Config ι σ κ) (i : ι) (sh : σ) (k : κ) :
    (c.move i sh k).map f g = (c.map f g).move i (f sh) (g k) := by
  unfold Config.map Config.move
  congr 1
  funext j
  exact apply_update (fun _ => g) c.pc i k j

theorem move_self (c : Config ι σ κ) (i : ι) : c.move i c.shared (c.pc i) = c := by
  simp [Config.move]

/-- Every step is a step of the part, or the part does not see it. -/
theorem Runs.map {σ' κ' : Type*} {act : Act ι σ κ} {act' : Act ι σ' κ'}
    {guard : ι → Config ι σ κ → Prop} {guard' : ι → Config ι σ' κ' → Prop} (f : σ → σ') (g : κ → κ')
    (hguard : ∀ i c, guard i c → guard' i (c.map f g))
    (hstep : ∀ i sh k sh' k', act i sh k sh' k' →
      act' i (f sh) (g k) (f sh') (g k') ∨ f sh' = f sh ∧ g k' = g k)
    {c d : Config ι σ κ} (h : Runs act guard c d) : Runs act' guard' (c.map f g) (d.map f g) := by
  induction h with
  | refl => exact .refl
  | @tail b _ _ hs ih =>
    obtain ⟨i, hg, ha⟩ := hs
    rw [map_move]
    rcases hstep i _ _ _ _ ha with ha' | ⟨hsh, hk⟩
    · exact Runs.step i ih (hguard i b hg) ha'
    · rw [hsh, hk]
      have hself : (b.map f g).move i (f b.shared) (g (b.pc i)) = b.map f g := move_self _ i
      rwa [hself]

theorem Reaches.map {σ' κ' : Type*} {act : Act ι σ κ} {act' : Act ι σ' κ'} (f : σ → σ') (g : κ → κ')
    (hstep : ∀ i sh k sh' k', act i sh k sh' k' →
      act' i (f sh) (g k) (f sh') (g k') ∨ f sh' = f sh ∧ g k' = g k)
    {c d : Config ι σ κ} (h : Reaches act c d) : Reaches act' (c.map f g) (d.map f g) :=
  Runs.map f g (fun _ _ _ => trivial) hstep h

/-! ### One thread -/

theorem alone_step {act : Act Unit σ κ} {c : Config Unit σ κ} {sh sh' : σ} {l l' : κ}
    (h : Reaches act c ⟨sh, fun _ => l⟩) (ha : act () sh l sh' l') : Reaches act c ⟨sh', fun _ => l'⟩ := by
  have hmove : Config.move ⟨sh, fun _ => l⟩ () sh' l' = ⟨sh', fun _ => l'⟩ := by
    unfold Config.move
    congr 1
  exact hmove ▸ h.step () ha

end Run

/-! ## Balance -/

section Balance
variable {M : Type*} [AddCommMonoid M] [Fintype ι]

/-- The shared state owes `credit`, and what covers it is `debit` and the threads' shares. -/
def Balanced (credit debit : σ → M) (share : κ → M) (c : Config ι σ κ) : Prop :=
  credit c.shared = debit c.shared + ∑ i, share (c.pc i)

theorem sum_move [DecidableEq ι] (share : κ → M) (c : Config ι σ κ) (i : ι) (sh : σ) (k : κ) :
    ∑ j, share ((c.move i sh k).pc j) + share (c.pc i) = ∑ j, share (c.pc j) + share k := by
  have hrest : ∑ j ∈ Finset.univ.erase i, share ((c.move i sh k).pc j) =
      ∑ j ∈ Finset.univ.erase i, share (c.pc j) := by
    apply Finset.sum_congr rfl
    intro j hj
    rw [move_pc_of_ne c sh k (Finset.ne_of_mem_erase hj)]
  rw [← Finset.add_sum_erase _ _ (Finset.mem_univ i), hrest, move_pc_self,
    ← Finset.add_sum_erase Finset.univ (fun j => share (c.pc j)) (Finset.mem_univ i)]
  abel

theorem Balanced.move [DecidableEq ι] [IsCancelAdd M] {credit debit : σ → M} {share : κ → M}
    {c : Config ι σ κ} (h : Balanced credit debit share c) (i : ι) (sh : σ) (k : κ)
    (hd : credit sh + (debit c.shared + share (c.pc i)) = credit c.shared + (debit sh + share k)) :
    Balanced credit debit share (c.move i sh k) := by
  have hsum := sum_move share c i sh k
  unfold Balanced at h ⊢
  rw [h] at hd
  apply add_right_cancel (b := debit c.shared + share (c.pc i))
  calc credit sh + (debit c.shared + share (c.pc i))
      = debit c.shared + debit sh + (∑ j, share (c.pc j) + share k) := by rw [hd]; abel
    _ = debit c.shared + debit sh + (∑ j, share ((c.move i sh k).pc j) + share (c.pc i)) := by
        rw [hsum]
    _ = debit sh + ∑ j, share ((c.move i sh k).pc j) + (debit c.shared + share (c.pc i)) := by abel

/-- A conserved quantity: a constant credit, and a local step that only moves value around. -/
theorem Runs.conserved [DecidableEq ι] [IsCancelAdd M] {act : Act ι σ κ}
    {guard : ι → Config ι σ κ → Prop} (total : M) (debit : σ → M) (share : κ → M)
    (hstep : ∀ i sh k sh' k', act i sh k sh' k' → debit sh' + share k' = debit sh + share k)
    {c d : Config ι σ κ} (h : Runs act guard c d)
    (hc : total = debit c.shared + ∑ i, share (c.pc i)) :
    total = debit d.shared + ∑ i, share (d.pc i) := by
  refine h.invariant (Balanced (fun _ => total) debit share) ?_ hc
  intro c i sh k hb _ ha
  refine hb.move i sh k ?_
  rw [hstep i _ _ _ _ ha]

end Balance

/-! ## Mutual exclusion -/

section Lock

/-- The lock has an owner exactly when that thread is where the lock is held. -/
def Exclusive (owner : σ → Option ι) (holds : κ → Prop) (c : Config ι σ κ) : Prop :=
  ∀ i, holds (c.pc i) ↔ owner c.shared = some i

/-- What a local step of `i` may do with the lock: leave it, take it, give it back. -/
def LockStep (owner : σ → Option ι) (holds : κ → Prop) (i : ι) (sh : σ) (k : κ) (sh' : σ) (k' : κ) :
    Prop :=
  (owner sh' = owner sh ∧ (holds k' ↔ holds k)) ∨
  (owner sh = none ∧ owner sh' = some i ∧ holds k') ∨
  (owner sh = some i ∧ owner sh' = none ∧ ¬ holds k')

theorem Exclusive.move [DecidableEq ι] {owner : σ → Option ι} {holds : κ → Prop} {c : Config ι σ κ}
    (h : Exclusive owner holds c) {i : ι} {sh : σ} {k : κ}
    (hl : LockStep owner holds i c.shared (c.pc i) sh k) : Exclusive owner holds (c.move i sh k) := by
  intro j
  rw [move_pc, move_shared]
  have hi := h i
  have hj := h j
  by_cases hji : j = i
  · subst hji
    rw [if_pos rfl]
    rcases hl with ⟨ho, hk⟩ | ⟨-, ho, hk⟩ | ⟨-, ho, hk⟩
    · rw [hk, ho, hi]
    · simp [hk, ho]
    · simp [hk, ho]
  · rw [if_neg hji, hj]
    rcases hl with ⟨ho, -⟩ | ⟨hn, ho, -⟩ | ⟨hs, ho, -⟩
    · rw [ho]
    · simp [hn, ho, Ne.symm hji]
    · simp [hs, ho, Ne.symm hji]

theorem Exclusive.unique {owner : σ → Option ι} {holds : κ → Prop} {c : Config ι σ κ}
    (h : Exclusive owner holds c) {i j : ι} (hi : holds (c.pc i)) (hj : holds (c.pc j)) : i = j := by
  have := ((h i).mp hi).symm.trans ((h j).mp hj)
  simpa using this

end Lock

end Omnipp.Threads
