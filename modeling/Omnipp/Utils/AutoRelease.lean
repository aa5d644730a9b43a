import Mathlib.Data.Finset.Basic
import Omnipp.Lib.Tokens

/-!
# `AutoRelease`

Objects that own a handle each, and what is done with them: construction, moves, swaps, `reset` and
destruction, on any number of objects.
-/

open Function Omnipp.Tokens

namespace Omnipp.Utils

/-- What `AutoRelease` uses of its deleter: `deleter_{}`, and a call, which may change it. -/
class Deleter (T D : Type) where
  fresh : D
  call : D → T → D

structure FdCloser where

instance : Deleter Int FdCloser := ⟨⟨⟩, fun deleter _ => deleter⟩

structure AutoRelease (T D : Type) where
  obj : T
  deleter : D

namespace AutoRelease

variable {ι T D : Type}

/-- An object has a name, or it is `new_obj` in the move assignment. -/
inductive Place (ι : Type) where
  | named (i : ι)
  | newObj
  deriving DecidableEq

/-- The live objects, and the handles that were passed to a deleter. -/
structure Memory (ι T D : Type) where
  objects : Place ι → Option (AutoRelease T D)
  released : List T

section Code
variable [DecidableEq ι] [DecidableEq T] [Deleter T D] (invalid : T)

/-! ## The members

`none` is undefined behaviour: there is no object, or there is one already.
-/

/-- `AutoRelease(T obj)` -/
def construct (m : Memory ι T D) (this : Place ι) (obj : T) : Option (Memory ι T D) :=
  match m.objects this with
  | some _ => none
  | none => some { m with objects := update m.objects this (some ⟨obj, Deleter.fresh T⟩) }

/-- `~AutoRelease()` -/
def destroy (m : Memory ι T D) (this : Place ι) : Option (Memory ι T D) :=
  (m.objects this).map fun a =>
    { objects := update m.objects this none
      released := if a.obj ≠ invalid then m.released ++ [a.obj] else m.released }

/-- `swap`, of `obj_` and `deleter_`. -/
def swap (m : Memory ι T D) (this other : Place ι) : Option (Memory ι T D) := do
  let a ← m.objects this
  let b ← m.objects other
  some { m with objects := update (update m.objects this (some b)) other (some a) }

/-- `AutoRelease(AutoRelease &&other)` -/
def moveConstruct (m : Memory ι T D) (this other : Place ι) : Option (Memory ι T D) := do
  let m ← construct m this invalid
  swap m this other

/-- `operator=(AutoRelease &&other)` -/
def moveAssign (m : Memory ι T D) (this other : Place ι) : Option (Memory ι T D) := do
  let m ← moveConstruct invalid m .newObj other
  let m ← swap m this .newObj
  destroy invalid m .newObj

def reset (m : Memory ι T D) (this : Place ι) (obj : T) : Option (Memory ι T D) :=
  (m.objects this).map fun a =>
    if a.obj ≠ invalid then
      { objects := update m.objects this (some ⟨obj, Deleter.call a.deleter a.obj⟩)
        released := m.released ++ [a.obj] }
    else { m with objects := update m.objects this (some ⟨obj, a.deleter⟩) }

/-! ## Programs -/

inductive Use (ι T : Type) where
  | construct (i : ι)
  | constructFrom (i : ι) (obj : T)
  | moveConstruct (i other : ι)
  | moveAssign (i other : ι)
  | swap (i other : ι)
  | reset (i : ι) (obj : T)
  | destroy (i : ι)

def Use.run (m : Memory ι T D) : Use ι T → Option (Memory ι T D)
  | .construct i => AutoRelease.construct m (.named i) invalid
  | .constructFrom i obj => AutoRelease.construct m (.named i) obj
  | .moveConstruct i other => AutoRelease.moveConstruct invalid m (.named i) (.named other)
  | .moveAssign i other => AutoRelease.moveAssign invalid m (.named i) (.named other)
  | .swap i other => AutoRelease.swap m (.named i) (.named other)
  | .reset i obj => AutoRelease.reset invalid m (.named i) obj
  | .destroy i => AutoRelease.destroy invalid m (.named i)

def Memory.start : Memory ι T D := ⟨fun _ => none, []⟩

def run (uses : List (Use ι T)) : Option (Memory ι T D) := uses.foldlM (Use.run invalid) Memory.start

/-- The handle, unless it is `Invalid`. -/
def valid (obj : T) : Option T := if obj = invalid then none else some obj

/-- The valid handle that is passed to a constructor or to `reset`. -/
def Use.handle : Use ι T → Option T
  | .constructFrom _ obj | .reset _ obj => valid invalid obj
  | .construct _ | .moveConstruct _ _ | .moveAssign _ _ | .swap _ _ | .destroy _ => none

def passed (uses : List (Use ι T)) : List T := uses.filterMap (Use.handle invalid)

/-- Which objects have to be live for the use, and which are live behind it. -/
def Use.Allowed (live : Finset ι) : Use ι T → Prop
  | .construct i | .constructFrom i _ => i ∉ live
  | .moveConstruct i other => i ∉ live ∧ other ∈ live
  | .moveAssign i other | .swap i other => i ∈ live ∧ other ∈ live
  | .reset i _ | .destroy i => i ∈ live

def Use.after (live : Finset ι) : Use ι T → Finset ι
  | .construct i | .constructFrom i _ | .moveConstruct i _ => insert i live
  | .destroy i => live.erase i
  | _ => live

/-- Every object is constructed before it is used, and not used once it is destroyed. -/
def Legal : Finset ι → List (Use ι T) → Prop
  | _, [] => True
  | live, use :: uses => use.Allowed live ∧ Legal (use.after live) uses

/-! ## Who holds which handle -/

/-- The objects with the valid handles they hold. -/
def Memory.world (m : Memory ι T D) : World (Place ι) T :=
  ⟨fun p => (m.objects p).bind fun a => valid invalid a.obj, m.released⟩

def Memory.live (m : Memory ι T D) : Place ι → Bool := fun p => (m.objects p).isSome

end Code

section Views
variable [DecidableEq T] {invalid : T} {m : Memory ι T D} {p : Place ι}

theorem valid_invalid : valid invalid invalid = none := if_pos rfl

theorem valid_toList (obj : T) : (valid invalid obj).toList = if obj ≠ invalid then [obj] else [] := by
  unfold valid
  split <;> simp_all

theorem holds_of_some {a : AutoRelease T D} (h : m.objects p = some a) :
    (m.world invalid).holds p = valid invalid a.obj := by
  simp [Memory.world, h]

theorem holds_of_not_live (h : m.live p = false) : (m.world invalid).holds p = none := by
  have hnone : m.objects p = none := by simpa [Memory.live] using h
  simp [Memory.world, hnone]

variable [DecidableEq ι]

theorem world_update (m : Memory ι T D) (p : Place ι) (x : Option (AutoRelease T D)) (released : List T) :
    Memory.world invalid ⟨update m.objects p x, released⟩ =
      ⟨update (m.world invalid).holds p (x.bind fun a => valid invalid a.obj), released⟩ := by
  unfold Memory.world
  congr 1
  exact comp_update (fun x : Option (AutoRelease T D) => x.bind fun a => valid invalid a.obj) m.objects p x

omit [DecidableEq T] in
theorem live_update (m : Memory ι T D) (p : Place ι) (x : Option (AutoRelease T D)) (released : List T) :
    Memory.live ⟨update m.objects p x, released⟩ = update m.live p x.isSome :=
  comp_update Option.isSome m.objects p x

omit [DecidableEq T] in
theorem update_of_live (h : m.live p = true) : update m.live p true = m.live := by
  rw [← h, update_eq_self]

end Views

section Specs
variable [DecidableEq ι] [DecidableEq T] (invalid : T) {m : Memory ι T D} {p q : Place ι}

theorem destroy_spec (h : m.live p = true) :
    ∃ m', destroy invalid m p = some m' ∧
      m'.world invalid = (m.world invalid).drop p ∧ m'.live = update m.live p false := by
  obtain ⟨a, ha⟩ := Option.isSome_iff_exists.mp h
  refine ⟨_, by rw [destroy, ha]; rfl, ?_, live_update ..⟩
  rw [world_update, World.drop, holds_of_some ha, valid_toList]
  split <;> simp [Memory.world]

theorem swap_spec (hp : m.live p = true) (hq : m.live q = true) :
    ∃ m', swap m p q = some m' ∧
      m'.world invalid = (m.world invalid).exchange p q ∧ m'.live = m.live := by
  obtain ⟨a, ha⟩ := Option.isSome_iff_exists.mp hp
  obtain ⟨b, hb⟩ := Option.isSome_iff_exists.mp hq
  refine ⟨_, by rw [swap, ha, hb]; rfl, ?_, ?_⟩
  · refine (world_update ⟨update m.objects p (some b), m.released⟩ q (some a) m.released).trans ?_
    rw [world_update, World.exchange, Equiv.swap_comm, Equiv.comp_swap_eq_update, holds_of_some ha,
      holds_of_some hb]
    rfl
  · refine (live_update ⟨update m.objects p (some b), m.released⟩ q (some a) m.released).trans ?_
    rw [live_update, Option.isSome_some, Option.isSome_some, update_of_live hp, update_of_live hq]

variable [Deleter T D]

theorem construct_spec (h : m.live p = false) (obj : T) :
    ∃ m', construct m p obj = some m' ∧
      m'.world invalid = (m.world invalid).give p (valid invalid obj) ∧ m'.live = update m.live p true := by
  have hnone : m.objects p = none := by simpa [Memory.live] using h
  refine ⟨_, by rw [construct, hnone], ?_, live_update ..⟩
  rw [world_update]
  rfl

theorem reset_spec (h : m.live p = true) (obj : T) :
    ∃ m', reset invalid m p obj = some m' ∧
      m'.world invalid = ((m.world invalid).drop p).give p (valid invalid obj) ∧ m'.live = m.live := by
  obtain ⟨a, ha⟩ := Option.isSome_iff_exists.mp h
  have hdrop : ((m.world invalid).drop p).give p (valid invalid obj) =
      ⟨update (m.world invalid).holds p (valid invalid obj),
        m.released ++ if a.obj ≠ invalid then [a.obj] else []⟩ := by
    rw [World.give, World.drop, update_idem, holds_of_some ha, valid_toList]
    rfl
  rw [reset, ha, Option.map_some, hdrop]
  by_cases hobj : a.obj ≠ invalid
  · refine ⟨_, rfl, ?_, ?_⟩
    · rw [if_pos hobj, if_pos hobj]
      exact world_update ..
    · rw [if_pos hobj, live_update]
      exact update_of_live h
  · refine ⟨_, rfl, ?_, ?_⟩
    · rw [if_neg hobj, if_neg hobj, List.append_nil]
      exact world_update ..
    · rw [if_neg hobj, live_update]
      exact update_of_live h

theorem moveConstruct_spec (hp : m.live p = false) (hq : m.live q = true) :
    ∃ m', moveConstruct invalid m p q = some m' ∧
      m'.world invalid = (m.world invalid).exchange p q ∧ m'.live = update m.live p true := by
  obtain ⟨m₁, h₁, hworld₁, hlive₁⟩ := construct_spec invalid hp invalid
  have hne : q ≠ p := by
    rintro rfl
    simp [hp] at hq
  have hp₁ : m₁.live p = true := by rw [hlive₁, update_self]
  have hq₁ : m₁.live q = true := by rwa [hlive₁, update_of_ne hne]
  obtain ⟨m₂, h₂, hworld₂, hlive₂⟩ := swap_spec invalid hp₁ hq₁
  refine ⟨m₂, ?_, ?_, hlive₂.trans hlive₁⟩
  · rw [moveConstruct, h₁]
    exact h₂
  · rw [hworld₂, hworld₁, valid_invalid, World.give_none (holds_of_not_live hp)]

/-- `new_obj` takes the handle of `other`, and then what the object held before. -/
theorem moveAssign_spec (hnew : m.live .newObj = false) (hp : m.live p = true) (hq : m.live q = true) :
    ∃ m', moveAssign invalid m p q = some m' ∧
      m'.world invalid = (((m.world invalid).exchange .newObj q).exchange p .newObj).drop .newObj ∧
      m'.live = m.live := by
  obtain ⟨m₁, h₁, hworld₁, hlive₁⟩ := moveConstruct_spec invalid hnew hq
  have hne : p ≠ .newObj := by
    rintro rfl
    simp [hnew] at hp
  have hp₁ : m₁.live p = true := by rwa [hlive₁, update_of_ne hne]
  have hnew₁ : m₁.live .newObj = true := by rw [hlive₁, update_self]
  obtain ⟨m₂, h₂, hworld₂, hlive₂⟩ := swap_spec invalid hp₁ hnew₁
  obtain ⟨m₃, h₃, hworld₃, hlive₃⟩ := destroy_spec invalid (hlive₂ ▸ hnew₁)
  refine ⟨m₃, ?_, ?_, ?_⟩
  · rw [moveAssign, h₁]
    change (swap m₁ p .newObj >>= fun m => destroy invalid m .newObj) = some m₃
    rw [h₂]
    exact h₃
  · rw [hworld₃, hworld₂, hworld₁]
  · rw [hlive₃, hlive₂, hlive₁, update_idem, ← hnew, update_eq_self]

end Specs

/-! ## Every program -/

section Run
variable [DecidableEq ι]

/-- The objects of the names in `live`, and nothing else. -/
def liveAt (live : Finset ι) : Place ι → Bool
  | .named i => i ∈ live
  | .newObj => false

theorem liveAt_update {live live' : Finset ι} {i : ι} {b : Bool} (hi : i ∈ live' ↔ b = true)
    (hother : ∀ j, j ≠ i → (j ∈ live' ↔ j ∈ live)) : update (liveAt live) (.named i) b = liveAt live' := by
  funext p
  rcases p with j | _
  · by_cases hj : j = i
    · subst hj
      simp [liveAt, hi]
    · simp [liveAt, hj, hother j hj]
  · rfl

theorem liveAt_insert (live : Finset ι) (i : ι) :
    update (liveAt live) (.named i) true = liveAt (insert i live) := by
  apply liveAt_update
  · simp
  · intro j hj
    simp [hj]

theorem liveAt_erase (live : Finset ι) (i : ι) :
    update (liveAt live) (.named i) false = liveAt (live.erase i) := by
  apply liveAt_update
  · simp
  · intro j hj
    simp [hj]

variable [DecidableEq T] {invalid : T}

/-- Each of the handles `given` has one owner, or was released once. -/
structure Owns (invalid : T) (given : List T) (live : Finset ι) (m : Memory ι T D) : Prop where
  tokens : Exact given (m.world invalid)
  live : m.live = liveAt live

theorem owns_start : Owns invalid [] ∅ (Memory.start : Memory ι T D) where
  tokens := exact_empty
  live := by
    funext p
    rcases p with i | _
    · rfl
    · rfl

variable [Deleter T D] {given : List T} {live : Finset ι} {m : Memory ι T D} {i other : ι}

omit [Deleter T D] in
theorem Owns.live_iff (h : Owns invalid given live m) : m.live (.named i) = true ↔ i ∈ live := by
  simp [h.live, liveAt]

omit [Deleter T D] in
theorem Owns.not_live (h : Owns invalid given live m) (hi : i ∉ live) : m.live (.named i) = false := by
  simpa [h.live, liveAt] using hi

theorem Owns.construct (h : Owns invalid given live m) (hi : i ∉ live) (obj : T)
    (hnew : ∀ t ∈ valid invalid obj, t ∉ given) :
    ∃ m', AutoRelease.construct m (.named i) obj = some m' ∧
      Owns invalid (given ++ (valid invalid obj).toList) (insert i live) m' := by
  have hdead := h.not_live hi
  obtain ⟨m', hrun, hworld, hlive⟩ := construct_spec invalid hdead obj
  refine ⟨m', hrun, ?_, ?_⟩
  · rw [hworld]
    exact h.tokens.give (holds_of_not_live hdead) hnew
  · rw [hlive, h.live, liveAt_insert]

theorem Owns.moveConstruct (h : Owns invalid given live m) (hi : i ∉ live) (hother : other ∈ live) :
    ∃ m', AutoRelease.moveConstruct invalid m (.named i) (.named other) = some m' ∧
      Owns invalid given (insert i live) m' := by
  have hdead := h.not_live hi
  obtain ⟨m', hrun, hworld, hlive⟩ := moveConstruct_spec invalid hdead (h.live_iff.mpr hother)
  refine ⟨m', hrun, ?_, ?_⟩
  · rw [hworld]
    exact h.tokens.exchange _ _
  · rw [hlive, h.live, liveAt_insert]

theorem Owns.moveAssign (h : Owns invalid given live m) (hi : i ∈ live) (hother : other ∈ live) :
    ∃ m', AutoRelease.moveAssign invalid m (.named i) (.named other) = some m' ∧
      Owns invalid given live m' := by
  have hnew : m.live .newObj = false := by rw [h.live, liveAt]
  obtain ⟨m', hrun, hworld, hlive⟩ :=
    moveAssign_spec invalid hnew (h.live_iff.mpr hi) (h.live_iff.mpr hother)
  refine ⟨m', hrun, ?_, hlive.trans h.live⟩
  rw [hworld]
  exact ((h.tokens.exchange _ _).exchange _ _).drop _

omit [Deleter T D] in
theorem Owns.swap (h : Owns invalid given live m) (hi : i ∈ live) (hother : other ∈ live) :
    ∃ m', AutoRelease.swap m (.named i) (.named other) = some m' ∧ Owns invalid given live m' := by
  obtain ⟨m', hrun, hworld, hlive⟩ := swap_spec invalid (h.live_iff.mpr hi) (h.live_iff.mpr hother)
  refine ⟨m', hrun, ?_, hlive.trans h.live⟩
  rw [hworld]
  exact h.tokens.exchange _ _

theorem Owns.reset (h : Owns invalid given live m) (hi : i ∈ live) (obj : T)
    (hnew : ∀ t ∈ valid invalid obj, t ∉ given) :
    ∃ m', AutoRelease.reset invalid m (.named i) obj = some m' ∧
      Owns invalid (given ++ (valid invalid obj).toList) live m' := by
  obtain ⟨m', hrun, hworld, hlive⟩ := reset_spec invalid (h.live_iff.mpr hi) obj
  refine ⟨m', hrun, ?_, hlive.trans h.live⟩
  rw [hworld]
  exact (h.tokens.drop _).give (World.drop_holds _ _) hnew

omit [Deleter T D] in
theorem Owns.destroy (h : Owns invalid given live m) (hi : i ∈ live) :
    ∃ m', AutoRelease.destroy invalid m (.named i) = some m' ∧ Owns invalid given (live.erase i) m' := by
  obtain ⟨m', hrun, hworld, hlive⟩ := destroy_spec invalid (h.live_iff.mpr hi)
  refine ⟨m', hrun, ?_, ?_⟩
  · rw [hworld]
    exact h.tokens.drop _
  · rw [hlive, h.live, liveAt_erase]

theorem owns_step (h : Owns invalid given live m) {use : Use ι T} (hallowed : use.Allowed live)
    (hnew : ∀ t ∈ use.handle invalid, t ∉ given) :
    ∃ m', use.run invalid m = some m' ∧
      Owns invalid (given ++ (use.handle invalid).toList) (use.after live) m' := by
  cases use with
  | construct i =>
    have hvalid : valid invalid invalid = none := valid_invalid
    have hrun := h.construct hallowed invalid (by simp [hvalid])
    rwa [hvalid] at hrun
  | constructFrom i obj => exact h.construct hallowed obj hnew
  | moveConstruct i other =>
    rw [Use.handle, Option.toList_none, List.append_nil]
    exact h.moveConstruct hallowed.1 hallowed.2
  | moveAssign i other =>
    rw [Use.handle, Option.toList_none, List.append_nil]
    exact h.moveAssign hallowed.1 hallowed.2
  | swap i other =>
    rw [Use.handle, Option.toList_none, List.append_nil]
    exact h.swap hallowed.1 hallowed.2
  | reset i obj => exact h.reset hallowed obj hnew
  | destroy i =>
    rw [Use.handle, Option.toList_none, List.append_nil]
    exact h.destroy hallowed

theorem owns_run {uses : List (Use ι T)} (h : Owns invalid given live m) (hlegal : Legal live uses)
    (hnodup : (given ++ passed invalid uses).Nodup) :
    ∃ m', uses.foldlM (Use.run invalid) m = some m' ∧
      ∃ live', Owns invalid (given ++ passed invalid uses) live' m' := by
  induction uses generalizing given live m with
  | nil => exact ⟨m, rfl, live, by simpa [passed] using h⟩
  | cons use uses ih =>
    have hsplit : passed invalid (use :: uses) = (use.handle invalid).toList ++ passed invalid uses := by
      unfold passed
      cases hu : use.handle invalid <;> simp [hu]
    rw [hsplit, ← List.append_assoc] at hnodup ⊢
    have hnew : ∀ t ∈ use.handle invalid, t ∉ given := by
      intro t ht hg
      have hdisjoint := List.disjoint_of_nodup_append (List.nodup_append.mp hnodup).1
      exact hdisjoint hg (by simpa using ht)
    obtain ⟨m₁, hrun, h₁⟩ := owns_step h hlegal.1 hnew
    rw [List.foldlM_cons, hrun]
    exact ih h₁ hlegal.2 hnodup

/-- No handle is released twice and `Invalid` never. A live object holds no handle that is released or
that another one holds. When there is no object any more, every handle is released. -/
structure ReleasesOnce (invalid : T) (uses : List (Use ι T)) (m : Memory ι T D) : Prop where
  once : m.released.Nodup
  valid : invalid ∉ m.released
  kept : ∀ i a, m.objects (.named i) = some a → a.obj ≠ invalid → a.obj ∉ m.released
  alone : ∀ i j a b, m.objects (.named i) = some a → m.objects (.named j) = some b → a.obj ≠ invalid →
    a.obj = b.obj → i = j
  all : (∀ i, m.objects (.named i) = none) → ∀ t ∈ passed invalid uses, m.released.count t = 1

omit [DecidableEq ι] in
theorem invalid_not_passed (uses : List (Use ι T)) : invalid ∉ passed invalid uses := by
  have hvalid : ∀ obj : T, valid invalid obj ≠ some invalid := by
    intro obj
    unfold valid
    split <;> simp_all
  intro h
  obtain ⟨use, -, hu⟩ := List.mem_filterMap.mp h
  cases use with
  | constructFrom i obj => exact hvalid obj hu
  | reset i obj => exact hvalid obj hu
  | _ => cases hu

omit [Deleter T D] in
theorem Owns.releasesOnce {uses : List (Use ι T)} (h : Owns invalid (passed invalid uses) live m) :
    ReleasesOnce invalid uses m := by
  have hholds : ∀ i a, m.objects (.named i) = some a → a.obj ≠ invalid →
      (m.world invalid).holds (.named i) = some a.obj := by
    intro i a ha hne
    rw [holds_of_some ha, valid, if_neg hne]
  refine ⟨h.tokens.once, ?_, ?_, ?_, ?_⟩
  · intro hmem
    exact invalid_not_passed uses ((h.tokens.given invalid).mpr (.inl hmem))
  · intro i a ha hne
    exact h.tokens.kept _ _ (hholds i a ha hne)
  · intro i j a b ha hb hne heq
    have hi := hholds i a ha hne
    have hj := hholds j b hb (heq ▸ hne)
    rw [← heq] at hj
    exact Place.named.inj (h.tokens.alone _ _ _ hi hj)
  · intro hnone t ht
    refine h.tokens.settled (fun p => holds_of_not_live ?_) ht
    rcases p with i | _
    · simp [Memory.live, hnone i]
    · rw [h.live, liveAt]

/-- Every program with any number of objects. -/
theorem auto_release_exactly_once (invalid : T) {uses : List (Use ι T)} (hlegal : Legal ∅ uses)
    (hnodup : (passed invalid uses).Nodup) :
    ∃ m : Memory ι T D, run invalid uses = some m ∧ ReleasesOnce invalid uses m := by
  have hstart : Owns invalid [] ∅ (Memory.start : Memory ι T D) := owns_start
  obtain ⟨m, hrun, live, howns⟩ := owns_run hstart hlegal hnodup
  exact ⟨m, hrun, howns.releasesOnce⟩

end Run

/-- Descriptor 3 moves to another object, from there to itself and back, and over to the other in a swap,
and 4 takes its place. -/
def moves : List (Use (Fin 2) Int) :=
  [.constructFrom 0 3, .moveConstruct 1 0, .moveAssign 1 1, .moveAssign 0 1, .swap 0 1, .swap 1 1,
    .reset 0 4, .destroy 0, .destroy 1]

theorem auto_release_of_moves :
    Legal ∅ moves ∧ passed (-1) moves = [3, 4] ∧
    ∃ m : Memory (Fin 2) Int FdCloser, run (-1) moves = some m ∧ m.released.count 3 = 1 ∧
      m.released.count 4 = 1 := by
  have hlegal : Legal ∅ moves := by simp [moves, Legal, Use.Allowed, Use.after]
  have hpassed : passed (-1) moves = [3, 4] := by decide
  obtain ⟨m, hrun, hm⟩ := auto_release_exactly_once (D := FdCloser) (-1) hlegal (by rw [hpassed]; decide)
  have hnone : ∀ i, m.objects (.named i) = none := by
    cases hrun
    exact Fin.forall_fin_two.mpr ⟨rfl, rfl⟩
  refine ⟨hlegal, hpassed, m, hrun, hm.all hnone 3 ?_, hm.all hnone 4 ?_⟩
  · simp [hpassed]
  · simp [hpassed]

end AutoRelease

end Omnipp.Utils
