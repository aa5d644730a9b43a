import Omnipp.Utils.RegexHandler

/-!
# What the workers of `RegexHandler` print

The part of `worker` between `hs_scan` and `free_read_request`, and the end of it: the lines go to
`write_buffer`, and one `write` under `write_mutex` takes all of it when it has grown past 4096 bytes
or the thread ends. Nobody looks at what `write` returns.
-/

open Omnipp.Threads

namespace Omnipp.Utils.RegexHandler

abbrev Line := List UInt8

/-- `line.front() == '\n' || line.front() == '\r'` -/
def isBreak (b : UInt8) : Bool := b == 10 || b == 13

/-- What one match adds to `write_buffer`. -/
def lineOf (data : List UInt8) (m : Nat × Nat) : Line :=
  ((data.take m.2).drop m.1).dropWhile isBreak ++ [10]

/-- The lines of a request. `data` is what was read into its buffer, and `hsScan` what `on_match` is
called with for it. -/
def linesOf {ρ : Type} (hsScan : List UInt8 → List (Nat × Nat)) (data : ρ → List UInt8) (req : ρ) :
    List Line :=
  (hsScan (data req)).map (lineOf (data req))

theorem linesOf_ne_nil {ρ : Type} (hsScan : List UInt8 → List (Nat × Nat)) (data : ρ → List UInt8)
    (req : ρ) : ∀ x ∈ linesOf hsScan data req, x ≠ [] := by
  intro x hx
  obtain ⟨m, -, rfl⟩ := List.mem_map.mp hx
  simp [lineOf]

/-- `write_mutex` and stdout. `writes` keeps what every `write` was given and how much of it the kernel
took, `printed` the lines in it and whose they are. -/
structure Output (W : Type) where
  writeMutex : Option W
  stdout : List UInt8
  writes : List (List UInt8 × Nat)
  printed : List (W × Line)

inductive Place where
  -- in the loop over the matches, or outside of it
  | idle
  -- `unique_lock{write_mutex}` in the loop
  | full
  -- `write` and `write_buffer.clear()`, with the mutex
  | locked
  -- `unique_lock{write_mutex}` behind `while (running)`
  | last
  | lastLocked
  | returned
  deriving DecidableEq

/-- The variables of a worker. `lines` are those of the matches that the loop has not come to,
`held` the lines in `buffer`, and `taken` the requests the worker has matched so far. -/
structure Locals (ρ : Type) where
  buffer : List UInt8
  lines : List Line
  place : Place
  held : List Line
  taken : List ρ

variable {W ρ : Type} [DecidableEq W]

/-- A step of the handler, seen with its output. -/
inductive Prints (hsScan : List UInt8 → List (Nat × Nat)) (data : ρ → List UInt8) :
    Act (Option W) (Members W ρ × Output W) (Pc ρ × Locals ρ)
  -- Whatever does not print goes on when there is nothing left to print.
  | other {i sh k sh' k' o l} (h : Moves i sh k sh' k') (hk : ∀ req, k ≠ .scan req)
      (hplace : l.place = .idle) (hlines : l.lines = []) :
      Prints hsScan data i (sh, o) (k, l) (sh', o) (k', l)
  | scan {w sh o req l} :
      Prints hsScan data (some w) (sh, o) (.scan req, l) ({ sh with scanned := sh.scanned ++ [req] }, o)
        (.free req, { l with lines := linesOf hsScan data req, taken := l.taken ++ [req] })
  | scanFails {w sh o req l} : Prints hsScan data (some w) (sh, o) (.scan req, l) (sh, o) (.threw req, l)
  | append {w sh o k l line rest} (hplace : l.place = .idle) (hlines : l.lines = line :: rest) :
      Prints hsScan data (some w) (sh, o) (k, l) (sh, o)
        (k, { l with
          buffer := l.buffer ++ line
          lines := rest
          place := if 4096 < (l.buffer ++ line).length then .full else .idle
          held := l.held ++ [line] })
  | lock {w sh o k l} (hplace : l.place = .full) (h : o.writeMutex = none) :
      Prints hsScan data (some w) (sh, o) (k, l) (sh, { o with writeMutex := some w })
        (k, { l with place := .locked })
  | write {w sh o k l} (n : Nat) (hplace : l.place = .locked) (hn : n ≤ l.buffer.length) :
      Prints hsScan data (some w) (sh, o) (k, l)
        (sh, ⟨none, o.stdout ++ l.buffer.take n, o.writes ++ [(l.buffer, n)],
          o.printed ++ l.held.map (w, ·)⟩)
        (k, { l with buffer := [], place := .idle, held := [] })
  -- `if (!std::ranges::empty(write_buffer))`
  | finish {w sh o l} (hplace : l.place = .idle) :
      Prints hsScan data (some w) (sh, o) (.done, l) (sh, o)
        (.done, { l with place := if l.buffer = [] then .returned else .last })
  | lastLock {w sh o k l} (hplace : l.place = .last) (h : o.writeMutex = none) :
      Prints hsScan data (some w) (sh, o) (k, l) (sh, { o with writeMutex := some w })
        (k, { l with place := .lastLocked })
  -- The buffer goes with the thread.
  | lastWrite {w sh o k l} (n : Nat) (hplace : l.place = .lastLocked) (hn : n ≤ l.buffer.length) :
      Prints hsScan data (some w) (sh, o) (k, l)
        (sh, ⟨none, o.stdout ++ l.buffer.take n, o.writes ++ [(l.buffer, n)],
          o.printed ++ l.held.map (w, ·)⟩)
        (k, { l with buffer := [], place := .returned, held := [] })

/-- The constructor has started the threads, and nothing is printed. -/
def startOutput : Config (Option W) (Members W ρ × Output W) (Pc ρ × Locals ρ) where
  shared := (start.shared, ⟨none, [], [], []⟩)
  pc := fun i => (start.pc i, ⟨[], [], .idle, [], []⟩)

/-- The handler without its output. -/
theorem prints_handler {hsScan : List UInt8 → List (Nat × Nat)} {data : ρ → List UInt8}
    {c d : Config (Option W) (Members W ρ × Output W) (Pc ρ × Locals ρ)}
    (h : Reaches (Prints hsScan data) c d) :
    Reaches Moves (c.map Prod.fst Prod.fst) (d.map Prod.fst Prod.fst) := by
  refine Reaches.map Prod.fst Prod.fst ?_ h
  intro i sh k sh' k' ha
  cases ha with
  | other h _ _ _ => exact .inl h
  | scan => exact .inl (.work .scan)
  | scanFails => exact .inl (.work .scanFails)
  | _ => exact .inr ⟨rfl, rfl⟩

/-! ## One step -/

/-- What is written is what was asked for, as far as the kernel took it. -/
structure Written (o : Output W) : Prop where
  stdout : o.stdout = o.writes.flatMap fun x => x.1.take x.2
  asked : o.writes.flatMap Prod.fst = o.printed.flatMap Prod.snd
  le : ∀ x ∈ o.writes, x.2 ≤ x.1.length

structure Locals.Good (k : Pc ρ) (l : Locals ρ) : Prop where
  buffer : l.buffer = l.held.flatten
  nonempty : ∀ x ∈ l.held ++ l.lines, x ≠ []
  busy : l.lines ≠ [] → ∃ req, k = .free req
  ended : l.place = .last ∨ l.place = .lastLocked ∨ l.place = .returned → k = .done
  returned : l.place = .returned → l.held = []

variable {hsScan : List UInt8 → List (Nat × Nat)} {data : ρ → List UInt8} {i : Option W}
  {s s' : Members W ρ × Output W} {k k' : Pc ρ × Locals ρ}

theorem prints_good (h : Prints hsScan data i s k s' k') (hk : k.2.Good k.1) : k'.2.Good k'.1 := by
  cases h with
  | other _ _ hplace hlines =>
    exact ⟨hk.buffer, hk.nonempty, by simp [hlines], by simp [hplace], by simp [hplace]⟩
  | @scan _ _ _ req l =>
    have hplace : ¬ (l.place = .last ∨ l.place = .lastLocked ∨ l.place = .returned) :=
      fun hp => by cases hk.ended hp
    refine ⟨hk.buffer, ?_, fun _ => ⟨req, rfl⟩, fun hp => absurd hp hplace, hk.returned⟩
    intro x hx
    rcases List.mem_append.mp hx with hx | hx
    · exact hk.nonempty x (List.mem_append_left _ hx)
    · exact linesOf_ne_nil hsScan data req x hx
  | @scanFails _ _ _ req l =>
    refine ⟨hk.buffer, hk.nonempty, ?_, ?_, hk.returned⟩
    · intro hl
      obtain ⟨_, hfree⟩ := hk.busy hl
      cases hfree
    · intro hp
      cases hk.ended hp
  | append hplace hlines =>
    refine ⟨by simpa using hk.buffer, ?_, ?_, ?_, ?_⟩
    · intro x hx
      apply hk.nonempty
      simpa [hlines] using hx
    · intro _
      exact hk.busy (by simp [hlines])
    · dsimp only
      split <;> simp
    · dsimp only
      split <;> simp
  | lock _ _ => exact ⟨hk.buffer, hk.nonempty, hk.busy, by simp, by simp⟩
  | write n hplace hn =>
    exact ⟨rfl, fun x hx => hk.nonempty x (List.mem_append_right _ hx), hk.busy, by simp, by simp⟩
  | @finish _ _ _ l hplace =>
    refine ⟨hk.buffer, hk.nonempty, hk.busy, fun _ => rfl, ?_⟩
    dsimp only
    split
    · next hempty =>
      intro _
      rw [List.eq_nil_iff_forall_not_mem]
      intro x hx
      have hflat : ∀ y ∈ l.held, y = [] := List.flatten_eq_nil_iff.mp (hk.buffer ▸ hempty)
      exact hk.nonempty x (List.mem_append_left _ hx) (hflat x hx)
    · simp
  | lastLock hplace h =>
    exact ⟨hk.buffer, hk.nonempty, hk.busy, fun _ => hk.ended (.inl hplace), by simp⟩
  | lastWrite n hplace hn =>
    refine ⟨rfl, fun x hx => hk.nonempty x (List.mem_append_right _ hx), hk.busy, ?_, fun _ => rfl⟩
    exact fun _ => hk.ended (.inr (.inl hplace))

omit [DecidableEq W] in
theorem Written.write {o : Output W} (h : Written o) (w : W) {l : Locals ρ} {n : Nat}
    (hl : l.buffer = l.held.flatten) (hn : n ≤ l.buffer.length) :
    Written ⟨none, o.stdout ++ l.buffer.take n, o.writes ++ [(l.buffer, n)],
      o.printed ++ l.held.map (w, ·)⟩ := by
  refine ⟨by simp [h.stdout], ?_, ?_⟩
  · have hmap : (l.held.map fun x => (w, x)).flatMap Prod.snd = l.held.flatten := by
      simp [List.flatMap_map]
    simp [h.asked, hmap, hl]
  · intro x hx
    rcases List.mem_append.mp hx with hx | hx
    · exact h.le x hx
    · rw [List.mem_singleton.mp hx]
      exact hn

theorem prints_written (h : Prints hsScan data i s k s' k') (hs : Written s.2) (hk : k.2.Good k.1) :
    Written s'.2 := by
  cases h with
  | lock _ _ | lastLock _ _ => exact ⟨hs.stdout, hs.asked, hs.le⟩
  | write n _ hn | lastWrite n _ hn => exact hs.write _ hk.buffer hn
  | _ => exact hs

theorem moves_scanned {sh sh' : Members W ρ} {k k' : Pc ρ} (h : Moves i sh k sh' k')
    (hk : ∀ req, k ≠ .scan req) : sh'.scanned = sh.scanned := by
  cases h with
  | spurious _ => rfl
  | work h =>
    cases h with
    | scan => exact absurd rfl (hk _)
    | _ => rfl

/-- The lines that a worker has and has not printed. -/
def Locals.unprinted (l : Locals ρ) : List Line := l.held ++ l.lines

omit [DecidableEq W] in
theorem snd_tagged (w : W) (ls : List Line) : (ls.map (w, ·)).map Prod.snd = ls := by
  simp

theorem lines_at_scan {req : ρ} {l : Locals ρ} (h : l.Good (.scan req)) : l.lines = [] := by
  by_contra hl
  obtain ⟨_, hfree⟩ := h.busy hl
  cases hfree

theorem prints_lines (h : Prints hsScan data i s k s' k') (hk : k.2.Good k.1) :
    (↑(s'.1.scanned.flatMap (linesOf hsScan data)) : Multiset Line) +
        (↑(s.2.printed.map Prod.snd) + ↑k.2.unprinted) =
      ↑(s.1.scanned.flatMap (linesOf hsScan data)) +
        (↑(s'.2.printed.map Prod.snd) + ↑k'.2.unprinted) := by
  cases h with
  | other h hne _ _ => rw [moves_scanned h hne]
  | @scan _ _ _ req l =>
    have hlines : l.lines = [] := lines_at_scan hk
    simp only [Locals.unprinted, hlines, List.flatMap_append, List.flatMap_singleton, ← Multiset.coe_add,
      Multiset.coe_nil, add_zero]
    abel
  | append hplace hlines => simp [Locals.unprinted, hlines]
  | write n _ _ | lastWrite n _ _ =>
    simp only [Locals.unprinted, List.map_append, snd_tagged, ← Multiset.coe_add, List.nil_append]
    abel
  | _ => rfl

/-! ### In order -/

/-- What one worker has printed. -/
def Output.ofWorker (o : Output W) (w : W) : List Line := (o.printed.filter (·.1 = w)).map Prod.snd

theorem ofWorker_write (o : Output W) (m : Option W) (out : List UInt8)
    (ws : List (List UInt8 × Nat)) (v w : W) (held : List Line) :
    Output.ofWorker ⟨m, out, ws, o.printed ++ held.map (w, ·)⟩ v =
      o.ofWorker v ++ if w = v then held else [] := by
  unfold Output.ofWorker
  rw [List.filter_append, List.map_append]
  congr 1
  split
  · next h =>
    rw [List.filter_eq_self.mpr (by simp [h]), snd_tagged]
  · next h =>
    rw [List.filter_eq_nil_iff.mpr (by simp [h])]
    rfl

theorem prints_others (h : Prints hsScan data i s k s' k') {v : W} (hv : some v ≠ i) :
    s'.2.ofWorker v = s.2.ofWorker v := by
  cases h with
  | write n _ _ | lastWrite n _ _ =>
    rw [ofWorker_write, if_neg (fun hw => hv (by rw [hw])), List.append_nil]
  | _ => rfl

theorem prints_mine {w : W} (h : Prints hsScan data (some w) s k s' k') (hk : k.2.Good k.1)
    (ho : s.2.ofWorker w ++ k.2.unprinted = k.2.taken.flatMap (linesOf hsScan data)) :
    s'.2.ofWorker w ++ k'.2.unprinted = k'.2.taken.flatMap (linesOf hsScan data) := by
  cases h with
  | @scan _ _ _ req l =>
    have hlines : l.lines = [] := lines_at_scan hk
    simp only [Locals.unprinted, hlines, List.append_nil] at ho
    simp [Locals.unprinted, Output.ofWorker, ← ho]
  | append hplace hlines => simpa [Locals.unprinted, hlines] using ho
  | write n _ _ | lastWrite n _ _ =>
    rw [ofWorker_write, if_pos rfl]
    simpa [Locals.unprinted] using ho
  | _ => exact ho

theorem prints_taken (h : Prints hsScan data i s k s' k') : k.2.taken ⊆ k'.2.taken := by
  cases h with
  | scan => exact List.subset_append_left _ _
  | _ => exact List.Subset.refl _

theorem prints_scanned (h : Prints hsScan data i s k s' k') :
    ∀ req ∈ s'.1.scanned, req ∈ s.1.scanned ∨ i ≠ none ∧ req ∈ k'.2.taken := by
  intro r hr
  cases h with
  | other h hne _ _ =>
    left
    rwa [← moves_scanned h hne]
  | scan =>
    rcases List.mem_append.mp hr with hr | hr
    · exact .inl hr
    · exact .inr ⟨by simp, List.mem_append_right _ hr⟩
  | _ => exact .inl hr

theorem prints_owner (h : Prints hsScan data none s k s' k') : k'.2 = k.2 := by
  cases h with
  | other _ _ _ _ => rfl

/-! ## Every run -/

variable [Fintype W]

/-- Every line of a matched request is printed or still with the worker that matched it, and the
lines of a worker are in order. -/
structure Accounted (hsScan : List UInt8 → List (Nat × Nat)) (data : ρ → List UInt8)
    (c : Config (Option W) (Members W ρ × Output W) (Pc ρ × Locals ρ)) : Prop where
  written : Written c.shared.2
  good : ∀ i, (c.pc i).2.Good (c.pc i).1
  lines : Balanced (fun s => (↑(s.1.scanned.flatMap (linesOf hsScan data)) : Multiset Line))
    (fun s => ↑(s.2.printed.map Prod.snd)) (fun k => ↑k.2.unprinted) c
  order : ∀ w, c.shared.2.ofWorker w ++ (c.pc (some w)).2.unprinted =
    (c.pc (some w)).2.taken.flatMap (linesOf hsScan data)
  taken : ∀ req ∈ c.shared.1.scanned, ∃ w, req ∈ (c.pc (some w)).2.taken
  owner : (c.pc none).2.unprinted = []

theorem accounted_start :
    Accounted hsScan data (startOutput : Config (Option W) (Members W ρ × Output W) (Pc ρ × Locals ρ)) where
  written := ⟨rfl, rfl, by simp [startOutput]⟩
  good i := ⟨rfl, by simp [startOutput], by simp [startOutput], by simp [startOutput], fun _ => rfl⟩
  lines := by simp [Threads.Balanced, startOutput, start, Locals.unprinted]
  order w := rfl
  taken := by simp [startOutput, start]
  owner := rfl

theorem accounted_step (c : Config (Option W) (Members W ρ × Output W) (Pc ρ × Locals ρ))
    (i : Option W) (s : Members W ρ × Output W) (k : Pc ρ × Locals ρ) (h : Accounted hsScan data c)
    (ha : Prints hsScan data i c.shared (c.pc i) s k) : Accounted hsScan data (c.move i s k) := by
  have hmove : ∀ w, (c.move i s k).pc (some w) = if some w = i then k else c.pc (some w) :=
    fun w => move_pc c i (some w) s k
  refine ⟨prints_written ha h.written (h.good i), ?_, h.lines.move i s k (prints_lines ha (h.good i)),
    ?_, ?_, ?_⟩
  · exact forall_move c (P := fun _ p => p.2.Good p.1) (prints_good ha (h.good i)) fun j _ => h.good j
  · intro w
    rw [hmove, move_shared]
    split
    · next hi =>
      subst hi
      exact prints_mine ha (h.good _) (h.order w)
    · next hi =>
      rw [prints_others ha hi]
      exact h.order w
  · intro req hreq
    have hkeep : ∀ w, req ∈ (c.pc (some w)).2.taken → req ∈ ((c.move i s k).pc (some w)).2.taken := by
      intro w hw
      rw [hmove]
      split
      · next hi =>
        subst hi
        exact prints_taken ha hw
      · exact hw
    rcases prints_scanned ha req hreq with hold | ⟨hi, hnew⟩
    · obtain ⟨w, hw⟩ := h.taken req hold
      exact ⟨w, hkeep w hw⟩
    · obtain ⟨w, rfl⟩ := Option.ne_none_iff_exists'.mp hi
      exact ⟨w, by rwa [move_pc_self]⟩
  · by_cases hi : i = none
    · subst hi
      rw [move_pc_self, prints_owner ha]
      exact h.owner
    · rw [move_pc_of_ne c s k (Ne.symm hi)]
      exact h.owner

theorem accounted_run {c : Config (Option W) (Members W ρ × Output W) (Pc ρ × Locals ρ)}
    (h : Reaches (Prints hsScan data) startOutput c) : Accounted hsScan data c :=
  Runs.invariant (Accounted hsScan data) (fun c i s k hc _ ha => accounted_step c i s k hc ha) h
    accounted_start

/-! ## At the end -/

/-- The bytes that were taken are no more than those that were given, and as many only when each
`write` was full. -/
theorem length_le_and_eq_iff (ws : List (List UInt8 × Nat)) (h : ∀ x ∈ ws, x.2 ≤ x.1.length) :
    (ws.flatMap fun x => x.1.take x.2).length ≤ (ws.flatMap Prod.fst).length ∧
      ((ws.flatMap fun x => x.1.take x.2).length = (ws.flatMap Prod.fst).length ↔
        ∀ x ∈ ws, x.2 = x.1.length) := by
  induction ws with
  | nil => simp
  | cons x ws ih =>
    have hx := h x List.mem_cons_self
    obtain ⟨hle, hiff⟩ := ih fun y hy => h y (List.mem_cons_of_mem x hy)
    rw [List.forall_mem_cons, ← hiff]
    simp only [List.flatMap_cons, List.length_append, List.length_take, Nat.min_eq_left hx]
    omega

omit [DecidableEq W] [Fintype W] in
theorem Written.stdout_of_full {o : Output W} (h : Written o) (hfull : ∀ x ∈ o.writes, x.2 = x.1.length) :
    o.stdout = (o.printed.map Prod.snd).flatten := by
  have htake : o.writes.flatMap (fun x => x.1.take x.2) = o.writes.flatMap Prod.fst := by
    apply List.flatMap_congr
    intro x hx
    rw [hfull x hx, List.take_length]
  rw [h.stdout, htake, h.asked, List.flatMap_def]

theorem flatten_length_perm {ls ms : List Line} (h : ls.Perm ms) :
    ls.flatten.length = ms.flatten.length := by
  rw [List.length_flatten, List.length_flatten, (h.map List.length).sum_eq]

theorem unprinted_of_returned {d : Config (Option W) (Members W ρ × Output W) (Pc ρ × Locals ρ)}
    (h : Accounted hsScan data d) (hend : ∀ w, (d.pc (some w)).2.place = .returned) (i : Option W) :
    (d.pc i).2.unprinted = [] := by
  cases i with
  | none => exact h.owner
  | some w =>
    have hgood := h.good (some w)
    have hdone := hgood.ended (.inr (.inr (hend w)))
    have hlines : (d.pc (some w)).2.lines = [] := by
      by_contra hl
      obtain ⟨_, hfree⟩ := hgood.busy hl
      rw [hdone] at hfree
      cases hfree
    rw [Locals.unprinted, hgood.returned (hend w), hlines, List.append_nil]

/-- When all workers have returned, stdout has every line of every matched request once and whole, the
lines of a request in their order, exactly when the kernel has taken every `write` in full. -/
theorem handler_prints_every_line_iff
    (d : Config (Option W) (Members W ρ × Output W) (Pc ρ × Locals ρ))
    (h : Reaches (Prints hsScan data) startOutput d)
    (hend : ∀ w, (d.pc (some w)).2.place = .returned) :
    (∃ printed : List Line, d.shared.2.stdout = printed.flatten ∧
        printed.Perm (d.shared.1.scanned.flatMap (linesOf hsScan data)) ∧
        ∀ req ∈ d.shared.1.scanned, (linesOf hsScan data req).Sublist printed) ↔
      ∀ x ∈ d.shared.2.writes, x.2 = x.1.length := by
  have hacc := accounted_run h
  have hnone := unprinted_of_returned hacc hend
  have hperm : (d.shared.2.printed.map Prod.snd).Perm
      (d.shared.1.scanned.flatMap (linesOf hsScan data)) := by
    have hlines := hacc.lines
    rw [Threads.Balanced, Finset.sum_eq_zero fun i _ => by rw [hnone i]; rfl, add_zero] at hlines
    exact (Multiset.coe_eq_coe.mp hlines).symm
  constructor
  · rintro ⟨printed, hout, hsame, -⟩
    rw [← (length_le_and_eq_iff _ hacc.written.le).2, ← hacc.written.stdout, hacc.written.asked, hout,
      List.flatMap_def]
    exact flatten_length_perm (hsame.trans hperm.symm)
  · intro hfull
    refine ⟨_, hacc.written.stdout_of_full hfull, hperm, ?_⟩
    intro req hreq
    obtain ⟨w, hw⟩ := hacc.taken req hreq
    have horder := hacc.order w
    rw [hnone, List.append_nil] at horder
    have htaken : (linesOf hsScan data req).Sublist (d.shared.2.ofWorker w) := by
      rw [horder, List.flatMap_def]
      exact List.sublist_flatten_of_mem (List.mem_map_of_mem hw)
    exact htaken.trans (List.filter_sublist.map Prod.snd)

/-! ## One worker and one request -/

/-- The owner and the only worker. -/
def duo (s : Members (Fin 1) ρ × Output (Fin 1)) (k l : Pc ρ × Locals ρ) :
    Config (Option (Fin 1)) (Members (Fin 1) ρ × Output (Fin 1)) (Pc ρ × Locals ρ) :=
  ⟨s, fun i => i.elim k fun _ => l⟩

theorem duo_start (hsScan : List UInt8 → List (Nat × Nat)) (data : ρ → List UInt8) :
    Reaches (Prints hsScan data) startOutput (duo (⟨[], none, ∅, true, [], [], []⟩, ⟨none, [], [], []⟩)
      (.idle, ⟨[], [], .idle, [], []⟩) (.test, ⟨[], [], .idle, [], []⟩)) := by
  have hstart : duo (⟨[], none, ∅, true, [], [], []⟩, ⟨none, [], [], []⟩)
      (.idle, ⟨[], [], .idle, [], []⟩) (.test, ⟨[], [], .idle, [], []⟩) = (startOutput : Config _ _ (Pc ρ × _)) := by
    unfold duo startOutput
    congr 1
    funext i
    cases i <;> rfl
  exact hstart ▸ .refl

theorem owner_step {s s' : Members (Fin 1) ρ × Output (Fin 1)} {k k' l : Pc ρ × Locals ρ}
    (h : Reaches (Prints hsScan data) startOutput (duo s k l)) (ha : Prints hsScan data none s k s' k') :
    Reaches (Prints hsScan data) startOutput (duo s' k' l) := by
  have hmove : (duo s k l).move none s' k' = duo s' k' l := by
    unfold duo Config.move
    congr 1
    funext i
    cases i <;> rfl
  exact hmove ▸ h.step none ha

theorem worker_step {s s' : Members (Fin 1) ρ × Output (Fin 1)} {k l l' : Pc ρ × Locals ρ}
    (h : Reaches (Prints hsScan data) startOutput (duo s k l))
    (ha : Prints hsScan data (some 0) s l s' l') :
    Reaches (Prints hsScan data) startOutput (duo s' k l') := by
  have hmove : (duo s k l).move (some 0) s' l' = duo s' k l' := by
    unfold duo Config.move
    congr 1
    funext i
    cases i with
    | none => rfl
    | some w => rw [Subsingleton.elim w 0]; rfl
  exact hmove ▸ h.step (some 0) ha

/-- The match starts with the newline in front of its line. -/
theorem handler_prints_one_line :
    ∃ d : Config (Option (Fin 1)) (Members (Fin 1) Nat × Output (Fin 1)) (Pc Nat × Locals Nat),
      Reaches (Prints (fun _ => [(0, 3)]) fun _ : Nat => [10, 97, 98]) startOutput d ∧
        (∀ w, (d.pc (some w)).2.place = .returned) ∧ d.shared.1.scanned = [7] ∧
        ∃ printed : List Line, d.shared.2.stdout = printed.flatten ∧ printed.Perm [[97, 98, 10]] := by
  have h := duo_start (ρ := Nat) (fun _ => [(0, 3)]) fun _ => [10, 97, 98]
  have h := owner_step h (.other (.work (.call 7)) (by rintro _ ⟨⟩) rfl rfl)
  have h := owner_step h (.other (.work (.enter rfl)) (by rintro _ ⟨⟩) rfl rfl)
  have h := owner_step h (.other (.work .push) (by rintro _ ⟨⟩) rfl rfl)
  have h := owner_step h (.other (.work (.notifyNone rfl)) (by rintro _ ⟨⟩) rfl rfl)
  have h := owner_step h (.other (.work .leave) (by rintro _ ⟨⟩) rfl rfl)
  have h := worker_step h (.other (.work (.testRunning rfl)) (by rintro _ ⟨⟩) rfl rfl)
  have h := worker_step h (.other (.work (.lock rfl)) (by rintro _ ⟨⟩) rfl rfl)
  have h := worker_step h
    (.other (.work (.predTrue (.inr (List.cons_ne_nil _ _)))) (by rintro _ ⟨⟩) rfl rfl)
  have h := worker_step h (.other (.work (.goOn rfl)) (by rintro _ ⟨⟩) rfl rfl)
  have h := worker_step h (.other (.work (.pop rfl)) (by rintro _ ⟨⟩) rfl rfl)
  have h := worker_step h .scan
  have h := worker_step h (.append rfl rfl)
  have h := worker_step h (.other (.work .free) (by rintro _ ⟨⟩) rfl rfl)
  have h := owner_step h (.other (.work .dtorStore) (by rintro _ ⟨⟩) rfl rfl)
  have h := worker_step h (.other (.work (.testStopped rfl)) (by rintro _ ⟨⟩) rfl rfl)
  have h := worker_step h (.finish rfl)
  have h := worker_step h (.lastLock rfl rfl)
  have h := worker_step h (.lastWrite 3 rfl (by decide))
  refine ⟨_, h, fun _ => rfl, rfl, ?_⟩
  have hiff := handler_prints_every_line_iff _ h fun _ => rfl
  have hfull := hiff.mpr (List.forall_mem_singleton.mpr rfl)
  exact hfull.imp fun printed hp => ⟨hp.1, hp.2.1⟩

end Omnipp.Utils.RegexHandler
