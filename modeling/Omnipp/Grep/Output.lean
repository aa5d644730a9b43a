import Mathlib.Data.Fintype.Basic
import Omnipp.Grep.Blocks
import Omnipp.Grep.Engines
import Omnipp.Grep.Worker
import Omnipp.Sink.Shared

/-! # What the workers of `grep` put on stdout -/

open Omnipp.Sink Omnipp.Threads Omnipp.Transform

namespace Omnipp.Grep

variable {ι : Type} [DecidableEq ι]

/-! ## No match is lost -/

theorem payloads_text (lines : List Bytes) : (payloads (printed lines)).flatten = text lines := by
  rw [payloads_flatten, printed_flatten]

theorem finished_log {wants : Nat → Nat} {calls : ι → List Bytes} {c : Config ι (Sink.Shared ι) Sink.Pc}
    (h : Reaches Sink.Moves (Sink.start wants calls) c) (hfin : Finished c) :
    ∃ done, c.shared.log = done.flatMap spread ∧ ∀ i, of i done = calls i := by
  obtain ⟨done, hw⟩ := wrote_run h
  have hfree : c.shared.owner = none := by
    cases ho : c.shared.owner with
    | none => rfl
    | some i =>
      have := (hw.mutex i).mpr ho
      rw [hfin i] at this
      exact this.elim
  refine ⟨done, hw.free hfree, fun i => ?_⟩
  have := hw.split i
  rw [hfin i] at this
  simpa [Sink.Pc.left] using this

/-- The payloads of a worker are its lines, each with a newline. At every moment stdout is a sequence
of whole payloads, each worker's in order, and behind it what one worker at the mutex has written of
its next one. -/
theorem grep_loses_nothing (hsScan : Bytes → Option (List Nat)) (files : ι → List CutFile)
    (hscan : ∀ i, Scans hsScan (files i)) (wants : Nat → Nat) :
    (∀ i, (sinkCalls hsScan (files i)).flatten = text (linesOf hsScan (files i))) ∧
    ∀ c, Reaches Sink.Moves (Sink.start wants fun i => sinkCalls hsScan (files i)) c →
      c.shared.out.bytes = c.shared.log.map Prod.snd ∧
      (∃ done : List (ι × Bytes),
        (∀ i, of i done ++ (c.pc i).left = sinkCalls hsScan (files i)) ∧
        (c.shared.owner = none → c.shared.log = done.flatMap spread) ∧
        ∀ i data amount todo, c.pc i = .writing data amount todo →
          c.shared.log = done.flatMap spread ++ spread (i, data.take amount)) ∧
      (Finished c → ∃ done : List (ι × Bytes), c.shared.log = done.flatMap spread ∧
        ∀ i, of i done = sinkCalls hsScan (files i)) := by
  refine ⟨fun i => ?_, fun c hc => ?_⟩
  · rw [sinkCalls_eq (hscan i), payloads_text]
  · obtain ⟨done, hw⟩ := wrote_run hc
    refine ⟨hw.bytes.symm, ⟨done, hw.split, hw.free, ?_⟩, finished_log hc⟩
    intro i data amount todo hp
    exact (hw.busy i data amount todo hp).2

def twoFiles : Bool → List CutFile
  | true => [⟨[97, 98], twoBlocks⟩]
  | false => [⟨[98], ⟨[[98]], rfl, by decide, by decide⟩⟩]

theorem grep_loses_nothing_of_two_files :
    (∀ i, Scans scanForA (twoFiles i)) ∧ text (linesOf scanForA (twoFiles true)) = [97, 10] ∧
      (sinkCalls scanForA (twoFiles true)).flatten = text (linesOf scanForA (twoFiles true)) := by
  have hscan : ∀ i, Scans scanForA (twoFiles i) := fun i b _ => by simp [scanForA]
  exact ⟨hscan, by decide, (grep_loses_nothing scanForA twoFiles hscan fun _ => 1).1 true⟩

/-! ## Lines -/

/-- Stdout is a sequence of emitted lines, each with its own newline right behind it, and each
worker's in order. -/
def Whole (lines : ι → List Bytes) (log : List (ι × Byte)) : Prop :=
  ∃ order : List (ι × Bytes), log = order.flatMap (fun x => spread (x.1, x.2 ++ [newline])) ∧
    ∀ i, of i order = lines i

/-- No line fills the buffer before its newline is in it. `fill` bytes are in the buffer. -/
def NoTear : Nat → List Bytes → Prop
  | _, [] => True
  | fill, line :: rest =>
    fill + line.length < bufferSize ∧
      NoTear (if bufferSize ≤ fill + line.length + 1 then 0 else fill + line.length + 1) rest

theorem text_append (xs ys : List Bytes) : text (xs ++ ys) = text xs ++ text ys :=
  List.flatMap_append

theorem text_cons (line : Bytes) (lines : List Bytes) : text (line :: lines) = text [line] ++ text lines :=
  text_append [line] lines

theorem text_singleton (line : Bytes) : text [line] = line ++ [newline] := by simp [text]

theorem filled_line {buffer line : Bytes} (rest : List Bytes)
    (h : buffer.length + line.length < bufferSize) :
    filled buffer (printed (line :: rest)) =
      if bufferSize ≤ buffer.length + line.length + 1 then
        ((buffer ++ text [line]) :: (filled [] (printed rest)).1, (filled [] (printed rest)).2)
      else filled (buffer ++ text [line]) (printed rest) := by
  have hpushes : printed (line :: rest) = line :: [newline] :: printed rest := rfl
  rw [hpushes, filled_room _ (by simpa using h), filled]
  simp [text_singleton, Nat.add_assoc]

theorem filled_of_noTear (pending : List Bytes) {lines : List Bytes}
    (h : NoTear (text pending).length lines) :
    ∃ (groups : List (List Bytes)) (last : List Bytes),
      (filled (text pending) (printed lines)).1 = groups.map text ∧
      (filled (text pending) (printed lines)).2 = text last ∧
      groups.flatten ++ last = pending ++ lines := by
  induction lines generalizing pending with
  | nil => exact ⟨[], pending, rfl, rfl, by simp⟩
  | cons line rest ih =>
    obtain ⟨hroom, hrest⟩ := h
    rw [filled_line rest hroom, ← text_append]
    split
    · rename_i hfull
      rw [if_pos hfull] at hrest
      obtain ⟨groups, last, hfilled, hlast, hflat⟩ := ih [] hrest
      refine ⟨(pending ++ [line]) :: groups, last, ?_, hlast, ?_⟩
      · rw [List.map_cons, ← hfilled]
        rfl
      · simpa using hflat
    · rename_i hfull
      rw [if_neg hfull] at hrest
      have hlen : (text (pending ++ [line])).length = (text pending).length + line.length + 1 := by
        simp [text_append, text_singleton, Nat.add_assoc]
      obtain ⟨groups, last, hfilled, hlast, hflat⟩ := ih (pending ++ [line]) (hlen ▸ hrest)
      exact ⟨groups, last, hfilled, hlast, by simpa using hflat⟩

theorem payloads_of_noTear {lines : List Bytes} (h : NoTear 0 lines) :
    ∃ groups : List (List Bytes), payloads (printed lines) = groups.map text ∧ groups.flatten = lines := by
  obtain ⟨groups, last, hfilled, hlast, hflat⟩ := filled_of_noTear [] h
  refine ⟨groups ++ [last], ?_, by simpa using hflat⟩
  rw [List.map_append, ← hfilled, List.map_singleton, ← hlast]
  rfl

omit [DecidableEq ι] in
theorem spread_text (i : ι) (lines : List Bytes) :
    spread (i, text lines) = (lines.map fun line => (i, line)).flatMap fun x =>
      spread (x.1, x.2 ++ [newline]) := by
  simp [spread, text, List.map_flatMap, List.flatMap_map]

theorem whole_of_groups {done : List (ι × Bytes)} {groups : ι → List (List Bytes)}
    (h : ∀ i, of i done = (groups i).map text) :
    Whole (fun i => (groups i).flatten) (done.flatMap spread) := by
  induction done generalizing groups with
  | nil =>
    have hnil : ∀ i, groups i = [] := fun i => by simpa [of] using (h i).symm
    exact ⟨[], rfl, fun i => by simp [of, hnil i]⟩
  | cons x done ih =>
    obtain ⟨i, data⟩ := x
    have hi := h i
    rw [of_cons, if_pos rfl] at hi
    obtain ⟨group, rest, hgroup⟩ : ∃ group rest, groups i = group :: rest := by
      cases hg : groups i with
      | nil => simp [hg] at hi
      | cons group rest => exact ⟨group, rest, rfl⟩
    rw [hgroup, List.map_cons, List.cons.injEq] at hi
    obtain ⟨order, hlog, horder⟩ := @ih (Function.update groups i rest) (by
      intro j
      by_cases hj : j = i
      · subst hj
        rw [Function.update_self, hi.2]
      · rw [Function.update_of_ne hj, ← h j, of_cons, if_neg (Ne.symm hj)])
    refine ⟨(group.map fun line => (i, line)) ++ order, ?_, fun j => ?_⟩
    · rw [List.flatMap_cons, hlog, List.flatMap_append, ← spread_text, hi.1]
    · have hj := horder j
      rw [of_append, hj]
      by_cases hji : j = i
      · subst hji
        simp only [of_map_self, Function.update_self, hgroup, List.flatten_cons]
      · simp only [of_map_of_ne (Ne.symm hji), Function.update_of_ne hji, List.nil_append]

theorem whole_of_alone {done : List (ι × Bytes)} {lines : ι → List Bytes} (i : ι)
    (h : ∀ j, of j done = payloads (printed (lines j))) (halone : ∀ j, j ≠ i → lines j = []) :
    Whole lines (done.flatMap spread) := by
  have hlog : ∀ xs : List (ι × Bytes), (∀ j, j ≠ i → ∀ data ∈ of j xs, data = []) →
      xs.flatMap spread = spread (i, (of i xs).flatten) := by
    intro xs
    induction xs with
    | nil => intro _; rfl
    | cons x xs ih =>
      intro hxs
      obtain ⟨j, data⟩ := x
      have hrest := ih fun k hk data hdata => hxs k hk data (by rw [of_cons]; split <;> simp [hdata])
      rw [List.flatMap_cons, hrest, of_cons]
      by_cases hj : j = i
      · subst hj
        rw [if_pos rfl, List.flatten_cons, spread_append]
      · rw [if_neg hj, hxs j hj data (by rw [of_cons, if_pos rfl]; exact List.mem_cons_self)]
        rfl
  refine ⟨(lines i).map fun line => (i, line), ?_, fun j => ?_⟩
  · rw [hlog done, h i, payloads_text, spread_text]
    intro j hj data hdata
    rw [h j, halone j hj] at hdata
    simpa [payloads, filled, printed] using hdata
  · by_cases hj : j = i
    · subst hj
      exact of_map_self j _
    · rw [of_map_of_ne (Ne.symm hj), halone j hj]

/-! ## Torn lines -/

theorem filled_of_tear {buffer : Bytes} {lines : List Bytes} (hbuf : buffer.length < bufferSize)
    (h : ¬ NoTear buffer.length lines) :
    ∃ before line behind front back, lines = before ++ line :: behind ∧ line ≠ [] ∧
      (filled buffer (printed lines)).1 = front ++ back ∧
      front.flatten = buffer ++ (text before ++ line) := by
  induction lines generalizing buffer with
  | nil => exact absurd trivial h
  | cons line rest ih =>
    by_cases hroom : buffer.length + line.length < bufferSize
    · have hlen : (buffer ++ text [line]).length = buffer.length + line.length + 1 := by
        simp [text_singleton, Nat.add_assoc]
      rw [NoTear, not_and] at h
      have hrest := h hroom
      rw [filled_line rest hroom]
      split
      · rename_i hfull
        rw [if_pos hfull] at hrest
        obtain ⟨before, line', behind, front, back, rfl, hne, hfilled, hflat⟩ :=
          @ih [] (by decide) hrest
        refine ⟨line :: before, line', behind, (buffer ++ text [line]) :: front, back, rfl, hne, ?_, ?_⟩
        · rw [hfilled]
          rfl
        · rw [List.flatten_cons, hflat, text_cons line before]
          simp
      · rename_i hfull
        rw [if_neg hfull] at hrest
        obtain ⟨before, line', behind, front, back, rfl, hne, hfilled, hflat⟩ :=
          @ih (buffer ++ text [line]) (by omega) (hlen ▸ hrest)
        refine ⟨line :: before, line', behind, front, back, rfl, hne, hfilled, ?_⟩
        rw [hflat, text_cons line before]
        simp
    · have hpushes : printed (line :: rest) = line :: [newline] :: printed rest := rfl
      refine ⟨[], line, rest, [buffer ++ line], (filled [] ([newline] :: printed rest)).1, rfl, ?_, ?_,
        by simp [text]⟩
      · rintro rfl
        simp only [List.length_nil] at hroom
        omega
      · rw [hpushes, filled_full _ (by rw [List.length_append]; omega)]
        rfl

section Switch
omit [DecidableEq ι]

theorem spread_inj {i m : ι} {xs ys : Bytes} (h : spread (i, xs) = spread (m, ys)) (hne : ys ≠ []) :
    i = m ∧ xs = ys := by
  have hxs : xs = ys := by
    have := congrArg (List.map Prod.snd) h
    simpa [spread, Function.comp_def] using this
  subst hxs
  obtain ⟨x, xs, rfl⟩ := List.exists_cons_of_ne_nil hne
  simp only [spread, List.map_cons, List.cons.injEq, Prod.mk.injEq] at h
  exact ⟨h.1.1, rfl⟩

theorem spread_eq_append {i : ι} {front : Bytes} {xs ys : List (ι × Byte)}
    (h : spread (i, front) = xs ++ ys) :
    ∃ left right, front = left ++ right ∧ xs = spread (i, left) ∧ ys = spread (i, right) := by
  obtain ⟨left, right, hfront, hxs, hys⟩ := List.map_eq_append_iff.mp h
  exact ⟨left, right, hfront, hxs.symm, hys.symm⟩

/-- Whole lines in front of another worker's byte are lines of the worker in front of it. -/
theorem lines_before_switch {i j : ι} (hij : i ≠ j) {order : List (ι × Bytes)} {front : Bytes} {b : Byte}
    {tail : List (ι × Byte)}
    (h : order.flatMap (fun x => spread (x.1, x.2 ++ [newline])) = spread (i, front) ++ (j, b) :: tail) :
    ∃ lines rest, order = (lines.map fun line => (i, line)) ++ rest ∧ text lines = front := by
  induction order generalizing front with
  | nil => simp [spread] at h
  | cons x order ih =>
    obtain ⟨m, line⟩ := x
    by_cases hfront : front = []
    · exact ⟨[], _, rfl, hfront.symm⟩
    · rw [List.flatMap_cons] at h
      rcases List.append_eq_append_iff.mp h with ⟨as, has, hrest⟩ | ⟨bs, hbs, hrest⟩
      · obtain ⟨left, right, rfl, hleft, rfl⟩ := spread_eq_append has
        obtain ⟨rfl, rfl⟩ := spread_inj hleft.symm (by simp)
        obtain ⟨lines, rest, rfl, rfl⟩ := ih hrest
        exact ⟨line :: lines, rest, rfl, by rw [text_cons, text_singleton]⟩
      · -- The line reaches to the byte of the other worker, or over it.
        obtain ⟨left, right, hline, hleft, rfl⟩ := spread_eq_append hbs
        have hleft' : left ≠ [] := by
          rintro rfl
          exact hfront (by simpa [spread] using hleft)
        obtain ⟨rfl, rfl⟩ := spread_inj hleft hleft'
        cases right with
        | nil =>
          rw [List.append_nil] at hline
          obtain ⟨lines, rest, rfl, hlines⟩ := @ih [] (by simpa [spread] using hrest.symm)
          exact ⟨line :: lines, rest, rfl, by rw [text_cons, hlines, text_singleton, hline]; simp⟩
        | cons y right =>
          simp only [spread, List.map_cons, List.cons_append, List.cons.injEq, Prod.mk.injEq] at hrest
          exact absurd hrest.1.1.symm hij

end Switch

theorem not_whole_of_tear {lines : ι → List Bytes} {i j : ι} (hij : i ≠ j) {before behind : List Bytes}
    {line : Bytes} (hlines : lines i = before ++ line :: behind) (hne : line ≠ []) {b : Byte}
    {tail : List (ι × Byte)} : ¬ Whole lines (spread (i, text before ++ line) ++ (j, b) :: tail) := by
  rintro ⟨order, hlog, horder⟩
  obtain ⟨mine, rest, rfl, htext⟩ := lines_before_switch hij hlog.symm
  have hi := horder i
  rw [of_append, of_map_self, hlines] at hi
  have hpos := List.length_pos_iff.mpr hne
  have hlen := congrArg List.length htext
  rw [List.length_append] at hlen
  rcases List.append_eq_append_iff.mp hi with ⟨as, rfl, -⟩ | ⟨bs, rfl, hbs⟩
  · rw [text_append, List.length_append] at hlen
    omega
  · cases bs with
    | nil =>
      rw [List.append_nil] at hlen
      omega
    | cons first bs =>
      rw [List.cons_append, List.cons.injEq] at hbs
      rw [text_append, text_cons, text_singleton, ← hbs.1] at hlen
      simp only [List.length_append, List.length_cons, List.length_nil] at hlen
      omega

omit [DecidableEq ι] in
theorem flatMap_spread_map (i : ι) (xs : List Bytes) :
    (xs.map fun x => (i, x)).flatMap spread = spread (i, xs.flatten) := by
  induction xs with
  | nil => rfl
  | cons x xs ih => rw [List.map_cons, List.flatMap_cons, ih, List.flatten_cons, spread_append]

theorem of_in_turn (calls : ι → List Bytes) {who : List ι} (hnodup : who.Nodup) (m : ι) :
    of m (who.flatMap fun k => (calls k).map fun x => (k, x)) = if m ∈ who then calls m else [] := by
  induction who with
  | nil => rfl
  | cons k who ih =>
    obtain ⟨hk, hwho⟩ := List.nodup_cons.mp hnodup
    rw [List.flatMap_cons, of_append, ih hwho]
    by_cases hm : m = k
    · subst hm
      rw [of_map_self, if_neg hk, if_pos List.mem_cons_self, List.append_nil]
    · rw [of_map_of_ne (Ne.symm hm), List.nil_append]
      simp [hm]

/-- A worker with a torn line, and another one that writes: some run tears the line. -/
theorem tearing_run [Fintype ι] (wants : Nat → Nat) {lines : ι → List Bytes} {i j : ι} (hij : i ≠ j)
    (htear : ¬ NoTear 0 (lines i)) (hj : lines j ≠ []) :
    ∃ c, Reaches Sink.Moves (Sink.start wants fun i => batched (printed (lines i))) c ∧ Finished c ∧
      ¬ Whole lines c.shared.log := by
  simp only [batched_eq]
  obtain ⟨before, line, behind, front, back, hlines, hne, hfilled, hflat⟩ :=
    @filled_of_tear [] (lines i) (by decide) htear
  have hcalls : payloads (printed (lines i)) = front ++ (back ++ [(filled [] (printed (lines i))).2]) := by
    rw [payloads, hfilled, List.append_assoc]
  generalize back ++ [(filled [] (printed (lines i))).2] = later at hcalls
  let calls := fun k => payloads (printed (lines k))
  let others := (Finset.univ.filter fun k => k ≠ i ∧ k ≠ j).toList
  let order : List (ι × Bytes) := (front.map fun x => (i, x)) ++ ((calls j).map fun x => (j, x)) ++
    (later.map fun x => (i, x)) ++ others.flatMap fun k => (calls k).map fun x => (k, x)
  have horder : ∀ m, of m order = calls m := by
    intro m
    have hnodup : others.Nodup := Finset.nodup_toList _
    have hothers := of_in_turn calls hnodup m
    simp only [order, of_append, others, hothers, Finset.mem_toList, Finset.mem_filter,
      Finset.mem_univ, true_and]
    by_cases hmi : m = i
    · subst hmi
      simp [of_map_self, of_map_of_ne (Ne.symm hij), calls, hcalls]
    · by_cases hmj : m = j
      · subst hmj
        simp [of_map_self, of_map_of_ne hij]
      · simp [of_map_of_ne (Ne.symm hmi), of_map_of_ne (Ne.symm hmj), hmi, hmj]
  obtain ⟨c, hrun, hfin, hlog⟩ := start_in_order wants order horder
  have htext : (calls j).flatten ≠ [] := by
    obtain ⟨first, rest, hfirst⟩ := List.exists_cons_of_ne_nil hj
    rw [payloads_text, hfirst, text_cons, text_singleton]
    simp
  obtain ⟨b, bytes, hbytes⟩ := List.exists_cons_of_ne_nil htext
  refine ⟨c, hrun, hfin, ?_⟩
  simp only [order, List.flatMap_append, flatMap_spread_map] at hlog
  rw [hlog, hflat, hbytes, List.nil_append, List.append_assoc, List.append_assoc]
  exact not_whole_of_tear hij hlines hne

/-- No run tears a line exactly when no worker's buffer is filled by a line, or only one worker has
lines. -/
theorem lines_never_torn_iff [Fintype ι] (lines : ι → List Bytes) (wants : Nat → Nat) :
    (∀ c, Reaches Sink.Moves (Sink.start wants fun i => batched (printed (lines i))) c → Finished c →
      Whole lines c.shared.log) ↔
      (∀ i, NoTear 0 (lines i)) ∨ ∀ i j, lines i ≠ [] → lines j ≠ [] → i = j := by
  constructor
  · intro hall
    by_contra hcon
    simp only [not_or, not_forall] at hcon
    obtain ⟨⟨i, htear⟩, a, b, ha, hb, hab⟩ := hcon
    obtain ⟨j, hij, hj⟩ : ∃ j, i ≠ j ∧ lines j ≠ [] := by
      by_cases hia : i = a
      · exact ⟨b, hia ▸ hab, hb⟩
      · exact ⟨a, hia, ha⟩
    obtain ⟨c, hrun, hfin, hnot⟩ := tearing_run wants hij htear hj
    exact hnot (hall c hrun hfin)
  · intro hcond c hrun hfin
    simp only [batched_eq] at hrun
    obtain ⟨done, hlog, hdone⟩ := finished_log hrun hfin
    rw [hlog]
    by_cases htear : ∀ i, NoTear 0 (lines i)
    · choose groups hgroups hflat using fun i => payloads_of_noTear (htear i)
      have := whole_of_groups fun i => (hdone i).trans (hgroups i)
      simpa only [hflat] using this
    · obtain ⟨i, hi⟩ := not_forall.mp htear
      have hlines : lines i ≠ [] := fun hnil => hi (by rw [hnil]; trivial)
      refine whole_of_alone i hdone fun j hj => ?_
      by_contra hne
      exact hj (hcond.resolve_left htear j i hne hlines)

def longAndShort : Bool → List Bytes
  | true => [List.replicate 65536 97]
  | false => [[98]]

/-- The long line goes out without its newline, and the short one comes between. -/
theorem long_line_can_be_torn :
    ∃ c, Reaches Sink.Moves (Sink.start (fun _ => 65536) fun i => batched (printed (longAndShort i))) c ∧
      Finished c ∧ ¬ Whole longAndShort c.shared.log := by
  refine tearing_run _ (show true ≠ false by decide) ?_ (List.cons_ne_nil _ _)
  rintro ⟨hroom, -⟩
  rw [List.length_replicate] at hroom
  exact absurd hroom (by decide)

end Omnipp.Grep
