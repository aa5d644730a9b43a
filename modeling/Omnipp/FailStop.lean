import Omnipp.Sink.Write
import Omnipp.Source.ReadFile
import Omnipp.Transform.Batch
import Omnipp.Transform.Re2Regex
import Omnipp.Transform.SimpleRegex
import Omnipp.Transform.TreeSitter
import Omnipp.Transform.VectorScan

/-! # Pipelines stop at the first error

A pipeline is watched by a tape: every call of a stage and every return is put on it. The stages are
numbered from the sink up, which is stage 0.
-/

open Omnipp.Lines Omnipp.Source Omnipp.Transform

namespace Omnipp

/-- `execute`. The error is the text of the `std::runtime_error` that it throws. -/
def execute {α σ : Type} (pipeline : Stage α σ) (x : α) (s : σ) : Except String Unit × σ :=
  andThen (pipeline x s) fun _ t => (.ok (), t)

/-! ## Scripts

Between two calls of its next stage a node only computes: its input fixes what it calls `next` on.
-/

def Scripted {α β : Type} (node : ∀ σ : Type, Stage β σ → Stage α σ) : Prop :=
  ∀ x, ∃ items : List β, ∃ finish : Nat → Expected, ∀ (σ : Type) (next : Stage β σ) (s : σ),
    node σ next x s = andThen (feed next items s) fun n t => (finish n, t)

theorem vectorScan_scripted (hsScan : Bytes → Option (List Nat)) :
    Scripted fun _ => vectorScan hsScan := by
  intro data
  rcases h : hsScan data with _ | ends
  · refine ⟨[], fun _ => .error "failed to parse input", fun σ next s => ?_⟩
    simp only [vectorScan, h, feed, andThen_ok]
  · exact ⟨_, _, fun σ next s => vector_scan_spec next h s⟩

theorem re2Regex_scripted (partialMatch : Bytes → Bool) : Scripted fun _ => re2Regex partialMatch :=
  fun data => ⟨_, _, fun _ next s => re2_regex_spec partialMatch next data s⟩

theorem simpleLoop_scripted (regex : Regex) (found : Nat) (str : Bytes) :
    ∃ items : List (Bytes × Bool), ∃ finish : Expected,
      ∀ (σ : Type) (next : Stage (Bytes × Bool) σ) (s : σ),
        (simpleLoop regex next).run (found, str, s) =
          andThen (feed next items s) fun _ t => (finish, t) := by
  -- The text gets shorter with every pass.
  induction hn : str.length using Nat.strong_induction_on generalizing found str with
  | _ n ih =>
    subst hn
    rcases hs : regex.search str with what | _ | ⟨position, length⟩
    · refine ⟨[], .error what, fun σ next s => ?_⟩
      exact Loop.run_leave _ (by simp only [simpleLoop, hs, feed, andThen_ok])
    · refine ⟨[], .ok found, fun σ next s => ?_⟩
      exact Loop.run_leave _ (by simp only [simpleLoop, hs, feed, andThen_ok])
    · rcases hf : find newline str (position + length) with _ | nextNewline
      · refine ⟨[(simpleLine str position (position + length), true)], .ok (found + 1),
          fun σ next s => ?_⟩
        rw [Loop.run_leave _ (r := andThen (next (simpleLine str position (position + length), true) s)
          fun _ t => (.ok (found + 1), t))]
        · simp only [feed, andThen_ok, andThen_assoc]
        · simp only [simpleLoop, hs, hf]
          rcases next (simpleLine str position (position + length), true) s with ⟨_ | _, _⟩ <;> rfl
      · have hlt := find_lt hf
        obtain ⟨items, finish, hrest⟩ := ih (str.drop (nextNewline + 1)).length
          (by rw [List.length_drop]; omega) (found + 1) _ rfl
        refine ⟨(simpleLine str position (position + length), true) :: items, finish,
          fun σ next s => ?_⟩
        simp only [feed, andThen_ok, andThen_assoc]
        rcases hn : next (simpleLine str position (position + length), true) s with ⟨e | m, t⟩
        · exact Loop.run_leave _ (by simp only [simpleLoop, hs, hn, andThen_error])
        · rw [Loop.run_again _ (t := (found + 1, str.drop (nextNewline + 1), t))]
          · exact hrest σ next t
          · simp only [simpleLoop, hs, hn, hf]

theorem simpleRegex_scripted (regex : Regex) : Scripted fun _ => simpleRegex regex := by
  intro data
  obtain ⟨items, finish, h⟩ := simpleLoop_scripted regex 0 data
  exact ⟨items, fun _ => finish, h⟩

/-- The node fails before it calls `next`, or it calls it once and returns what it returns. -/
theorem treeSitter_once (ts : TreeSitter) (data : Bytes) :
    ∃ r : Except String Bytes, ∀ (σ : Type) (next : Stage Bytes σ) (s : σ),
      treeSitter ts next data s =
        match r with
        | .error e => (.error e, s)
        | .ok formatted => next formatted s := by
  unfold treeSitter
  split
  · exact ⟨.error _, fun _ _ _ => rfl⟩
  split
  · exact ⟨.error _, fun _ _ _ => rfl⟩
  split
  · exact ⟨.error _, fun _ _ _ => rfl⟩
  split
  · exact ⟨.error _, fun _ _ _ => rfl⟩
  split
  · exact ⟨.error _, fun _ _ _ => rfl⟩
  · exact ⟨format _ data, fun _ _ _ => rfl⟩

theorem treeSitter_scripted (ts : TreeSitter) : Scripted fun _ => treeSitter ts := by
  intro data
  obtain ⟨r, hr⟩ := treeSitter_once ts data
  rcases r with e | formatted
  · exact ⟨[], fun _ => .error e, hr⟩
  · refine ⟨[formatted], .ok, fun σ next s => ?_⟩
    simp only [hr, feed, andThen_ok, Nat.add_zero, andThen_pure]

theorem feed_map {α β σ : Type} (next : Stage β σ) (f : α → β) (xs : List α) (s : σ) :
    feed (fun x => next (f x)) xs s = feed next (xs.map f) s := by
  induction xs generalizing s with
  | nil => rfl
  | cons x xs ih => simp only [feed, ih, List.map_cons]

theorem Scripted.unforced {node : ∀ σ : Type, Stage Bytes σ → Stage Bytes σ} (h : Scripted node) :
    Scripted fun σ (next : Stage (Bytes × Bool) σ) => node σ fun data => next (data, false) := by
  intro x
  obtain ⟨items, finish, hx⟩ := h x
  refine ⟨items.map (·, false), finish, fun σ next s => ?_⟩
  simp only [hx, feed_map]

/-! ## Tapes -/

/-- Stage `n` is called, or it returns. -/
inductive Event where
  | call (n : Nat)
  | ret (n : Nat) (res : Expected)

structure Watched (σ : Type) where
  below : σ
  tape : List Event

/-- A state that holds a tape. -/
class Tape (τ : Type) where
  read : τ → List Event
  put : Event → τ → τ
  read_put : ∀ ev s, read (put ev s) = read s ++ [ev]

instance {σ : Type} : Tape (Watched σ) where
  read s := s.tape
  put ev s := { s with tape := s.tape ++ [ev] }
  read_put _ _ := rfl

instance {β τ : Type} [Tape τ] : Tape (β × τ) where
  read s := Tape.read s.2
  put ev s := (s.1, Tape.put ev s.2)
  read_put ev s := Tape.read_put ev s.2

/-- The stage, with its calls and returns on the tape. -/
def traced {α τ : Type} [Tape τ] (n : Nat) (stage : Stage α τ) : Stage α τ := fun x s =>
  let r := stage x (Tape.put (.call n) s)
  (r.1, Tape.put (.ret n r.1) r.2)

/-- A stage that knows nothing of the tape. -/
def lifted {α σ : Type} (stage : Stage α σ) : Stage α (Watched σ) := fun x s =>
  let r := stage x s.below
  (r.1, ⟨r.2, s.tape⟩)


def callsOf (n : Nat) (tape : List Event) : Nat :=
  tape.countP fun
    | .call m => m = n
    | .ret _ _ => false

def returnsOf (n : Nat) (tape : List Event) : List Expected :=
  tape.filterMap fun
    | .call _ => none
    | .ret m res => if m = n then some res else none

/-! ## The tape changes nothing -/

/-- What `stage` does to the states is what `watched` does to the states with a tape. -/
def Shadows {α σ τ : Type} (untape : τ → σ) (watched : Stage α τ) (stage : Stage α σ) : Prop :=
  ∀ x s, ((watched x s).1, untape (watched x s).2) = stage x (untape s)

section Shadows
variable {α β σ τ : Type} {untape : τ → σ}

theorem shadows_lifted (stage : Stage α σ) : Shadows Watched.below (lifted stage) stage :=
  fun _ _ => rfl

theorem Shadows.traced [Tape τ] {watched : Stage α τ} {stage : Stage α σ}
    (h : Shadows untape watched stage) (hput : ∀ ev s, untape (Tape.put ev s) = untape s) (n : Nat) :
    Shadows untape (traced n watched) stage := by
  intro x s
  have := h x (Tape.put (.call n) s)
  rw [hput] at this
  simp only [Omnipp.traced, hput, this]

theorem Shadows.feed {watched : Stage β τ} {next : Stage β σ} (h : Shadows untape watched next)
    (xs : List β) (s : τ) :
    ((feed watched xs s).1, untape (feed watched xs s).2) = feed next xs (untape s) := by
  induction xs generalizing s with
  | nil => rfl
  | cons x xs ih =>
    have hx := h x s
    rw [Omnipp.feed, Omnipp.feed, ← hx]
    rcases watched x s with ⟨e | n, t⟩
    · rfl
    · simp only [andThen_ok, ← ih t]
      rcases Omnipp.feed watched xs t with ⟨e | m, u⟩ <;> rfl

theorem Shadows.scripted {node : ∀ σ : Type, Stage β σ → Stage α σ} (hnode : Scripted node)
    {watched : Stage β τ} {next : Stage β σ} (h : Shadows untape watched next) :
    Shadows untape (node τ watched) (node σ next) := by
  intro x s
  obtain ⟨items, finish, hx⟩ := hnode x
  rw [hx, hx, ← h.feed items s]
  rcases Omnipp.feed watched items s with ⟨e | n, t⟩ <;> rfl

theorem Shadows.batch {watched : Stage Bytes τ} {next : Stage Bytes σ}
    (h : Shadows untape watched next) :
    Shadows (fun st : Bytes × τ => (st.1, untape st.2)) (batch watched) (batch next) := by
  intro data st
  have hnext := h (st.1 ++ data) st.2
  simp only [Transform.batch]
  split
  · simp only [← hnext]
    rcases watched (st.1 ++ data) st.2 with ⟨e | n, t⟩ <;> rfl
  · rfl

end Shadows

/-! ## The sink's error is the last word -/

/-- The errors of the sink on the tape. There is none, or it is what is returned, and behind it on
the tape the stages above return it one after the other. -/
def Stopped (tape : List Event) (res : Expected) : Prop :=
  callsOf 0 tape = (returnsOf 0 tape).length ∧
    ((∀ e, .error e ∉ returnsOf 0 tape) ∨
      ∃ front back e, res = .error e ∧ tape = front ++ .ret 0 (.error e) :: back ∧
        (∀ e, .error e ∉ returnsOf 0 front) ∧ ∀ ev ∈ back, ∃ n, ev = .ret (n + 1) (.error e))

section Stopped
variable {tape more : List Event} {res : Expected}

theorem callsOf_append (n : Nat) (tape more : List Event) :
    callsOf n (tape ++ more) = callsOf n tape + callsOf n more := List.countP_append

theorem returnsOf_append (n : Nat) (tape more : List Event) :
    returnsOf n (tape ++ more) = returnsOf n tape ++ returnsOf n more := List.filterMap_append

theorem Stopped.calm {n : Nat} (h : Stopped tape (.ok n)) : ∀ e, .error e ∉ returnsOf 0 tape := by
  rcases h.2 with hcalm | ⟨_, _, _, herr, _⟩
  · exact hcalm
  · cases herr

theorem Stopped.finish (h : Stopped tape res) {n : Nat} (hok : res = .ok n) (res' : Expected) :
    Stopped tape res' := by
  subst hok
  exact ⟨h.1, .inl h.calm⟩

theorem Stopped.append {n : Nat} (h : Stopped tape (.ok n)) (h' : Stopped more res) :
    Stopped (tape ++ more) res := by
  have hcalm := h.calm
  obtain ⟨hbal, -⟩ := h
  obtain ⟨hbal', herr⟩ := h'
  refine ⟨?_, ?_⟩
  · rw [callsOf_append, returnsOf_append, List.length_append, hbal, hbal']
  · rcases herr with hcalm' | ⟨front, back, e, hres, rfl, hfront, hback⟩
    · left
      intro e he
      rw [returnsOf_append, List.mem_append] at he
      exact he.elim (hcalm e) (hcalm' e)
    · refine .inr ⟨tape ++ front, back, e, hres, by simp, ?_, hback⟩
      intro e' he
      rw [returnsOf_append, List.mem_append] at he
      exact he.elim (hcalm e') (hfront e')

/-- A stage above the sink is called and returns. -/
theorem Stopped.traced (h : Stopped tape res) (n : Nat) :
    Stopped (.call (n + 1) :: tape ++ [.ret (n + 1) res]) res := by
  obtain ⟨hbal, herr⟩ := h
  have hreturns : ∀ evs, returnsOf 0 (.call (n + 1) :: evs ++ [.ret (n + 1) res]) = returnsOf 0 evs := by
    intro evs
    simp [returnsOf]
  refine ⟨?_, ?_⟩
  · rw [hreturns, ← hbal]
    simp [callsOf]
  · rcases herr with hcalm | ⟨front, back, e, rfl, rfl, hfront, hback⟩
    · rw [hreturns]
      exact .inl hcalm
    · refine .inr ⟨.call (n + 1) :: front, back ++ [.ret (n + 1) (.error e)], e, rfl, by simp, ?_, ?_⟩
      · simpa [returnsOf] using hfront
      · intro ev hev
        rcases List.mem_append.mp hev with hev | hev
        · exact hback ev hev
        · exact ⟨n, List.mem_singleton.mp hev⟩

theorem stopped_nil (res : Expected) : Stopped [] res :=
  ⟨rfl, .inl fun _ h => absurd h List.not_mem_nil⟩

theorem stopped_sink (res : Expected) : Stopped [.call 0, .ret 0 res] res := by
  refine ⟨rfl, ?_⟩
  rcases res with e | n
  · refine .inr ⟨[.call 0], [], e, rfl, rfl, ?_, by simp⟩
    simp [returnsOf]
  · left
    simp [returnsOf]

/-- The sink's error with its place on the tape. -/
theorem Stopped.at_error (h : Stopped tape res) {k : Nat} {e : String}
    (hk : (returnsOf 0 tape)[k]? = some (.error e)) :
    (∃ front back, tape = front ++ .ret 0 (.error e) :: back ∧ ∀ n, .call n ∉ back) ∧
      callsOf 0 tape = k + 1 ∧ res = .error e := by
  obtain ⟨hbal, hcalm | ⟨front, back, e', hres, rfl, hfront, hback⟩⟩ := h
  · exact absurd (List.mem_of_getElem? hk) (hcalm e)
  · have hnone : returnsOf 0 back = [] := by
      rw [returnsOf, List.filterMap_eq_nil_iff]
      intro ev hev
      obtain ⟨n, rfl⟩ := hback ev hev
      simp
    have hall : returnsOf 0 (front ++ .ret 0 (.error e') :: back) = returnsOf 0 front ++ [.error e'] := by
      rw [returnsOf_append]
      simpa [returnsOf] using hnone
    rw [hall] at hk hbal
    have hlt := (List.getElem?_eq_some_iff.mp hk).1
    rw [List.length_append, List.length_singleton] at hlt hbal
    have hlast : k = (returnsOf 0 front).length := by
      by_contra hne
      rw [List.getElem?_append_left (by omega)] at hk
      exact hfront e (List.mem_of_getElem? hk)
    subst hlast
    simp only [List.getElem?_concat_length, Option.some.injEq, Except.error.injEq] at hk
    subst hk
    refine ⟨⟨front, back, rfl, fun n hn => ?_⟩, hbal, hres⟩
    obtain ⟨m, hm⟩ := hback _ hn
    cases hm

end Stopped

/-- On every input the stage adds to the tape, and nothing behind an error of the sink but that the
stages return it. -/
def FailStop {α τ : Type} [Tape τ] (stage : Stage α τ) : Prop :=
  ∀ x s, ∃ tape, Tape.read (stage x s).2 = Tape.read s ++ tape ∧ Stopped tape (stage x s).1

section FailStop
variable {α β σ τ : Type} [Tape τ]

theorem failStop_sink (sink : Stage α σ) : FailStop (traced 0 (lifted sink)) :=
  fun x s => ⟨[.call 0, .ret 0 (sink x s.below).1], by simp [traced, lifted, Tape.read, Tape.put],
    stopped_sink _⟩

theorem FailStop.traced {stage : Stage α τ} (h : FailStop stage) (n : Nat) :
    FailStop (traced (n + 1) stage) := by
  intro x s
  obtain ⟨tape, htape, hstop⟩ := h x (Tape.put (.call (n + 1)) s)
  refine ⟨_, ?_, hstop.traced n⟩
  simp only [Omnipp.traced, Tape.read_put, htape]
  simp

theorem FailStop.feed {next : Stage β τ} (h : FailStop next) (xs : List β) (s : τ) :
    ∃ tape, Tape.read (feed next xs s).2 = Tape.read s ++ tape ∧ Stopped tape (feed next xs s).1 := by
  induction xs generalizing s with
  | nil => exact ⟨[], (List.append_nil _).symm, stopped_nil _⟩
  | cons x xs ih =>
    obtain ⟨first, hfirst, hstop⟩ := h x s
    rw [Omnipp.feed]
    rcases hx : next x s with ⟨e | n, t⟩
    · rw [hx] at hfirst hstop
      exact ⟨first, hfirst, hstop⟩
    · rw [hx] at hfirst hstop
      obtain ⟨rest, hrest, hstop'⟩ := ih t
      refine ⟨first ++ rest, ?_, hstop.append ?_⟩
      · rw [← List.append_assoc, ← hfirst, ← hrest, andThen_ok]
        rcases Omnipp.feed next xs t with ⟨e | m, u⟩ <;> rfl
      · rw [andThen_ok]
        rcases hxs : Omnipp.feed next xs t with ⟨e | m, u⟩
        · rw [hxs] at hstop'
          exact hstop'
        · rw [hxs] at hstop'
          exact hstop'.finish rfl _

theorem FailStop.scripted {node : ∀ σ : Type, Stage β σ → Stage α σ} (hnode : Scripted node)
    {next : Stage β τ} (h : FailStop next) : FailStop (node τ next) := by
  intro x s
  obtain ⟨items, finish, hx⟩ := hnode x
  obtain ⟨tape, htape, hstop⟩ := h.feed items s
  rw [hx]
  refine ⟨tape, ?_, ?_⟩
  · rw [← htape]
    rcases Omnipp.feed next items s with ⟨e | n, t⟩ <;> rfl
  · rcases hf : Omnipp.feed next items s with ⟨e | n, t⟩
    · rw [hf] at hstop
      exact hstop
    · rw [hf] at hstop
      exact hstop.finish rfl _

theorem FailStop.batch {next : Stage Bytes τ} (h : FailStop next) : FailStop (batch next) := by
  intro data st
  simp only [Transform.batch]
  split
  · obtain ⟨tape, htape, hstop⟩ := h (st.1 ++ data) st.2
    refine ⟨tape, ?_, ?_⟩
    · rcases hn : next (st.1 ++ data) st.2 with ⟨e | n, t⟩
      · rw [hn] at htape
        exact htape
      · rw [hn] at htape
        exact htape
    · rcases hn : next (st.1 ++ data) st.2 with ⟨e | n, t⟩
      · rw [hn] at hstop
        exact hstop
      · rw [hn] at hstop
        exact hstop
  · exact ⟨[], (List.append_nil _).symm, stopped_nil _⟩

end FailStop

/-! ## The pipelines -/

section Pipelines
variable {σ τ : Type}

/-- `ReadFile | node | Batch | sink`. `Batch` does not force newlines. -/
def throughBatch (node : ∀ τ : Type, Stage Bytes τ → Stage Bytes τ) (sink : Stage (Bytes × Bool) σ) :
    Stage Nat (Reader × Bytes × σ) :=
  readFile (node _ (batch fun data => sink (data, false)))

def throughBatchWatched (node : ∀ τ : Type, Stage Bytes τ → Stage Bytes τ) (sink : Stage (Bytes × Bool) σ) :
    Stage Nat (Reader × Bytes × Watched σ) :=
  readFile (traced 2 (node _ (traced 1 (batch fun data => traced 0 (lifted sink) (data, false)))))

/-- `ReadFile | node | sink` -/
def direct (node : ∀ τ : Type, Stage (Bytes × Bool) τ → Stage Bytes τ)
    (sink : Stage (Bytes × Bool) σ) : Stage Nat (Reader × σ) :=
  readFile (node _ sink)

def directWatched (node : ∀ τ : Type, Stage (Bytes × Bool) τ → Stage Bytes τ)
    (sink : Stage (Bytes × Bool) σ) : Stage Nat (Reader × Watched σ) :=
  readFile (traced 1 (node _ (traced 0 (lifted sink))))

/-- When the sink's call number `k` returns an error, counted from 0, no stage is called any more, the
sink was called `k + 1` times, and the error is what is thrown. -/
def StopsAtError (thrown : Except String Unit) (tape : List Event) : Prop :=
  ∀ k e, (returnsOf 0 tape)[k]? = some (.error e) →
    (∃ front back, tape = front ++ .ret 0 (.error e) :: back ∧ ∀ n, .call n ∉ back) ∧
      callsOf 0 tape = k + 1 ∧ thrown = .error e

theorem execute_error {α : Type} {pipeline : Stage α σ} {x : α} {s : σ} {e : String}
    (h : (pipeline x s).1 = .error e) : (execute pipeline x s).1 = .error e := by
  rw [execute]
  rcases hp : pipeline x s with ⟨e' | n, t⟩
  · rw [hp] at h
    cases h
    rfl
  · rw [hp] at h
    cases h

theorem stops_at_error [Tape τ] {untape : τ → σ} {watched : Stage Bytes τ} {next : Stage Bytes σ}
    (hstop : FailStop watched) (hshadow : Shadows untape watched next) {content : Bytes}
    (cut : Cut content) (size : Nat) {s : τ} (hs : Tape.read s = []) :
    StopsAtError (execute (readFile next) size (cut.reader, untape s)).1
      (Tape.read (readFile watched size (cut.reader, s)).2) := by
  intro k e hk
  have hwatched := read_file_cut cut watched size s
  have hplain := read_file_cut cut next size (untape s)
  obtain ⟨tape, htape, hstopped⟩ := hstop.feed cut.blocks s
  rw [← hshadow.feed, ← hwatched] at hplain
  rw [← hwatched, hs] at htape
  rw [← hwatched] at hstopped
  change Tape.read (readFile watched size (cut.reader, s)).2 = [] ++ tape at htape
  rw [htape, List.nil_append] at hk ⊢
  obtain ⟨hplace, hcalls, hres⟩ := hstopped.at_error hk
  refine ⟨hplace, hcalls, execute_error ?_⟩
  exact (congrArg Prod.fst hplain).trans hres

theorem throughBatch_stops {node : ∀ τ : Type, Stage Bytes τ → Stage Bytes τ} (hnode : Scripted node)
    (sink : Stage (Bytes × Bool) σ) {content : Bytes} (cut : Cut content) (size : Nat)
    (buffer : Bytes) (s : σ) :
    StopsAtError (execute (throughBatch node sink) size (cut.reader, buffer, s)).1
      (Tape.read (throughBatchWatched node sink size (cut.reader, buffer, ⟨s, []⟩)).2) := by
  have hsink : FailStop fun data => traced 0 (lifted sink) (data, false) :=
    fun data => failStop_sink sink (data, false)
  have hsame : Shadows Watched.below (fun data => traced 0 (lifted sink) (data, false))
      fun data => sink (data, false) :=
    fun data => (shadows_lifted sink).traced (fun _ _ => rfl) 0 (data, false)
  have hstop := ((hsink.batch.traced 0).scripted hnode).traced 1
  have hshadow := ((hsame.batch.traced (fun _ _ => rfl) 1).scripted hnode).traced (fun _ _ => rfl) 2
  exact stops_at_error hstop hshadow cut size (s := (buffer, ⟨s, []⟩)) rfl

theorem direct_stops {node : ∀ τ : Type, Stage (Bytes × Bool) τ → Stage Bytes τ}
    (hnode : Scripted node) (sink : Stage (Bytes × Bool) σ) {content : Bytes} (cut : Cut content)
    (size : Nat) (s : σ) :
    StopsAtError (execute (direct node sink) size (cut.reader, s)).1
      (Tape.read (directWatched node sink size (cut.reader, ⟨s, []⟩)).2) := by
  have hstop := ((failStop_sink sink).scripted hnode).traced 0
  have hsame := (shadows_lifted sink).traced (fun _ _ => rfl) 0
  have hshadow := (hsame.scripted hnode).traced (fun _ _ => rfl) 1
  exact stops_at_error hstop hshadow cut size (s := ⟨s, []⟩) rfl

end Pipelines

/-- Every pipeline stops at the first error of its sink, on whatever call that falls. The buffer of
`Batch` may hold anything before. -/
theorem pipelines_are_fail_stop {σ : Type} (sink : Stage (Bytes × Bool) σ) {content : Bytes}
    (cut : Cut content) (size : Nat) (buffer : Bytes) (s : σ) :
    (∀ hsScan, StopsAtError
      (execute (throughBatch (fun _ => vectorScan hsScan) sink) size (cut.reader, buffer, s)).1
      (Tape.read (throughBatchWatched (fun _ => vectorScan hsScan) sink size
        (cut.reader, buffer, ⟨s, []⟩)).2)) ∧
    (∀ partialMatch, StopsAtError
      (execute (throughBatch (fun _ => re2Regex partialMatch) sink) size (cut.reader, buffer, s)).1
      (Tape.read (throughBatchWatched (fun _ => re2Regex partialMatch) sink size
        (cut.reader, buffer, ⟨s, []⟩)).2)) ∧
    (∀ regex, StopsAtError
      (execute (direct (fun _ => simpleRegex regex) sink) size (cut.reader, s)).1
      (Tape.read (directWatched (fun _ => simpleRegex regex) sink size (cut.reader, ⟨s, []⟩)).2)) ∧
    ∀ ts, StopsAtError
      (execute (direct (fun _ next => treeSitter ts fun data => next (data, false)) sink) size
        (cut.reader, s)).1
      (Tape.read (directWatched (fun _ next => treeSitter ts fun data => next (data, false)) sink size
        (cut.reader, ⟨s, []⟩)).2) := by
  refine ⟨fun hsScan => ?_, fun partialMatch => ?_, fun regex => ?_, fun ts => ?_⟩
  · exact throughBatch_stops (vectorScan_scripted hsScan) sink cut size buffer s
  · exact throughBatch_stops (re2Regex_scripted partialMatch) sink cut size buffer s
  · exact direct_stops (simpleRegex_scripted regex) sink cut size s
  · exact direct_stops (treeSitter_scripted ts).unforced sink cut size s

/-- A regex that matches a text by its first byte. -/
def firstByte : Regex where
  search str := .ok (if str = [] then none else some (0, 1))
  inside := by
    intro str position length h
    split at h
    · cases h
    · rename_i hne
      simp only [Except.ok.injEq, Option.some.injEq, Prod.mk.injEq] at h
      obtain ⟨rfl, rfl⟩ := h
      exact List.length_pos_iff.mpr hne

theorem write_fails {o : Stdout} {text : String} (h : o.writes o.calls = .error text)
    (forceNewline : Bool) {data : Bytes} (hdata : data ≠ []) :
    Sink.write forceNewline data o =
      (.error s!"failed to write: [{0}/{data.length} bytes] {text}",
        { o with calls := o.calls + 1 }) := by
  have hpos := List.length_pos_iff.mpr hdata
  have hbody : (Sink.writeLoop data).body ⟨0, o⟩ =
      .leave (.error s!"failed to write: [{0}/{data.length} bytes] {text}",
        { o with calls := o.calls + 1 }) := by
    simp only [Sink.writeLoop, if_pos hpos, Stdout.write_error _ h]
  rw [Sink.write, Loop.run_leave _ hbody]
  rfl

theorem write_succeeds {o : Stdout} {want : Nat} (h : o.writes o.calls = .ok want) (c : UInt8) :
    Sink.write true [c] o =
      (.ok 2, (Stdout.write { o with bytes := o.bytes ++ [c], calls := o.calls + 1 } [newline]).2) := by
  have hgranted : granted want [c].length = 1 := by
    rw [granted, List.length_singleton]
    omega
  have hfirst : (Sink.writeLoop [c]).body ⟨0, o⟩ =
      .again ⟨1, { o with bytes := o.bytes ++ [c], calls := o.calls + 1 }⟩ := by
    simp only [Sink.writeLoop, List.drop_zero, Stdout.write_ok _ h, hgranted]
    rfl
  rw [Sink.write, Loop.run_again _ hfirst, Loop.run_leave _ rfl]
  rfl

/-- The lines `a` and `b`. The disk behind `Write` is full after the first. -/
theorem pipelines_are_fail_stop_on_a_full_disk :
    let disk : Stdout :=
      { bytes := [], writes := fun i => if i < 2 then .ok 1 else .error "No space left on device" }
    let cut : Cut [97, 10, 98] := ⟨[[97, 10, 98]], rfl, by decide, by decide⟩
    let sink : Stage (Bytes × Bool) Stdout := fun d => Sink.write d.2 d.1
    (execute (direct (fun _ => simpleRegex firstByte) sink) 3 (cut.reader, disk)).1 =
      .error "failed to write: [0/1 bytes] No space left on device" ∧
    callsOf 0 (Tape.read
      (directWatched (fun _ => simpleRegex firstByte) sink 3 (cut.reader, ⟨disk, []⟩)).2) = 2 := by
  intro disk cut sink
  have hstop := (pipelines_are_fail_stop sink cut 3 [] disk).2.2.1 firstByte
  let failed : Expected := .error "failed to write: [0/1 bytes] No space left on device"
  let next : Stage (Bytes × Bool) (Watched Stdout) := traced 0 (lifted sink)
  let one : Watched Stdout :=
    ⟨{ disk with bytes := [97, 10], calls := 2 }, [.call 1, .call 0, .ret 0 (.ok 2)]⟩
  let two : Watched Stdout := ⟨{ one.below with calls := 3 }, one.tape ++ [.call 0, .ret 0 failed]⟩
  have hfirst : next ([97], true) ⟨disk, [.call 1]⟩ = (.ok 2, one) := by
    simp only [next, traced, lifted, Tape.put, sink]
    rw [write_succeeds (rfl : disk.writes disk.calls = .ok 1) 97]
    rfl
  have hsecond : next ([98], true) one = (failed, two) := by
    simp only [next, traced, lifted, Tape.put, sink]
    rw [write_fails (rfl : one.below.writes one.below.calls = .error _) true (List.cons_ne_nil 98 [])]
    rfl
  have hagain : (simpleLoop firstByte next).body (0, [97, 10, 98], ⟨disk, [.call 1]⟩) =
      .again (1, [98], one) := by
    have hline : simpleLine [97, 10, 98] 0 (0 + 1) = [97] := by decide
    have hsearch : firstByte.search [97, 10, 98] = .ok (some (0, 1)) := rfl
    have hfind : find newline [97, 10, 98] (0 + 1) = some 1 := by decide
    simp only [simpleLoop, hsearch, hline, hfirst, hfind]
    rfl
  have hleave : (simpleLoop firstByte next).body (1, [98], one) = .leave (failed, two) := by
    have hline : simpleLine [98] 0 (0 + 1) = [98] := by decide
    have hsearch : firstByte.search [98] = .ok (some (0, 1)) := rfl
    simp only [simpleLoop, hsearch, hline, hsecond, failed]
  have hnode : simpleRegex firstByte next [97, 10, 98] ⟨disk, [.call 1]⟩ = (failed, two) :=
    (Loop.run_again _ hagain).trans (Loop.run_leave _ hleave)
  have hrun := read_file_cut cut (traced 1 (simpleRegex firstByte next)) 3 (⟨disk, []⟩ : Watched Stdout)
  have hblock : feed (traced 1 (simpleRegex firstByte next)) cut.blocks ⟨disk, []⟩ =
      (failed, ⟨two.below, two.tape ++ [.ret 1 failed]⟩) := by
    change andThen (traced 1 (simpleRegex firstByte next) [97, 10, 98] ⟨disk, []⟩) _ = _
    simp only [traced, Tape.put, List.nil_append, hnode]
    rfl
  rw [hblock] at hrun
  obtain ⟨-, hcalls, hthrown⟩ := hstop 1 _ (congrArg (fun r => (returnsOf 0 r.2.tape)[1]?) hrun)
  exact ⟨hthrown, hcalls⟩

end Omnipp
