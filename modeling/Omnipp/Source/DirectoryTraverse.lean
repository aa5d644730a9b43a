import Omnipp.Grep.Halted
import Omnipp.Pipeline

/-!
# `source::DirectoryTraverse`

One thread goes through the tree with a `recursive_directory_iterator` and stops at the first file
that it cannot open. It sees more of an entry than `getdents64` shows the workers of grep, so the
two do not always find the same files.
-/

open Omnipp.Grep Omnipp.Threads

namespace Omnipp.Source

/-- What `status` says of an entry that is neither a regular file nor a directory itself. -/
inductive Target where
  -- A link to a regular file, which `openat` follows, or one with `d_type` `DT_UNKNOWN`.
  | regular (opens : Bool)
  | notRegular
  -- `status` throws.
  | fails

/-- An entry, as both traversals see it. `strict` is for `openat` with `O_NOFOLLOW | O_NOATIME`. -/
inductive Node where
  | reg (name : Name) (opens strict : Bool)
  | dir (name : Name) (opens strict : Bool) (nodes : List Node)
  -- A directory with `d_type` `DT_UNKNOWN`. The iterator asks for its status and enters it.
  | untyped (name : Name) (opens : Bool) (nodes : List Node)
  | other (name : Name) (target : Target)

/-- What the path names that the traversal starts from. -/
inductive Root where
  | notDirectory
  -- `status` throws, or the iterator cannot open it.
  | fails
  | opened (nodes : List Node)

mutual

/-- What `getdents64` and the workers' `openat` show of it. -/
def Node.shown : Node → Entry
  | .reg name _ strict => .reg name strict
  | .dir name _ strict nodes => .dir name strict (shownOf nodes)
  | .untyped name _ _ => .other name
  | .other name _ => .other name

def shownOf : List Node → List Entry
  | [] => []
  | n :: ns => n.shown :: shownOf ns

end

/-- How `DirectoryTraverseNode::operator()` stops: it returns a text, or an exception leaves a
function that is `noexcept`. -/
inductive Stop where
  | error (text : String)
  | terminate

section Traverse
variable {σ : Type} (render : Path → String) (next : Stage Path σ)

/-- The body of the loop on a regular file. -/
def processFile (opens : Bool) (p : Path) (s : σ) : Except Stop Nat × σ :=
  if opens then
    match next p s with
    | (.error text, t) => (.error (.error text), t)
    | (.ok processed, t) => (.ok processed, t)
  else (.error (.error s!"failed to open file: {render p}"), s)

mutual

/-- The iterator at an entry of the directory at `p`, and at everything below it. -/
def Node.traverse (p : Path) : Node → σ → Except Stop Nat × σ
  | .reg name opens _, s => processFile render next opens (p ++ [name]) s
  | .dir name opens _ nodes, s | .untyped name opens nodes, s =>
    if isDot name then (.ok 0, s)
    else if opens then traverseOf (p ++ [name]) nodes s
    else (.error .terminate, s)
  | .other name target, s =>
    match target with
    | .regular opens => processFile render next opens (p ++ [name]) s
    | .notRegular => (.ok 0, s)
    | .fails => (.error .terminate, s)

def traverseOf (p : Path) : List Node → σ → Except Stop Nat × σ
  | [], s => (.ok 0, s)
  | n :: ns, s =>
    match n.traverse p s with
    | (.error stop, t) => (.error stop, t)
    | (.ok matched, t) =>
      match traverseOf p ns t with
      | (.error stop, u) => (.error stop, u)
      | (.ok rest, u) => (.ok (matched + rest), u)

end

/-- `DirectoryTraverseNode::operator()`, on what `dir` names. -/
def directoryTraverse (dir : Path) : Root → σ → Except Stop Nat × σ
  | .notDirectory, s => (.error (.error s!"{render dir} not a directory"), s)
  | .fails, s => (.error .terminate, s)
  | .opened nodes, s => traverseOf render next dir nodes s

end Traverse

/-! ## The files it hands on -/

mutual

def Node.regulars (p : Path) : Node → List Path
  | .reg name _ _ => [p ++ [name]]
  | .dir name _ _ nodes | .untyped name _ nodes =>
    if isDot name then [] else regularsOf (p ++ [name]) nodes
  | .other name (.regular _) => [p ++ [name]]
  | .other _ _ => []

def regularsOf (p : Path) : List Node → List Path
  | [] => []
  | n :: ns => n.regulars p ++ regularsOf p ns

end

theorem processFile_ok {render : Path → String} {opens : Bool} {p : Path} {s t : List Path} {m : Nat}
    (h : processFile render record opens p s = (.ok m, t)) : t = s ++ [p] := by
  cases opens with
  | true =>
    simp only [processFile, record, if_true, Prod.mk.injEq] at h
    exact h.2.symm
  | false => simp [processFile] at h

mutual

theorem Node.traverse_ok (render : Path → String) (p : Path) (n : Node) {s t : List Path} {m : Nat}
    (h : n.traverse render record p s = (.ok m, t)) : t = s ++ n.regulars p := by
  cases n with
  | reg name opens strict =>
    simp only [Node.traverse] at h
    exact processFile_ok h
  | dir name opens strict nodes | untyped name opens nodes =>
    simp only [Node.traverse] at h
    cases hdot : isDot name with
    | true => simp_all [Node.regulars]
    | false =>
      cases opens with
      | true =>
        simp only [hdot, if_true, Bool.false_eq_true, if_false] at h
        rw [traverseOf_ok render _ nodes h]
        simp [Node.regulars, hdot]
      | false => simp [hdot] at h
  | other name target =>
    cases target with
    | regular opens =>
      simp only [Node.traverse] at h
      exact processFile_ok h
    | notRegular => simp_all [Node.traverse, Node.regulars]
    | fails => simp [Node.traverse] at h

theorem traverseOf_ok (render : Path → String) (p : Path) (ns : List Node) {s t : List Path} {m : Nat}
    (h : traverseOf render record p ns s = (.ok m, t)) : t = s ++ regularsOf p ns := by
  cases ns with
  | nil => simp_all [traverseOf, regularsOf]
  | cons n ns =>
    rw [traverseOf] at h
    split at h
    · simp at h
    · rename_i u hn
      split at h
      · simp at h
      · rename_i v hns
        rw [Prod.mk.injEq] at h
        rw [← h.2, traverseOf_ok render p ns hns, Node.traverse_ok render p n hn, regularsOf,
          List.append_assoc]

end

/-! ## The files that the workers run the pipeline on -/

theorem visitedFiles_append (vs ws : List Visit) :
    visitedFiles (vs ++ ws) = visitedFiles vs ++ visitedFiles ws :=
  List.flatMap_append

mutual

/-- Every regular file that the iterator reaches is one that the workers open. -/
def Node.Same : Node → Prop
  | .reg _ _ strict => strict = true
  | .dir name _ strict nodes =>
    isDot name = true ∨ (strict = true ∧ SameOf nodes) ∨ regularsOf [] nodes = []
  | .untyped name _ nodes => isDot name = true ∨ regularsOf [] nodes = []
  | .other _ (.regular _) => False
  | .other _ _ => True

def SameOf : List Node → Prop
  | [] => True
  | n :: ns => n.Same ∧ SameOf ns

end

mutual

theorem Node.regulars_length (p q : Path) (n : Node) :
    (n.regulars p).length = (n.regulars q).length := by
  cases n with
  | reg name opens strict => rfl
  | dir name opens strict nodes | untyped name opens nodes =>
    simp only [Node.regulars]
    split
    · rfl
    · exact regularsOf_length _ _ nodes
  | other name target => cases target <;> rfl

theorem regularsOf_length (p q : Path) (ns : List Node) :
    (regularsOf p ns).length = (regularsOf q ns).length := by
  cases ns with
  | nil => rfl
  | cons n ns =>
    rw [regularsOf, regularsOf, List.length_append, List.length_append, Node.regulars_length p q n,
      regularsOf_length p q ns]

end

theorem regularsOf_eq_nil (p q : Path) (ns : List Node) :
    regularsOf p ns = [] ↔ regularsOf q ns = [] := by
  rw [← List.length_eq_zero_iff, ← List.length_eq_zero_iff, regularsOf_length p q]

/-- Two lists with parts missing are whole when their parts are. -/
theorem append_eq_append_iff_of_sublist {α : Type} {a b c d : List α} (h : a.Sublist b)
    (h' : c.Sublist d) : a ++ c = b ++ d ↔ a = b ∧ c = d := by
  constructor
  · intro heq
    have hlen := congrArg List.length heq
    have := h.length_le
    have := h'.length_le
    simp only [List.length_append] at hlen
    exact ⟨h.eq_of_length (by omega), h'.eq_of_length (by omega)⟩
  · rintro ⟨rfl, rfl⟩
    rfl

mutual

theorem Node.files_sublist (p : Path) (n : Node) :
    (visitedFiles (n.shown.visits p)).Sublist (n.regulars p) := by
  cases n with
  | reg name opens strict =>
    cases strict <;> simp [Node.shown, Entry.visits, visitedFiles, Visit.files, Node.regulars]
  | dir name opens strict nodes =>
    simp only [Node.shown, Entry.visits, Node.regulars]
    cases hdot : isDot name with
    | true => simp [visitedFiles]
    | false =>
      cases strict with
      | true => simpa [visitedFiles, Visit.files] using visited_sublist (p ++ [name]) nodes
      | false => simp [visitedFiles]
  | untyped name opens nodes => exact List.nil_sublist _
  | other name target => cases target <;> simp [Node.shown, Entry.visits, visitedFiles]

theorem visited_sublist (p : Path) (ns : List Node) :
    (visitedFiles (visitsOf p (shownOf ns))).Sublist (regularsOf p ns) := by
  cases ns with
  | nil => exact List.Sublist.refl _
  | cons n ns =>
    rw [shownOf, visitsOf, visitedFiles_append, regularsOf]
    exact (Node.files_sublist p n).append (visited_sublist p ns)

end

mutual

theorem Node.files_eq_iff (p : Path) (n : Node) :
    visitedFiles (n.shown.visits p) = n.regulars p ↔ n.Same := by
  cases n with
  | reg name opens strict =>
    cases strict <;> simp [Node.shown, Entry.visits, visitedFiles, Visit.files, Node.regulars, Node.Same]
  | dir name opens strict nodes =>
    simp only [Node.shown, Entry.visits, Node.regulars, Node.Same]
    cases hdot : isDot name with
    | true => simp [visitedFiles]
    | false =>
      have hnil := regularsOf_eq_nil (p ++ [name]) [] nodes
      cases strict with
      | true =>
        -- Without a regular file below, both lists are empty.
        have hbelow := visited_eq_iff (p ++ [name]) nodes
        have hsub := visited_sublist (p ++ [name]) nodes
        have hempty : regularsOf [] nodes = [] → SameOf nodes := by
          intro hn
          rw [← hbelow]
          rw [hnil.mpr hn] at hsub ⊢
          exact List.sublist_nil.mp hsub
        simp only [visitedFiles, Visit.files, Bool.not_false, Bool.and_self, if_true, List.flatMap_cons,
          List.nil_append, Bool.false_eq_true, if_false, false_or, true_and]
        rw [or_iff_left_of_imp hempty]
        exact hbelow
      | false =>
        simp only [Bool.false_and, Bool.false_eq_true, if_false, false_and, false_or, visitedFiles,
          List.flatMap_nil]
        rw [← hnil, eq_comm]
  | untyped name opens nodes =>
    simp only [Node.shown, Entry.visits, Node.regulars, Node.Same]
    cases hdot : isDot name with
    | true => simp [visitedFiles]
    | false =>
      simp only [Bool.false_eq_true, if_false, false_or, visitedFiles, List.flatMap_nil]
      rw [← regularsOf_eq_nil (p ++ [name]) [] nodes, eq_comm]
  | other name target =>
    cases target <;> simp [Node.shown, Entry.visits, visitedFiles, Node.regulars, Node.Same]

theorem visited_eq_iff (p : Path) (ns : List Node) :
    visitedFiles (visitsOf p (shownOf ns)) = regularsOf p ns ↔ SameOf ns := by
  cases ns with
  | nil => simp [shownOf, visitsOf, visitedFiles, regularsOf, SameOf]
  | cons n ns =>
    rw [shownOf, visitsOf, visitedFiles_append, regularsOf, SameOf,
      append_eq_append_iff_of_sublist (Node.files_sublist p n) (visited_sublist p ns)]
    exact and_congr (Node.files_eq_iff p n) (visited_eq_iff p ns)

end

/-- Where the sequential traversal gets through the tree, the workers of grep run on the same files,
in every interleaving, exactly when they may open each file and each directory above one, no link
leads to a regular file, and no entry of unknown type is one or has one below it. -/
theorem workers_run_on_the_same_files_iff {W : Type} [DecidableEq W] [Fintype W] {main : W}
    (render : Path → String) (p : Path) (nodes : List Node) (matched : Nat) (files : List Path)
    (hseq : directoryTraverse render record p (.opened nodes) [] = (.ok matched, files))
    (c : Config W (Shared W) Pc) (h : Reaches (Moves main) (start ⟨p, shownOf nodes⟩) c)
    (hno : ∀ i sh k, ¬ Work main i c.shared (c.pc i) sh k) :
    (ranFiles c.shared.log).Perm files ↔ SameOf nodes := by
  have hperm := ranFiles_perm (halted h hno).2.1
  have hfiles : files = regularsOf p nodes := traverseOf_ok render p nodes hseq
  have hvisits : visitedFiles (Dir.visits ⟨p, shownOf nodes⟩) =
      visitedFiles (visitsOf p (shownOf nodes)) := by
    simp [visitedFiles, Dir.visits, Visit.files]
  rw [hvisits] at hperm
  rw [← visited_eq_iff p nodes, hfiles]
  constructor
  · intro hsame
    exact (visited_sublist p nodes).eq_of_length (hperm.symm.trans hsame).length_eq
  · intro heq
    rwa [heq] at hperm

/-- A file, and two directories that only the sequential traversal enters. -/
def guarded : List Node :=
  [.reg [97] true true, .dir [98] true false [.reg [97] true true], .untyped [99] true [.reg [97] true true]]

/-- One worker runs on the first file of `guarded` and never on the others. -/
theorem workers_miss_a_guarded_file : ∃ c : Config (Fin 1) (Shared (Fin 1)) Pc,
    Reaches (Moves 0) (start ⟨[], shownOf guarded⟩) c ∧ c.pc 0 = .joining ∧
      directoryTraverse (fun _ => "") record [] (.opened guarded) [] =
        (.ok 0, [[[97]], [[98], [97]], [[99], [97]]]) ∧
      ¬ (ranFiles c.shared.log).Perm [[[97]], [[98], [97]], [[99], [97]]] := by
  have h : Reaches (Moves (0 : Fin 1)) (start ⟨[], shownOf guarded⟩) _ := .refl
  have h := h.step 0 (.work (.testRunning rfl))
  have h := h.step 0 (.work (.lock rfl))
  have h := h.step 0 (.work (.predTrue (.inl (List.cons_ne_nil _ _))))
  have h := h.step 0 (.work (.goOn rfl))
  have h := h.step 0 (.work (.pop rfl))
  have h := h.step 0 (.work (@Work.batch _ _ _ _ _ _ (shownOf guarded) [] (List.cons_ne_nil _ _)))
  have h := h.step 0 (.work .openFile)
  have h := h.step 0 (.work .execute)
  have h := h.step 0 (.work .closeFile)
  have h := h.step 0 (.work (.skip rfl))
  have h := h.step 0 (.work (.skip rfl))
  have h := h.step 0 (.work .scanned)
  have h := h.step 0 (.work .add)
  have h := h.step 0 (.work (.appendLock rfl))
  have h := h.step 0 (.work .append)
  have h := h.step 0 (.work (.notifyNone rfl))
  have h := h.step 0 (.work .listed)
  have h := h.step 0 (.work .close)
  have h := h.step 0 (.work (.subLast rfl))
  have h := h.step 0 (.work .store)
  have h := h.step 0 (.work .notifyAll)
  have h := h.step 0 (.work (.testStopped rfl))
  have h := h.step 0 (.work .flushMain)
  have h := h.step 0 (.work .dtorStore)
  have h := h.step 0 (.work .dtorNotify)
  have hseq : directoryTraverse (fun _ => "") record [] (.opened guarded) [] =
      (.ok 0, [[[97]], [[98], [97]], [[99], [97]]]) := rfl
  refine ⟨_, h, rfl, hseq, fun hperm => ?_⟩
  have hsame := (workers_run_on_the_same_files_iff _ _ _ _ _ hseq _ h
    (Fin.forall_fin_one.mpr fun _ _ => joining_stays)).mp hperm
  simp [guarded, SameOf, Node.Same, isDot, regularsOf, Node.regulars] at hsame

end Omnipp.Source
