import Omnipp.Grep.Tree
import Omnipp.Lib.Cursor
import Omnipp.Pipeline

/-!
# Directory entries in a `getdents64` buffer

Two loops go over the records of a buffer, that of `Processor::worker` and that of
`EventLoop::pump`. Both take a record for a `linux_dirent64`, and find the next one with `d_reclen`.
-/

open Omnipp.Cursor

namespace Omnipp.Grep

/-! ## The encoding -/

/-- An entry of a directory, and what the kernel puts behind its name. -/
structure Dirent where
  ino : UInt64
  off : Int64
  type : UInt8
  name : Bytes
  padding : Bytes
  clean : 0 ∉ name
  fits : 20 + name.length + padding.length < 2 ^ 16

def Dirent.reclen (d : Dirent) : Nat := 20 + d.name.length + d.padding.length

def le16 (n : Nat) : Bytes := [UInt8.ofNat n, UInt8.ofNat (n / 256)]

def le64 (n : UInt64) : Bytes := (List.range 8).map fun i => (n >>> UInt64.ofNat (8 * i)).toUInt8

/-- The `linux_dirent64` of the entry: `d_ino`, `d_off`, `d_reclen`, `d_type` and `d_name`. -/
def Dirent.encode (d : Dirent) : Bytes :=
  (le64 d.ino ++ le64 d.off.toUInt64) ++ (le16 d.reclen ++ d.type :: (d.name ++ 0 :: d.padding))

/-- `DT_DIR` -/
def dtDir : UInt8 := 4

/-- `DT_REG` -/
def dtReg : UInt8 := 8

/-! ## The decoding -/

structure Record where
  reclen : Nat
  type : UInt8
  name : Bytes

/-- What is read through the pointer to the front of the span, or `none` when that would read behind
the end of it. -/
def recordAt (span : Bytes) : Option Record :=
  match span.drop 16 with
  | lo :: hi :: type :: rest =>
    let name := rest.takeWhile (· ≠ 0)
    if name.length < rest.length then some ⟨lo.toNat + 256 * hi.toNat, type, name⟩ else none
  | _ => none

/-- `std::span::subspan`, which has to stay inside. -/
def subspan (span : Bytes) (offset : Nat) : Option Bytes :=
  if offset ≤ span.length then some (span.drop offset) else none

theorem length_le64 (n : UInt64) : (le64 n).length = 8 := by simp [le64]

theorem Dirent.length_encode (d : Dirent) : d.encode.length = d.reclen := by
  simp only [Dirent.encode, Dirent.reclen, le16, List.length_append, List.length_cons, List.length_nil,
    length_le64]
  omega

theorem Dirent.encode_ne_nil (d : Dirent) : d.encode ≠ [] := by
  apply List.length_pos_iff.mp
  rw [d.length_encode, Dirent.reclen]
  omega

theorem takeWhile_name {name : Bytes} (h : 0 ∉ name) (rest : Bytes) :
    (name ++ 0 :: rest).takeWhile (· ≠ 0) = name := by
  have hall : ∀ b ∈ name, decide (b ≠ 0) = true := by
    intro b hb
    rw [decide_eq_true_eq]
    rintro rfl
    exact h hb
  rw [List.takeWhile_append_of_pos hall, List.takeWhile_cons_of_neg (by simp), List.append_nil]

theorem le16_toNat {n : Nat} (h : n < 2 ^ 16) :
    (UInt8.ofNat n).toNat + 256 * (UInt8.ofNat (n / 256)).toNat = n := by
  simp only [UInt8.toNat_ofNat']
  omega

/-- The loops read what the kernel wrote. -/
theorem recordAt_encode (d : Dirent) (rest : Bytes) :
    recordAt (d.encode ++ rest) = some ⟨d.reclen, d.type, d.name⟩ := by
  have hdrop : (d.encode ++ rest).drop 16 =
      UInt8.ofNat d.reclen :: UInt8.ofNat (d.reclen / 256) :: d.type ::
        (d.name ++ 0 :: (d.padding ++ rest)) := by
    have hlen : (le64 d.ino ++ le64 d.off.toUInt64).length = 16 := by
      rw [List.length_append, length_le64, length_le64]
    rw [Dirent.encode, List.append_assoc, ← hlen, List.drop_left]
    simp [le16]
  have hshort : d.name.length < (d.name ++ 0 :: (d.padding ++ rest)).length := by
    simp only [List.length_append, List.length_cons]
    omega
  have hle : (UInt8.ofNat d.reclen).toNat + 256 * (UInt8.ofNat (d.reclen / 256)).toNat = d.reclen :=
    le16_toNat d.fits
  unfold recordAt
  rw [hdrop]
  simp only [takeWhile_name d.clean, if_pos hshort, hle]

theorem subspan_encode (d : Dirent) (rest : Bytes) : subspan (d.encode ++ rest) d.reclen = some rest := by
  rw [subspan, if_pos (by rw [List.length_append, d.length_encode]; omega), ← d.length_encode,
    List.drop_left]

/-! ## The two loops -/

/-- How a loop is left before the span is empty. -/
inductive Stop where
  -- by an exception of `execute`
  | threw (what : String)
  -- a read or a `subspan` outside the span
  | undefined

/-- `openat(dir_fd, name, flags)`: as a directory, or as a file. -/
structure Open where
  asDir : Bool
  name : Bytes

/-- What the worker has done with the entries of a directory: the `openat` calls and what they
returned, `local_dir_queue`, what went from there into `queue_`, and the descriptors that the pipeline
ran on. -/
structure Walk (σ : Type) where
  opened : List (Open × Int)
  localDirQueue : List Int
  queue : List Int
  ran : List Int
  pipeline : σ

variable {σ τ : Type}

section Worker
variable (openat : List (Open × Int) → Open → Int) (execute : Int → σ → Except String σ)

def Walk.open (w : Walk σ) (o : Open) : Int × Walk σ :=
  (openat w.opened o, { w with opened := w.opened ++ [(o, openat w.opened o)] })

/-- `res_span = res_span.subspan(dir->d_reclen)` -/
def advance (span : Bytes) (dir : Record) (w : τ) : Except Stop (Bytes × τ) :=
  match subspan span dir.reclen with
  | none => .error .undefined
  | some rest => .ok (rest, w)

/-- One pass of the loop in `Processor::worker`. -/
def workerPass (span : Bytes) (w : Walk σ) : Except Stop (Bytes × Walk σ) :=
  match recordAt span with
  | none => .error .undefined
  | some dir =>
    let isFile := dir.type = dtReg
    let isDir := dir.type = dtDir
    if isDir then
      if isDot dir.name then advance span dir w
      else
        let (nextDir, w) := w.open openat ⟨true, dir.name⟩
        if nextDir < 0 then advance span dir w
        else advance span dir { w with localDirQueue := w.localDirQueue ++ [nextDir] }
    else if isFile then
      let (nextFile, w) := w.open openat ⟨false, dir.name⟩
      if nextFile < 0 then advance span dir w
      else
        match execute nextFile w.pipeline with
        | .error what => .error (.threw what)
        | .ok pipeline => advance span dir { w with ran := w.ran ++ [nextFile], pipeline }
    else advance span dir w

/-- `queue_.append_range(local_dir_queue); local_dir_queue.clear();` -/
def Walk.commit (w : Walk σ) : Walk σ :=
  { w with queue := w.queue ++ w.localDirQueue, localDirQueue := [] }

end Worker

/-- One pass of the loop in `EventLoop::pump`. `handler` is what `getdents_handler_` does with
`is_file` and the name. -/
def pumpPass (handler : Bool → Bytes → τ → τ) (span : Bytes) (t : τ) : Except Stop (Bytes × τ) :=
  match recordAt span with
  | none => .error .undefined
  | some dir =>
    let isFile := dir.type = dtReg
    let isDir := dir.type = dtDir
    advance span dir (if isFile ∨ isDir then handler isFile dir.name t else t)

/-- The loop around the `getdents64` calls. `none` among the answers is -1, and 0 is no bytes. `commit` is
what is done behind a buffer. -/
def listing (pass : Bytes → τ → Except Stop (Bytes × τ)) (commit : τ → τ) (fuel : Nat) :
    List (Option Bytes) → τ → Option (Except Stop τ)
  | [], t => some (.ok t)
  | none :: _, t => some (.ok t)
  | some [] :: _, t => some (.ok t)
  | some (b :: buffer) :: answers, t =>
    match scan pass fuel (b :: buffer) t with
    | none => none
    | some (.error e) => some (.error e)
    | some (.ok t) => listing pass commit fuel answers (commit t)

def workerListing (openat : List (Open × Int) → Open → Int) (execute : Int → σ → Except String σ) (fuel : Nat) :
    List (Option Bytes) → Walk σ → Option (Except Stop (Walk σ)) :=
  listing (workerPass openat execute) Walk.commit fuel

def pumpListing (handler : Bool → Bytes → τ → τ) (fuel : Nat) :
    List (Option Bytes) → τ → Option (Except Stop τ) :=
  listing (pumpPass handler) id fuel

/-! ## What the loops do with an entry -/

/-- The `openat` call that the worker makes for the entry, if it makes one. -/
def wanted (d : Dirent) : Option Open :=
  if d.type = dtDir then if isDot d.name then none else some ⟨true, d.name⟩
  else if d.type = dtReg then some ⟨false, d.name⟩
  else none

theorem advance_encode (d : Dirent) (rest : Bytes) (w : τ) :
    advance (d.encode ++ rest) ⟨d.reclen, d.type, d.name⟩ w = .ok (rest, w) := by
  simp only [advance, subspan_encode]

section Worker
variable (openat : List (Open × Int) → Open → Int) (execute : Int → σ → Except String σ)

def Walk.visit (w : Walk σ) (d : Dirent) : Except Stop (Walk σ) :=
  match wanted d with
  | none => .ok w
  | some o =>
    let (fd, w) := w.open openat o
    if fd < 0 then .ok w
    else if o.asDir then .ok { w with localDirQueue := w.localDirQueue ++ [fd] }
    else
      match execute fd w.pipeline with
      | .error what => .error (.threw what)
      | .ok pipeline => .ok { w with ran := w.ran ++ [fd], pipeline }

/-- Every branch of the loop goes on to the next record, once. -/
theorem worker_takes : Takes (workerPass openat execute) Dirent.encode (Walk.visit openat execute) := by
  intro d rest w
  refine ⟨d.encode_ne_nil, ?_⟩
  unfold workerPass Walk.visit wanted
  rw [recordAt_encode]
  simp only [advance_encode]
  by_cases hdir : d.type = dtDir
  · rw [if_pos hdir, if_pos hdir]
    cases isDot d.name with
    | true => rfl
    | false =>
      by_cases hfd : (w.open openat ⟨true, d.name⟩).1 < 0
      · simp [hfd, Except.map]
      · simp [hfd, Except.map]
  · rw [if_neg hdir, if_neg hdir]
    by_cases hreg : d.type = dtReg
    · rw [if_pos hreg, if_pos hreg]
      by_cases hfd : (w.open openat ⟨false, d.name⟩).1 < 0
      · simp [hfd, Except.map]
      · simp only [if_neg hfd]
        cases execute (w.open openat ⟨false, d.name⟩).1 (w.open openat ⟨false, d.name⟩).2.pipeline <;> rfl
    · rw [if_neg hreg, if_neg hreg]
      rfl

end Worker

/-- The calls of `getdents_handler_` for entries. -/
def handled (handler : Bool → Bytes → τ → τ) (t : τ) (d : Dirent) : τ :=
  if d.type = dtReg ∨ d.type = dtDir then handler (d.type = dtReg) d.name t else t

theorem pump_takes (handler : Bool → Bytes → τ → τ) :
    Takes (pumpPass handler) Dirent.encode fun t d => .ok (handled handler t d) := by
  intro d rest t
  refine ⟨d.encode_ne_nil, ?_⟩
  unfold pumpPass handled
  rw [recordAt_encode]
  simp only [advance_encode]
  rfl

/-! ## Buffers -/

/-- A list of entries, cut into the buffers of successive `getdents64` calls. -/
structure Buffers (entries : List Dirent) where
  groups : List (List Dirent)
  joined : groups.flatten = entries
  filled : ∀ group ∈ groups, group ≠ []

def Buffers.answers {entries : List Dirent} (b : Buffers entries) : List (Option Bytes) :=
  b.groups.map fun group => some (group.flatMap Dirent.encode)

theorem listing_buffers {pass : Bytes → τ → Except Stop (Bytes × τ)} {step : τ → Dirent → Except Stop τ}
    (h : Takes pass Dirent.encode step) (commit : τ → τ) {fuel : Nat} {groups : List (List Dirent)}
    (hfilled : ∀ group ∈ groups, group ≠ []) (hfuel : ∀ group ∈ groups, group.length < fuel) (t : τ) :
    listing pass commit fuel (groups.map fun group => some (group.flatMap Dirent.encode)) t =
      some (groups.foldlM (fun t group => (group.foldlM step t).map commit) t) := by
  induction groups generalizing t with
  | nil => rfl
  | cons group groups ih =>
    have hrest := ih (fun g hg => hfilled g (List.mem_cons_of_mem group hg))
      fun g hg => hfuel g (List.mem_cons_of_mem group hg)
    have hscan := scan_records h group t (hfuel group List.mem_cons_self)
    obtain ⟨d, ds, hgroup⟩ := List.exists_cons_of_ne_nil (hfilled group List.mem_cons_self)
    obtain ⟨b, bs, hbytes⟩ := List.exists_cons_of_ne_nil d.encode_ne_nil
    have hbuffer : group.flatMap Dirent.encode = b :: (bs ++ ds.flatMap Dirent.encode) := by
      rw [hgroup, List.flatMap_cons, hbytes, List.cons_append]
    rw [List.map_cons, List.foldlM_cons]
    rw [hbuffer] at hscan ⊢
    rw [listing, hscan]
    cases group.foldlM step t with
    | error e => rfl
    | ok t' => exact hrest (commit t')

/-! ## The calls -/

/-- The calls with their results, behind the calls of `opened`. A result may depend on all that was
called before, and each call is made whatever the others returned. -/
def callsFor (openat : List (Open × Int) → Open → Int) (opened : List (Open × Int)) :
    List Open → List (Open × Int)
  | [] => []
  | o :: opens => (o, openat opened o) :: callsFor openat (opened ++ [(o, openat opened o)]) opens

def dirsOf (calls : List (Open × Int)) : List Int :=
  (calls.filter fun c => c.1.asDir = true ∧ 0 ≤ c.2).map Prod.snd

def filesOf (calls : List (Open × Int)) : List Int :=
  (calls.filter fun c => c.1.asDir = false ∧ 0 ≤ c.2).map Prod.snd

/-- The worker made these calls. What was opened as a directory is queued, and the pipeline ran on what
was opened as a file. -/
structure Walk.Did (openat : List (Open × Int) → Open → Int) (w w' : Walk σ) (opens : List Open) : Prop where
  opened : w'.opened = w.opened ++ callsFor openat w.opened opens
  dirs : w'.queue ++ w'.localDirQueue =
    (w.queue ++ w.localDirQueue) ++ dirsOf (callsFor openat w.opened opens)
  files : w'.ran = w.ran ++ filesOf (callsFor openat w.opened opens)

section Calls
variable {openat : List (Open × Int) → Open → Int} {execute : Int → σ → Except String σ}

theorem callsFor_append (opened : List (Open × Int)) (os ps : List Open) :
    callsFor openat opened (os ++ ps) =
      callsFor openat opened os ++ callsFor openat (opened ++ callsFor openat opened os) ps := by
  induction os generalizing opened with
  | nil => simp [callsFor]
  | cons o os ih => simp [callsFor, ih]

theorem dirsOf_append (xs ys : List (Open × Int)) : dirsOf (xs ++ ys) = dirsOf xs ++ dirsOf ys := by
  simp [dirsOf]

theorem filesOf_append (xs ys : List (Open × Int)) : filesOf (xs ++ ys) = filesOf xs ++ filesOf ys := by
  simp [filesOf]

theorem Walk.Did.refl (w : Walk σ) : w.Did openat w [] := by
  constructor <;> simp [callsFor, dirsOf, filesOf]

theorem Walk.Did.trans {w w' w'' : Walk σ} {os ps : List Open} (h : w.Did openat w' os)
    (h' : w'.Did openat w'' ps) : w.Did openat w'' (os ++ ps) := by
  have happ : callsFor openat w.opened (os ++ ps) =
      callsFor openat w.opened os ++ callsFor openat w'.opened ps := by
    rw [callsFor_append, ← h.opened]
  constructor
  · rw [happ, h'.opened, h.opened, List.append_assoc]
  · rw [happ, h'.dirs, h.dirs, dirsOf_append, List.append_assoc]
  · rw [happ, h'.files, h.files, filesOf_append, List.append_assoc]

theorem Walk.Did.commit {w w' : Walk σ} {os : List Open} (h : w.Did openat w' os) :
    w.Did openat w'.commit os := by
  refine ⟨h.opened, ?_, h.files⟩
  rw [← h.dirs]
  simp [Walk.commit]

/-- What is known when the worker has gone over entries: it did what they ask for, or `execute`
threw. -/
def Visited (openat : List (Open × Int) → Open → Int) (execute : Int → σ → Except String σ) (w : Walk σ)
    (entries : List Dirent) : Except Stop (Walk σ) → Prop
  | .ok w' => w.Did openat w' (entries.filterMap wanted)
  | .error stop => ∃ fd p what, stop = .threw what ∧ execute fd p = .error what

variable (openat execute)

theorem visited_entry (w : Walk σ) (d : Dirent) :
    Visited openat execute w [d] (w.visit openat execute d) := by
  unfold Walk.visit
  cases hw : wanted d with
  | none =>
    have hnone : [d].filterMap wanted = [] := by simp [hw]
    simp only [Visited, hnone]
    exact .refl w
  | some o =>
    have hone : [d].filterMap wanted = [o] := by simp [hw]
    by_cases hfd : (w.open openat o).1 < 0
    · have hneg : ¬ 0 ≤ openat w.opened o := Int.not_le.mpr hfd
      simp only [if_pos hfd, Visited, hone]
      constructor <;> simp [Walk.open, callsFor, dirsOf, filesOf, hneg]
    · have hpos : 0 ≤ openat w.opened o := Int.not_lt.mp hfd
      simp only [if_neg hfd]
      by_cases hdir : o.asDir = true
      · simp only [if_pos hdir, Visited, hone]
        constructor <;> simp [Walk.open, callsFor, dirsOf, filesOf, hpos, hdir]
      · simp only [if_neg hdir]
        cases hex : execute (w.open openat o).1 (w.open openat o).2.pipeline with
        | error what => exact ⟨_, _, what, rfl, hex⟩
        | ok p =>
          simp only [Visited, hone]
          constructor <;> simp [Walk.open, callsFor, dirsOf, filesOf, hpos, hdir]

variable {openat execute} in
theorem Visited.append {w w' : Walk σ} {xs ys : List Dirent} (h : w.Did openat w' (xs.filterMap wanted))
    {r : Except Stop (Walk σ)} (h' : Visited openat execute w' ys r) : Visited openat execute w (xs ++ ys) r := by
  cases r with
  | error stop => exact h'
  | ok w'' =>
    simp only [Visited, List.filterMap_append] at h' ⊢
    exact h.trans h'

theorem visited_entries (w : Walk σ) (entries : List Dirent) :
    Visited openat execute w entries (entries.foldlM (Walk.visit openat execute) w) := by
  induction entries generalizing w with
  | nil => exact .refl w
  | cons d entries ih =>
    have hd := visited_entry openat execute w d
    rw [List.foldlM_cons]
    cases hv : w.visit openat execute d with
    | error stop => rwa [hv] at hd
    | ok w' =>
      rw [hv] at hd
      have hone : w.Did openat w' ([d].filterMap wanted) := hd
      exact Visited.append hone (ih w')

theorem visited_groups (w : Walk σ) (groups : List (List Dirent)) :
    Visited openat execute w groups.flatten (groups.foldlM
      (fun w group => (group.foldlM (Walk.visit openat execute) w).map Walk.commit) w) := by
  induction groups generalizing w with
  | nil => exact .refl w
  | cons group groups ih =>
    have hgroup := visited_entries openat execute w group
    rw [List.foldlM_cons, List.flatten_cons]
    cases hv : group.foldlM (Walk.visit openat execute) w with
    | error stop => rwa [hv] at hgroup
    | ok w' =>
      rw [hv] at hgroup
      exact Visited.append hgroup.commit (ih w'.commit)

end Calls

theorem handled_groups (handler : Bool → Bytes → τ → τ) (groups : List (List Dirent)) (t : τ) :
    groups.foldlM (fun t group =>
        (group.foldlM (fun t d => (.ok (handled handler t d) : Except Stop τ)) t).map id) t =
      .ok (groups.flatten.foldl (handled handler) t) := by
  have hgroup : ∀ (group : List Dirent) (t : τ),
      group.foldlM (fun t d => (.ok (handled handler t d) : Except Stop τ)) t =
        .ok (group.foldl (handled handler) t) := by
    intro group
    induction group with
    | nil => exact fun t => rfl
    | cons d group ih => exact fun t => ih (handled handler t d)
  induction groups generalizing t with
  | nil => rfl
  | cons group groups ih =>
    rw [List.foldlM_cons, hgroup, List.flatten_cons, List.foldl_append]
    exact ih _

/-- The worker and `pump` go over every entry once and in order, however the entries are encoded and
cut into buffers, and read its own name and type. The worker calls `openat` for the regular files and
for the directories other than `.` and `..`, and `pump` calls its handler for all of both kinds. The
worker stops early only when `execute` throws. -/
theorem dirents_are_visited {entries : List Dirent} (b : Buffers entries)
    (openat : List (Open × Int) → Open → Int) (execute : Int → σ → Except String σ) (w : Walk σ)
    (handler : Bool → Bytes → τ → τ) (t : τ) (fuel : Nat) (hfuel : entries.length < fuel) :
    (∃ r, workerListing openat execute fuel b.answers w = some r ∧ Visited openat execute w entries r) ∧
    pumpListing handler fuel b.answers t =
      some (.ok ((entries.filter fun d => d.type = dtReg ∨ d.type = dtDir).foldl
        (fun t d => handler (d.type = dtReg) d.name t) t)) := by
  have hgroups : ∀ group ∈ b.groups, group.length < fuel := by
    intro group hg
    have hle := List.Sublist.length_le (List.sublist_flatten_of_mem hg)
    rw [b.joined] at hle
    omega
  constructor
  · refine ⟨_, listing_buffers (worker_takes openat execute) Walk.commit b.filled hgroups w, ?_⟩
    have hvisited := visited_groups openat execute w b.groups
    rwa [b.joined] at hvisited
  · refine (listing_buffers (pump_takes handler) id b.filled hgroups t).trans ?_
    rw [handled_groups, b.joined, List.foldl_filter]
    simp only [decide_eq_true_eq]
    rfl

/-- The directory `.`, a file `a` and a directory `b`. -/
def threeEntries : List Dirent :=
  [⟨1, 1, 4, [46], [], by decide, by decide⟩, ⟨2, 2, 8, [97], [0, 0, 0], by decide, by decide⟩,
    ⟨3, 3, 4, [98], [7], by decide, by decide⟩]

/-- In two buffers, where the file cannot be opened: the directory behind it is. -/
theorem dirents_are_visited_in_two_buffers :
    let openat : List (Open × Int) → Open → Int := fun _ o => if o.asDir then 5 else -1
    ∃ b : Buffers threeEntries, ∃ w : Walk Unit,
      workerListing openat (fun _ p => .ok p) 4 b.answers ⟨[], [], [], [], ()⟩ = some (.ok w) ∧
      w.opened = [(⟨false, [97]⟩, -1), (⟨true, [98]⟩, 5)] ∧
      pumpListing (fun isFile name log => log ++ [(isFile, name)]) 4 b.answers [] =
        some (.ok [(false, [46]), (true, [97]), (false, [98])]) := by
  intro openat
  let b : Buffers threeEntries := ⟨[threeEntries.take 2, threeEntries.drop 2], rfl, by decide⟩
  obtain ⟨⟨r, hr, hvisited⟩, hpump⟩ := dirents_are_visited b openat (fun _ p => .ok p)
    (⟨[], [], [], [], ()⟩ : Walk Unit) (fun isFile name log => log ++ [(isFile, name)]) [] 4 (by decide)
  cases r with
  | error stop =>
    obtain ⟨fd, p, what, -, hex⟩ := hvisited
    cases hex
  | ok w => exact ⟨b, w, hr, hvisited.opened, hpump⟩

end Omnipp.Grep
