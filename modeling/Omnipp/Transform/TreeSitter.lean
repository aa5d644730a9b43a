import Mathlib.Data.List.SplitBy
import Omnipp.Pipeline

/-! # `transform::TreeSitter` -/

namespace Omnipp.Transform

/-- A capture that the query cursor reports: its index, and the bytes of its node. -/
structure Capture where
  index : Nat
  start : Nat
  stop : Nat

/-- The answers of the tree-sitter library. A query that was made comes with the names of its
captures, and a parse with the captures of the block. -/
structure TreeSitter where
  parser : Bool
  language : Bool
  query : Except Nat (List String)
  cursor : Bool
  parse : Bytes → Option (List Capture)

def reset : Bytes := "\x1b[0m".toUTF8.toList

def colours : List Bytes :=
  ["", "\x1b[35m", "\x1b[34m", "\x1b[33m", "\x1b[36m"].map fun code => code.toUTF8.toList

/-- `capture_colour`, at one name. -/
def captureColour (name : String) : UInt8 :=
  if name = "keyword" then 1
  else if name = "function" then 2
  else if name = "string" then 3
  else if name = "variable" then 4
  else 0

def colourId (names : List String) (index : Nat) : UInt8 :=
  ((names.map captureColour)[index]?).getD 0

def paint (names : List String) (mask : List UInt8) (c : Capture) : List UInt8 :=
  if colourId names c.index = 0 then mask
  else mask.mapIdx fun i m => if c.start ≤ i ∧ i < c.stop then colourId names c.index else m

/-- The formatting loop, over the chunks of equal mask values. -/
def format : List (List UInt8) → Bytes → Except String Bytes
  | [], _ => .ok reset
  | chunk :: chunks, data =>
    let id := (chunk.headD 0).toNat
    match colours[id]? with
    | none => .error s!"unknown colour id: {id}"
    | some code =>
      (format chunks (data.drop chunk.length)).map fun rest =>
        code ++ data.take chunk.length ++ rest

/-- `TreeSitterNode::operator()` -/
def treeSitter {σ : Type} (ts : TreeSitter) (next : Stage Bytes σ) : Stage Bytes σ := fun data s =>
  if !ts.parser then (.error "failed to create parser", s)
  else if !ts.language then (.error "failed to set language", s)
  else
    match ts.query with
    | .error kind => (.error s!"failed to create query: {kind}", s)
    | .ok names =>
      if !ts.cursor then (.error "failed to create cursor", s)
      else
        match ts.parse data with
        | none => (.error "failed to parse string", s)
        | some captures =>
          let mask := captures.foldl (paint names) (List.replicate data.length 0)
          match format (mask.splitBy (· == ·)) data with
          | .error e => (.error e, s)
          | .ok formatted => next formatted s

/-! ## The mask -/

/-- The capture paints the byte at `i`. -/
def Paints (names : List String) (i : Nat) (c : Capture) : Prop :=
  colourId names c.index ≠ 0 ∧ c.start ≤ i ∧ i < c.stop

instance (names : List String) (i : Nat) (c : Capture) : Decidable (Paints names i c) :=
  inferInstanceAs (Decidable (_ ∧ _))

/-- The colour of the last capture that paints the byte at `i`, or 0. -/
def colourAt (names : List String) (captures : List Capture) (i : Nat) : UInt8 :=
  ((captures.filter (Paints names i)).getLast?.map fun c => colourId names c.index).getD 0

theorem captureColour_lt (name : String) : (captureColour name).toNat < 5 := by
  unfold captureColour
  split
  · decide
  · split
    · decide
    · split
      · decide
      · split <;> decide

theorem colourId_lt (names : List String) (index : Nat) : (colourId names index).toNat < 5 := by
  unfold colourId
  rw [List.getElem?_map]
  cases names[index]? with
  | none => decide
  | some name => exact captureColour_lt name

theorem colourAt_lt (names : List String) (captures : List Capture) (i : Nat) :
    (colourAt names captures i).toNat < 5 := by
  unfold colourAt
  cases (captures.filter (Paints names i)).getLast? with
  | none => exact Nat.zero_lt_succ 4
  | some c => exact colourId_lt names c.index

theorem colourAt_append (names : List String) (captures : List Capture) (c : Capture) (i : Nat) :
    colourAt names (captures ++ [c]) i =
      if Paints names i c then colourId names c.index else colourAt names captures i := by
  unfold colourAt
  rw [List.filter_append]
  split
  · rename_i h
    rw [List.filter_cons_of_pos (by simpa using h)]
    simp
  · rename_i h
    rw [List.filter_cons_of_neg (by simpa using h)]
    simp

theorem paint_range (names : List String) (n : Nat) (f : Nat → UInt8) (c : Capture) :
    paint names ((List.range n).map f) c =
      (List.range n).map fun i => if Paints names i c then colourId names c.index else f i := by
  apply List.ext_getElem?
  intro i
  unfold paint
  split
  · rename_i h
    simp [Paints, h]
  · rename_i h
    by_cases hi : i < n
    · simp [Paints, h, hi]
    · simp [hi]

/-- The mask holds the colour of every byte. -/
theorem mask_spec (names : List String) (captures : List Capture) (n : Nat) :
    captures.foldl (paint names) (List.replicate n 0) =
      (List.range n).map (colourAt names captures) := by
  induction captures using List.reverseRecOn with
  | nil =>
    have hzero : colourAt names [] = fun _ => 0 := rfl
    rw [hzero, List.map_const', List.length_range]
    rfl
  | append_singleton captures c ih =>
    rw [List.foldl_append, ih, List.foldl_cons, List.foldl_nil, paint_range]
    apply List.map_congr_left
    intro i _
    exact (colourAt_append names captures c i).symm

/-! ## The runs -/

/-- A block cut into its longest runs of one colour. -/
structure IsRuns (colour : Nat → UInt8) (data : Bytes) (runs : List (UInt8 × Bytes)) : Prop where
  joined : (runs.map Prod.snd).flatten = data
  filled : ∀ r ∈ runs, r.2 ≠ []
  coloured : runs.flatMap (fun r => List.replicate r.2.length r.1) = (List.range data.length).map colour
  longest : runs.IsChain fun a b => a.1 ≠ b.1

def codeOf (id : UInt8) : Bytes := (colours[id.toNat]?).getD []

/-- What the node passes on for the runs of a block. -/
def rendered (runs : List (UInt8 × Bytes)) : Bytes := runs.flatMap (fun r => codeOf r.1 ++ r.2) ++ reset

/-- The chunks of the mask, each with its bytes. -/
def sliced : List (List UInt8) → Bytes → List (UInt8 × Bytes)
  | [], _ => []
  | chunk :: chunks, data =>
    (chunk.headD 0, data.take chunk.length) :: sliced chunks (data.drop chunk.length)

theorem format_spec {chunks : List (List UInt8)} (data : Bytes)
    (h : ∀ chunk ∈ chunks, (chunk.headD 0).toNat < 5) :
    format chunks data = .ok (rendered (sliced chunks data)) := by
  induction chunks generalizing data with
  | nil => rfl
  | cons chunk chunks ih =>
    have hid : (chunk.headD 0).toNat < colours.length := h chunk List.mem_cons_self
    have hrest := ih (data.drop chunk.length) fun c hc => h c (List.mem_cons_of_mem chunk hc)
    unfold format
    simp only [List.getElem?_eq_getElem hid, hrest, rendered, sliced, codeOf, Except.map, Option.getD_some,
      List.flatMap_cons, List.append_assoc]

/-- What is left behind a chunk is as long as the other chunks. -/
theorem flatten_rest {chunk : List UInt8} {chunks : List (List UInt8)} {data : Bytes}
    (h : (chunk :: chunks).flatten.length = data.length) :
    (data.take chunk.length).length = chunk.length ∧
      chunks.flatten.length = (data.drop chunk.length).length := by
  rw [List.flatten_cons, List.length_append] at h
  rw [List.length_take, List.length_drop]
  omega

theorem sliced_joined {chunks : List (List UInt8)} {data : Bytes}
    (h : chunks.flatten.length = data.length) : ((sliced chunks data).map Prod.snd).flatten = data := by
  induction chunks generalizing data with
  | nil =>
    rw [List.eq_nil_of_length_eq_zero h.symm]
    rfl
  | cons chunk chunks ih =>
    rw [sliced, List.map_cons, List.flatten_cons, ih (flatten_rest h).2, List.take_append_drop]

theorem sliced_filled {chunks : List (List UInt8)} {data : Bytes} (hne : ∀ chunk ∈ chunks, chunk ≠ [])
    (h : chunks.flatten.length = data.length) : ∀ r ∈ sliced chunks data, r.2 ≠ [] := by
  induction chunks generalizing data with
  | nil => simp [sliced]
  | cons chunk chunks ih =>
    obtain ⟨htake, hrest⟩ := flatten_rest h
    intro r hr
    rcases List.mem_cons.mp hr with rfl | hr
    · apply List.length_pos_iff.mp
      rw [htake]
      exact List.length_pos_iff.mpr (hne chunk List.mem_cons_self)
    · exact ih (fun c hc => hne c (List.mem_cons_of_mem chunk hc)) hrest r hr

/-- A chunk of equal values is its first value, repeated. -/
theorem eq_replicate_of_isChain {chunk : List UInt8} (h : chunk.IsChain fun x y => (x == y) = true) :
    chunk = List.replicate chunk.length (chunk.headD 0) := by
  cases chunk with
  | nil => rfl
  | cons x xs =>
    have hall : ∀ y ∈ xs, y = x := by
      have hpair : (x :: xs).Pairwise (· = ·) := by
        rw [← List.isChain_iff_pairwise]
        exact h.imp fun _ _ hxy => by simpa using hxy
      intro y hy
      exact ((List.pairwise_cons.mp hpair).1 y hy).symm
    rw [List.headD_cons, List.length_cons, List.replicate_succ, ← List.eq_replicate_of_mem hall]

theorem sliced_coloured {chunks : List (List UInt8)} {data : Bytes}
    (hsame : ∀ chunk ∈ chunks, chunk.IsChain fun x y => (x == y) = true)
    (h : chunks.flatten.length = data.length) :
    (sliced chunks data).flatMap (fun r => List.replicate r.2.length r.1) = chunks.flatten := by
  induction chunks generalizing data with
  | nil => rfl
  | cons chunk chunks ih =>
    obtain ⟨htake, hrest⟩ := flatten_rest h
    have hchunk := eq_replicate_of_isChain (hsame chunk List.mem_cons_self)
    rw [sliced, List.flatMap_cons, List.flatten_cons, htake, ← hchunk,
      ih (fun c hc => hsame c (List.mem_cons_of_mem chunk hc)) hrest]

theorem sliced_longest {chunks : List (List UInt8)} (data : Bytes)
    (h : chunks.IsChain fun a b => a.headD 0 ≠ b.headD 0) :
    (sliced chunks data).IsChain fun a b => a.1 ≠ b.1 := by
  induction chunks generalizing data with
  | nil => exact List.isChain_nil
  | cons chunk chunks ih =>
    cases chunks with
    | nil => exact List.isChain_singleton _
    | cons other chunks =>
      rw [List.isChain_cons_cons] at h
      rw [sliced, sliced, List.isChain_cons_cons]
      exact ⟨h.1, ih (data.drop chunk.length) h.2⟩

theorem mem_of_isChain {chunk : List UInt8} (h : chunk.IsChain fun x y => (x == y) = true) {x : UInt8}
    (hx : x ∈ chunk) : x = chunk.headD 0 := by
  rw [eq_replicate_of_isChain h] at hx
  exact List.eq_of_mem_replicate hx

theorem splitBy_longest (mask : List UInt8) :
    (mask.splitBy (· == ·)).IsChain fun a b => a.headD 0 ≠ b.headD 0 := by
  have hchain := List.isChain_getLast_head_splitBy (· == ·) mask
  rw [List.isChain_iff_getElem] at hchain ⊢
  intro i hi
  obtain ⟨ha, hb, hne⟩ := hchain i hi
  rw [mem_of_isChain (List.isChain_of_mem_splitBy (List.getElem_mem _)) (List.getLast_mem ha),
    mem_of_isChain (List.isChain_of_mem_splitBy (List.getElem_mem _)) (List.head_mem hb)] at hne
  simpa using hne

/-- The runs that the node formats. -/
theorem isRuns_sliced (colour : Nat → UInt8) (data : Bytes) :
    IsRuns colour data (sliced (((List.range data.length).map colour).splitBy (· == ·)) data) := by
  have hflat := List.flatten_splitBy (· == ·) ((List.range data.length).map colour)
  have hlen : (((List.range data.length).map colour).splitBy (· == ·)).flatten.length = data.length := by
    rw [hflat, List.length_map, List.length_range]
  refine ⟨sliced_joined hlen, sliced_filled (fun _ hc => List.ne_nil_of_mem_splitBy hc) hlen, ?_,
    sliced_longest data (splitBy_longest _)⟩
  rw [sliced_coloured (fun _ hc => List.isChain_of_mem_splitBy hc) hlen, hflat]

/-! ## The node -/

/-- The tree-sitter library does its part, and the captures lie in the block. -/
structure TreeSitter.Works (ts : TreeSitter) (names : List String) (data : Bytes)
    (captures : List Capture) : Prop where
  parser : ts.parser = true
  language : ts.language = true
  query : ts.query = .ok names
  cursor : ts.cursor = true
  parse : ts.parse data = some captures
  inside : ∀ c ∈ captures, c.start ≤ c.stop ∧ c.stop ≤ data.length

/-- The node passes the block on, run by run, each behind the code of its colour. -/
theorem tree_sitter_spec {ts : TreeSitter} {names : List String} {data : Bytes} {captures : List Capture}
    (h : ts.Works names data captures) :
    ∃ runs, IsRuns (colourAt names captures) data runs ∧
      ∀ {σ : Type} (next : Stage Bytes σ) (s : σ), treeSitter ts next data s = next (rendered runs) s := by
  refine ⟨_, isRuns_sliced (colourAt names captures) data, fun next s => ?_⟩
  have hids : ∀ chunk ∈ ((List.range data.length).map (colourAt names captures)).splitBy (· == ·),
      (chunk.headD 0).toNat < 5 := by
    intro chunk hchunk
    obtain ⟨x, xs, rfl⟩ := List.exists_cons_of_ne_nil (List.ne_nil_of_mem_splitBy hchunk)
    have hx : x ∈ (List.range data.length).map (colourAt names captures) := by
      rw [← List.flatten_splitBy (· == ·) ((List.range data.length).map (colourAt names captures))]
      exact List.mem_flatten_of_mem hchunk List.mem_cons_self
    obtain ⟨i, -, rfl⟩ := List.mem_map.mp hx
    exact colourAt_lt names captures i
  unfold treeSitter
  simp only [h.parser, h.language, h.query, h.cursor, h.parse, mask_spec, format_spec data hids,
    Bool.not_true, Bool.false_eq_true, if_false]

end Omnipp.Transform
