/-
# The best derivation

The search visits the vertices of a forest in order and keeps for each its best edge and the score
of what that edge roots.  At a vertex every edge is a candidate: its own score, and the scores of
its children added from left to right.  Where the objective has a BLEU term, the weighted BLEU of
the edge is added too, measured on the summaries of the children.  The last candidate that is at
least as good as the best before it wins.

As vertices are visited in order, the table of those that were visited is an array in which every
new vertex gets the next place; a gap for a vertex without a place there means that the forest is
not in bottom-up order.  So no edge in a table leads ahead, and the table says so itself
(`Table.bottomUp`).

The text of the root is written in a second walk, along the edges in the table, with a stack of
slots that are still to be written (`Table.turn`).  A vertex is walked through as often as it
is used, and the walk comes to an end because no edge leads ahead (`Table.load_turn`).
-/
import ForestRescoring.Scorer

namespace ForestRescoring

open scoped List

/-- What the search looks for. -/
structure Objective (K : Type) where
  weights : FeatureVector K
  /-- The weight of the BLEU term; there is none if this is zero. -/
  bleuWeight : K
  /-- What is added to counts before their logarithm is taken. -/
  smoothing : K

/-- What a search finds: a derivation by its text, its score and what it is made of. -/
structure Decoding (K : Type) where
  text : List WordId
  /-- The score that the search gave it, with the BLEU term. -/
  score : K
  /-- The features of all edges used. -/
  features : FeatureVector K
  /-- The statistics of the text as a whole against the references. -/
  statistics : Statistics

namespace Search

variable {K : Type}

/-! ## 1. Tables -/

/-- What is known of a vertex that was visited. -/
structure Entry (K : Type) where
  /-- The edge that won; a leaf has none. -/
  edge : Option EdgeId
  score : K

/-- The edge of an entry uses only vertices in front of `v`. -/
def Entry.UsesBefore (f : Forest K) (v : VertexId) (entry : Entry K) : Prop :=
  ∀ id e, entry.edge = some id → f.edge? id = some e → ∀ c ∈ e.children, c < v

/-- The vertices of a forest that were visited, in order. -/
structure Table (f : Forest K) where
  entries : Array (Entry K)
  bottomUp : ∀ (v : VertexId) (entry : Entry K), entries[v]? = some entry → entry.UsesBefore f v

variable {f : Forest K}

namespace Table

/-- No vertex was visited. -/
def empty : Table f := ⟨#[], fun v entry h => by simp at h⟩

/-- The number of vertices visited, which is the next vertex. -/
def size (t : Table f) : Nat := t.entries.size

/-- One more vertex. -/
def push (t : Table f) (entry : Entry K) (h : entry.UsesBefore f t.size) : Table f where
  entries := t.entries.push entry
  bottomUp := by
    intro v old hold
    rw [Array.getElem?_push] at hold
    split at hold
    · next hv =>
      cases hold
      exact hv ▸ h
    · exact t.bottomUp v old hold

/-- The edge that won at a vertex; a leaf has none, and neither has a vertex that was not visited. -/
def chosen (t : Table f) (v : VertexId) : Option EdgeId := (t.entries[v]?).bind Entry.edge

/-- The score of what is rooted at a vertex. -/
def score [Scalar K] (t : Table f) (v : VertexId) : K :=
  ((t.entries[v]?).map Entry.score).getD Scalar.zero

/-- The vertices that an edge of the table uses come before its own. -/
theorem lt_of_chosen {t : Table f} {v : VertexId} {id : EdgeId} {e : Edge K}
    (h : t.chosen v = some id) (he : f.edge? id = some e) : ∀ c ∈ e.children, c < v := by
  rw [chosen, Option.bind_eq_some_iff] at h
  obtain ⟨entry, hentry, hid⟩ := h
  exact t.bottomUp v entry hentry id e hid he

end Table

/-- The vertices visited so far, and the scorer if BLEU counts. -/
structure Sweep (f : Forest K) where
  table : Table f
  scorer : Option (Scorer K)

/-- The entry of a child of the vertex that is being visited. -/
def Sweep.child (s : Sweep f) (c : VertexId) : Except SearchError (Entry K) :=
  match s.table.entries[c]? with
  | some entry => .ok entry
  | none => .error (.notBottomUp s.table.size c)

/-- A child with an entry was visited. -/
theorem Sweep.lt_of_child {s : Sweep f} {c : VertexId} {entry : Entry K}
    (h : s.child c = .ok entry) : c < s.table.size := by
  unfold child at h
  split at h
  · next hsome => exact (Array.getElem?_eq_some_iff.mp hsome).1
  · cases h

/-! ## 2. Candidates -/

/-- An edge of the vertex that is being visited, and how good it is. -/
structure Candidate (s : Sweep f) where
  id : EdgeId
  edge : Edge K
  score : K
  statistics : Statistics
  found : f.edge? id = some edge
  visited : ∀ c ∈ edge.children, c < s.table.size

section

variable [Scalar K]

/-- Nothing visited yet. -/
def Sweep.start (o : Objective K) (references : SentenceReferences) (f : Forest K) : Sweep f where
  table := .empty
  scorer :=
    if Scalar.isZero o.bleuWeight then none else some (.start references o.smoothing f)

/-- Adds the scores of children to a score. -/
def Sweep.addScores (s : Sweep f) (score : K) : List VertexId → Except SearchError K
  | [] => .ok score
  | c :: rest => do
    let entry ← s.child c
    s.addScores (score + entry.score) rest

/-- Children with scores were visited. -/
theorem Sweep.lt_of_addScores {s : Sweep f} {score total : K} {children : List VertexId}
    (h : s.addScores score children = .ok total) : ∀ c ∈ children, c < s.table.size := by
  induction children generalizing score with
  | nil => exact fun c hc => by cases hc
  | cons c rest ih =>
    unfold addScores at h
    cases hentry : s.child c with
    | error x =>
      rw [hentry] at h
      cases h
    | ok entry =>
      rw [hentry] at h
      intro d hd
      rcases List.mem_cons.mp hd with rfl | hd
      · exact lt_of_child hentry
      · exact ih h d hd

/-- The score of an edge with the scores of its children added. -/
def modelScore (o : Objective K) (s : Sweep f) (e : Edge K) : Except SearchError K :=
  s.addScores (e.score o.weights) e.children

/-- How good the edge with a given number is at a vertex. -/
def candidate (o : Objective K) (s : Sweep f) (v : Vertex) (id : EdgeId) :
    Except SearchError (Candidate s) :=
  match he : f.edge? id with
  | none => .error (.unknownEdge id)
  | some e =>
    match hscore : modelScore o s e with
    | .error x => .error x
    | .ok score =>
      have visited := Sweep.lt_of_addScores hscore
      match s.scorer with
      | none => .ok ⟨id, e, score, .zero, he, visited⟩
      | some scorer => do
        let found ← scorer.score e v.sourceCovered
        return ⟨id, e, score + o.bleuWeight * found.1, found.2, he, visited⟩

/-- The better of two alternatives; the later one if they are equally good. -/
def prefer {α : Type} (score : α → K) (best : Option α) (c : α) : Option α :=
  match best with
  | none => some c
  | some b => if Scalar.atLeast (score c) (score b) then some c else some b

/-- The winner among alternatives, if there are any. -/
def winner {α : Type} (score : α → K) (cs : List α) : Option α := cs.foldl (prefer score) none

end

/-! ## 3. The sweep -/

/-- An entry without an edge, as a leaf has it. -/
def Entry.leaf [Scalar K] : Entry K := ⟨none, Scalar.zero⟩

/-- The entry of a vertex where a candidate won. -/
def Candidate.entry {s : Sweep f} (c : Candidate s) : Entry K := ⟨some c.id, c.score⟩

/-- A leaf uses no vertex. -/
theorem Entry.usesBefore_leaf [Scalar K] (v : VertexId) : (leaf : Entry K).UsesBefore f v := by
  intro id e hid
  cases hid

/-- A candidate uses only vertices that were visited. -/
theorem Candidate.usesBefore_entry {s : Sweep f} (c : Candidate s) :
    c.entry.UsesBefore f s.table.size := by
  intro id e hid he
  cases hid
  rw [c.found] at he
  cases he
  exact c.visited

/-- Settles the vertex that is being visited with its winner. -/
def settle (s : Sweep f) (c : Candidate s) : Except SearchError (Sweep f) := do
  let scorer ← s.scorer.mapM fun scorer => scorer.fixEdge s.table.size c.edge c.statistics
  return ⟨s.table.push c.entry c.usesBefore_entry, scorer⟩

section

variable [Scalar K]

/-- Visits a leaf. -/
def visitLeaf (s : Sweep f) : Except SearchError (Sweep f) := do
  let scorer ← s.scorer.mapM fun scorer => scorer.fixLeaf s.table.size
  return ⟨s.table.push .leaf (Entry.usesBefore_leaf _), scorer⟩

/-- Visits the next vertex. -/
def visit (o : Objective K) (s : Sweep f) (v : Vertex) : Except SearchError (Sweep f) := do
  let candidates ← v.incoming.mapM (candidate o s v)
  match winner Candidate.score candidates with
  | none => visitLeaf s
  | some c => settle s c

/-- Visits all vertices. -/
def sweep (o : Objective K) (references : SentenceReferences) (f : Forest K) :
    Except SearchError (Sweep f) :=
  f.vertices.toList.foldlM (visit o) (.start o references f)

end

/-! ## 4. How long a walk can be -/

/-- More slots than any edge has. -/
def breadth (f : Forest K) : Nat := (f.edges.toList.flatMap Edge.slots).length + 1

/-- An edge has fewer slots than the breadth. -/
theorem length_lt_breadth {id : EdgeId} {e : Edge K} (h : f.edge? id = some e) :
    e.slots.length < breadth f := by
  have hmem : e ∈ f.edges.toList := Array.mem_toList_iff.mpr (Array.mem_of_getElem? h)
  have hsub : e.slots <+ f.edges.toList.flatMap Edge.slots :=
    List.sublist_flatten_of_mem (List.mem_map_of_mem hmem)
  exact Nat.lt_succ_of_le hsub.length_le

/-- A bound for the turns that a stack takes.  A vertex counts for more than the slots of any edge
that uses only vertices in front of it. -/
def load (breadth : Nat) : List Slot → Nat
  | [] => 0
  | .word _ :: rest => load breadth rest + 1
  | .gap v :: rest => load breadth rest + Nat.pow breadth (v + 1)

theorem load_append (b : Nat) (xs ys : List Slot) : load b (xs ++ ys) = load b xs + load b ys := by
  induction xs with
  | nil => exact (Nat.zero_add _).symm
  | cons x xs ih =>
    cases x with
    | word w =>
      rw [List.cons_append, load, load, ih]
      omega
    | gap v =>
      rw [List.cons_append, load, load, ih]
      omega

theorem load_le {b : Nat} (hb : 0 < b) {v : VertexId} {slots : List Slot}
    (h : ∀ c ∈ slots.filterMap Slot.child?, c < v) : load b slots ≤ slots.length * Nat.pow b v := by
  induction slots with
  | nil => exact Nat.zero_le _
  | cons x slots ih =>
    rw [List.length_cons, Nat.succ_mul]
    cases x with
    | word w => exact Nat.add_le_add (ih h) (Nat.pow_pos hb)
    | gap c =>
      have hc : c + 1 ≤ v := h c List.mem_cons_self
      have hrest := ih fun d hd => h d (List.mem_cons_of_mem c hd)
      exact Nat.add_le_add hrest (Nat.pow_le_pow_right hb hc)

/-! ## 5. The walk -/

/-- A text that is being written. -/
structure Expansion (K : Type) where
  text : Array WordId
  /-- The features of the edges met so far. -/
  features : FeatureVector K
  /-- What is still to be written, the next slot first. -/
  stack : List Slot

/-- Nothing but a vertex to write. -/
def Expansion.start (v : VertexId) : Expansion K := ⟨#[], .empty, [.gap v]⟩

namespace Table

variable [Scalar K]

/-- One turn of the walk: a word is written, and a vertex is replaced by the slots of its edge. -/
def turn (t : Table f) (x : Expansion K) : Except SearchError (Expansion K) :=
  match x.stack with
  | [] => .ok x
  | .word w :: rest => .ok { x with text := x.text.push w, stack := rest }
  | .gap v :: rest =>
    match t.chosen v with
    | none => .ok { x with stack := rest }
    | some id =>
      match f.edge? id with
      | none => .error (.unknownEdge id)
      | some e => .ok { x with features := x.features.add e.features, stack := e.slots ++ rest }

/-- **Every turn lightens the stack.** -/
theorem load_turn {t : Table f} {x y : Expansion K} (hx : x.stack ≠ []) (h : t.turn x = .ok y) :
    load (breadth f) y.stack < load (breadth f) x.stack := by
  unfold turn at h
  split at h
  · next hnil => exact absurd hnil hx
  · next w rest hstack =>
    cases h
    rw [hstack, load]
    exact Nat.lt_succ_self _
  · next v rest hstack =>
    have hpos : 0 < Nat.pow (breadth f) v := Nat.pow_pos (Nat.succ_pos _)
    have hpow : Nat.pow (breadth f) (v + 1) = Nat.pow (breadth f) v * breadth f := rfl
    rw [hstack, load, hpow]
    split at h
    · cases h
      exact Nat.lt_add_of_pos_right (Nat.mul_pos hpos (Nat.succ_pos _))
    · next id hid =>
      split at h
      · cases h
      · next e he =>
        cases h
        have hslots := load_le (Nat.succ_pos _ : 0 < breadth f)
          (Edge.forall_gap_iff.mpr (lt_of_chosen hid he))
        have hfew := Nat.mul_lt_mul_of_pos_right (length_lt_breadth he) hpos
        show load (breadth f) (e.slots ++ rest) < _
        rw [load_append, Nat.add_comm, Nat.mul_comm]
        exact Nat.add_lt_add_left (Nat.lt_of_le_of_lt hslots hfew) _

/-- Takes turns until nothing is left to write. -/
def expand (t : Table f) (x : Expansion K) : Except SearchError (Expansion K) :=
  if hx : x.stack = [] then .ok x
  else
    match h : t.turn x with
    | .error e => .error e
    | .ok y =>
      have : load (breadth f) y.stack < load (breadth f) x.stack := load_turn hx h
      t.expand y
termination_by load (breadth f) x.stack

end Table

end Search

/-- The best derivation of the root of a forest. -/
def Forest.best {K : Type} [Scalar K] (f : Forest K) (o : Objective K)
    (references : SentenceReferences) : Except SearchError (Decoding K) :=
  match f.root? with
  | none => .error .emptyForest
  | some root => do
    let s ← Search.sweep o references f
    let walked ← s.table.expand (.start root)
    let text := walked.text.toList
    return ⟨text, s.table.score root, walked.features, references.statistics text⟩

end ForestRescoring
