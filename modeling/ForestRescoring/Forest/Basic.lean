/-
# Forests of target texts

A forest packs the target texts that a source sentence may have.  A vertex stands for a part of the
source sentence; each of its incoming edges is one way to build a text for it: a row of slots, some
filled with a word, some open for the text of another vertex (a gap).  A vertex without edges is a
leaf and has the empty text.

Vertices and edges are numbered by position and only ever added, up to a capacity that is declared
first.  Nothing here keeps edges from being shared or from naming vertices that do not come first,
or do not exist: the search checks what it needs.  What is added is found at its position
(`Forest.vertex?_addVertex`, `Forest.edge?_addEdge`).
-/
import ForestRescoring.Lexicon
import ForestRescoring.FeatureVector.Basic

namespace ForestRescoring

/-! ## 1. Edges -/

/-- A vertex, by position.  The program keeps positions in 32 bits, so it has room for fewer than
`2 ^ 32` vertices; here they are not bounded. -/
abbrev VertexId := Nat

/-- An edge, by position; in the program below `2 ^ 32` too. -/
abbrev EdgeId := Nat

/-- One place of the target side of an edge. -/
inductive Slot where
  /-- A word. -/
  | word (w : WordId)
  /-- Room for the text of a vertex. -/
  | gap (child : VertexId)
  deriving DecidableEq, Repr

/-- The vertex that a gap is for. -/
def Slot.child? : Slot → Option VertexId
  | .word _ => none
  | .gap child => some child

/-- One place of a target side as an edge keeps it: a gap is known by its number among the gaps, and
its vertex stands in a list of its own. -/
inductive NumberedSlot where
  /-- A word. -/
  | word (w : WordId)
  /-- The gap with a number, counted from zero. -/
  | gap (ordinal : Nat)
  deriving DecidableEq, Repr

namespace NumberedSlot

/-- The number of a gap. -/
def ordinal? : NumberedSlot → Option Nat
  | .word _ => none
  | .gap ordinal => some ordinal

/-- The slot that a numbered slot is, when the children are listed. -/
def resolve? (children : List VertexId) : NumberedSlot → Option Slot
  | .word w => some (.word w)
  | .gap ordinal => children[ordinal]?.map Slot.gap

end NumberedSlot

/-- Numbers the gaps of a row of slots from left to right, from a number on. -/
def numberGaps (ordinal : Nat) : List Slot → List NumberedSlot
  | [] => []
  | .word w :: rest => .word w :: numberGaps ordinal rest
  | .gap _ :: rest => .gap ordinal :: numberGaps (ordinal + 1) rest

/-- **Gaps that are numbered in order find their children.**  The children from `front` on are those of
the gaps, and the row with its gaps numbered again is as it was. -/
theorem exists_slots_of_ordered {target : List NumberedSlot} (front : List VertexId)
    {children : List VertexId}
    (h : target.filterMap NumberedSlot.ordinal? = List.range' front.length children.length) :
    ∃ slots : List Slot, target.map (NumberedSlot.resolve? (front ++ children)) = slots.map some ∧
      slots.filterMap Slot.child? = children ∧ numberGaps front.length slots = target := by
  induction target generalizing front children with
  | nil =>
    have hlength := congrArg List.length h
    rw [List.filterMap_nil, List.length_range', List.length_nil] at hlength
    rw [List.eq_nil_of_length_eq_zero hlength.symm]
    exact ⟨[], rfl, rfl, rfl⟩
  | cons slot target ih =>
    cases slot with
    | word w =>
      obtain ⟨slots, hslots, hchildren, hnumbers⟩ := ih front h
      exact ⟨.word w :: slots, congrArg (some (Slot.word w) :: ·) hslots, hchildren,
        congrArg (NumberedSlot.word w :: ·) hnumbers⟩
    | gap ordinal =>
      cases children with
      | nil => cases h
      | cons c children =>
        rw [List.length_cons, List.range'_succ] at h
        obtain ⟨hordinal, hrest⟩ := List.cons.inj h
        cases hordinal
        have hlength : (front ++ [c]).length = front.length + 1 := by simp
        rw [← hlength] at hrest
        obtain ⟨slots, hslots, hchildren, hnumbers⟩ := ih (front ++ [c]) hrest
        rw [List.append_assoc, List.singleton_append] at hslots
        rw [hlength] at hnumbers
        refine ⟨.gap c :: slots, ?_, congrArg (c :: ·) hchildren, ?_⟩
        · have hfound : (NumberedSlot.gap front.length).resolve? (front ++ c :: children) =
              some (.gap c) := by
            simp [NumberedSlot.resolve?]
          rw [List.map_cons, List.map_cons, hfound, hslots]
        · exact congrArg (NumberedSlot.gap front.length :: ·) hnumbers

/-- Where every entry has an image, the images are those. -/
theorem filterMap_of_map_eq {α β : Type} {f : α → Option β} {as : List α} {bs : List β}
    (h : as.map f = bs.map some) : as.filterMap f = bs := by
  have himages := congrArg (List.filterMap id) h
  rw [List.filterMap_map, List.filterMap_map] at himages
  exact himages.trans List.filterMap_some

/-- One way to build a text: its target side, the children that stand in its gaps, and its features.
The gaps are numbered from left to right, one for each child. -/
structure Edge (K : Type) where
  target : List NumberedSlot
  /-- The vertices of the gaps, from left to right. -/
  children : List VertexId
  features : FeatureVector K
  ordered : target.filterMap NumberedSlot.ordinal? = List.range children.length

namespace Edge

variable {K : Type}

/-- Neither slots nor features. -/
def empty : Edge K := ⟨[], [], .empty, rfl⟩

/-- One more word at the right end. -/
def pushWord (e : Edge K) (w : WordId) : Edge K where
  target := e.target ++ [.word w]
  children := e.children
  features := e.features
  ordered := by rw [List.filterMap_append, e.ordered]; exact List.append_nil _

/-- One more gap at the right end, which gets the next number. -/
def pushGap (e : Edge K) (child : VertexId) : Edge K where
  target := e.target ++ [.gap e.children.length]
  children := e.children ++ [child]
  features := e.features
  ordered := by
    rw [List.filterMap_append, e.ordered, List.length_append, List.length_singleton,
      List.range_succ]
    rfl

/-- One more slot at the right end. -/
def push (e : Edge K) : Slot → Edge K
  | .word w => e.pushWord w
  | .gap child => e.pushGap child

/-- Gives a feature a value. -/
def setFeature (e : Edge K) (name : String) (value : K) : Edge K :=
  { e with features := e.features.set name value }

/-- An edge with given slots and features. -/
def ofSlots (slots : List Slot) (features : FeatureVector K) : Edge K :=
  slots.foldl push ⟨[], [], features, rfl⟩

/-- The slots, each gap with its child. -/
def slots (e : Edge K) : List Slot := e.target.filterMap (NumberedSlot.resolve? e.children)

/-- The number of words on the edge itself. -/
def literalCount (e : Edge K) : Nat := e.slots.countP fun s => s.child?.isNone

/-- The score that a model gives the edge by itself. -/
def score [Scalar K] (e : Edge K) (weights : FeatureVector K) : K := e.features.dot weights

/-- **Every gap finds its child**, the children are those of the gaps, and the slots tell as much as
the numbered ones. -/
theorem slots_spec (e : Edge K) :
    e.target.map (NumberedSlot.resolve? e.children) = e.slots.map some ∧
      e.slots.filterMap Slot.child? = e.children ∧ numberGaps 0 e.slots = e.target := by
  have hordered : e.target.filterMap NumberedSlot.ordinal? =
      List.range' ([] : List VertexId).length e.children.length :=
    e.ordered.trans List.range_eq_range'
  obtain ⟨slots, hslots, hchildren, hnumbers⟩ := exists_slots_of_ordered [] hordered
  have heq : e.slots = slots := filterMap_of_map_eq hslots
  rw [heq]
  exact ⟨hslots, hchildren, hnumbers⟩

/-- The children are those of the gaps. -/
@[simp] theorem filterMap_child?_slots (e : Edge K) : e.slots.filterMap Slot.child? = e.children :=
  e.slots_spec.2.1

/-- What holds of all gaps holds of all children. -/
theorem forall_gap_iff {e : Edge K} {p : VertexId → Prop} :
    (∀ c ∈ e.slots.filterMap Slot.child?, p c) ↔ ∀ c ∈ e.children, p c := by
  rw [filterMap_child?_slots]

/-- Edges are equal if their slots and their features are. -/
theorem eq_of_slots_eq {e e' : Edge K} (hslots : e.slots = e'.slots)
    (hfeatures : e.features = e'.features) : e = e' := by
  obtain ⟨-, hchildren, htarget⟩ := e.slots_spec
  obtain ⟨-, hchildren', htarget'⟩ := e'.slots_spec
  rw [hslots, hchildren'] at hchildren
  rw [hslots, htarget'] at htarget
  cases e
  cases e'
  cases htarget
  cases hchildren
  cases hfeatures
  rfl

/-- The number of a gap is a place in the row of children. -/
theorem lt_of_gap_mem_target {e : Edge K} {ordinal : Nat} (h : .gap ordinal ∈ e.target) :
    ordinal < e.children.length := by
  have hmem : ordinal ∈ e.target.filterMap NumberedSlot.ordinal? :=
    List.mem_filterMap.mpr ⟨_, h, rfl⟩
  rw [e.ordered] at hmem
  exact List.mem_range.mp hmem

/-- A pushed slot stands behind the others. -/
@[simp] theorem slots_push (e : Edge K) (slot : Slot) : (e.push slot).slots = e.slots ++ [slot] := by
  cases slot with
  | word w => exact List.filterMap_append
  | gap child =>
    have hold : e.target.map (NumberedSlot.resolve? (e.children ++ [child])) =
        e.slots.map some := by
      rw [← e.slots_spec.1]
      refine List.map_congr_left fun slot hslot => ?_
      cases slot with
      | word w => rfl
      | gap ordinal =>
        rw [NumberedSlot.resolve?, NumberedSlot.resolve?,
          List.getElem?_append_left (lt_of_gap_mem_target hslot)]
    have hnew : (NumberedSlot.gap e.children.length).resolve? (e.children ++ [child]) =
        some (.gap child) := by
      simp [NumberedSlot.resolve?]
    show (e.target ++ [NumberedSlot.gap e.children.length]).filterMap
      (NumberedSlot.resolve? (e.children ++ [child])) = _
    rw [List.filterMap_append, List.filterMap_cons_some hnew, List.filterMap_nil,
      filterMap_of_map_eq hold]

/-- Pushing slots one after the other. -/
theorem foldl_push (slots : List Slot) (e : Edge K) :
    (slots.foldl push e).slots = e.slots ++ slots ∧
      (slots.foldl push e).features = e.features := by
  induction slots generalizing e with
  | nil => exact ⟨(List.append_nil _).symm, rfl⟩
  | cons slot slots ih =>
    obtain ⟨hslots, hfeatures⟩ := ih (e.push slot)
    rw [slots_push, List.append_assoc, List.singleton_append] at hslots
    exact ⟨hslots, hfeatures.trans (by cases slot <;> rfl)⟩

@[simp] theorem slots_ofSlots (slots : List Slot) (features : FeatureVector K) :
    (ofSlots slots features).slots = slots := (foldl_push slots _).1

@[simp] theorem features_ofSlots (slots : List Slot) (features : FeatureVector K) :
    (ofSlots slots features).features = features := (foldl_push slots _).2

@[simp] theorem children_ofSlots (slots : List Slot) (features : FeatureVector K) :
    (ofSlots slots features).children = slots.filterMap Slot.child? := by
  rw [← filterMap_child?_slots, slots_ofSlots]

end Edge

/-! ## 2. Vertices -/

/-- The alternative edges of a vertex, and the number of source words that its texts cover. -/
structure Vertex where
  incoming : List EdgeId
  sourceCovered : Nat
  deriving DecidableEq, Repr

namespace Vertex

/-- A leaf that covers nothing. -/
def empty : Vertex := ⟨[], 0⟩

/-- There is no way to build a text but the empty one. -/
def isLeaf (v : Vertex) : Bool := v.incoming.isEmpty

/-- One more edge, behind the others. -/
def addEdge (v : Vertex) (e : EdgeId) : Vertex := { v with incoming := v.incoming ++ [e] }

end Vertex

/-! ## 3. Forests -/

/-- What a forest has no more room for. -/
inductive Pool where
  | vertex
  | edge
  deriving DecidableEq, Repr

/-- The name of a pool in messages. -/
def Pool.name : Pool → String
  | .vertex => "vertex"
  | .edge => "edge"

/-- A pool is full: all the places that were declared are taken. -/
structure PoolExhausted where
  pool : Pool
  capacity : Nat
  deriving DecidableEq, Repr

/-- The words for a full pool. -/
def PoolExhausted.message (e : PoolExhausted) : String :=
  e.pool.name ++ " pool exhausted (capacity " ++ toString e.capacity ++ ")"

/-- Vertices and edges by position, and how many there may be. -/
structure Forest (K : Type) where
  vertexCapacity : Nat
  edgeCapacity : Nat
  vertices : Array Vertex
  edges : Array (Edge K)

namespace Forest

variable {K : Type}

/-- An empty forest with room for so many vertices and edges. -/
def withCapacity (vertices edges : Nat) : Forest K := ⟨vertices, edges, #[], #[]⟩

/-- Adds a vertex at the next position. -/
def addVertex (f : Forest K) (v : Vertex) : Except PoolExhausted (VertexId × Forest K) :=
  if f.vertices.size < f.vertexCapacity then
    .ok (f.vertices.size, { f with vertices := f.vertices.push v })
  else .error ⟨.vertex, f.vertexCapacity⟩

/-- Adds an edge at the next position. -/
def addEdge (f : Forest K) (e : Edge K) : Except PoolExhausted (EdgeId × Forest K) :=
  if f.edges.size < f.edgeCapacity then
    .ok (f.edges.size, { f with edges := f.edges.push e })
  else .error ⟨.edge, f.edgeCapacity⟩

/-- The vertex at a position. -/
def vertex? (f : Forest K) (v : VertexId) : Option Vertex := f.vertices[v]?

/-- The edge at a position. -/
def edge? (f : Forest K) (e : EdgeId) : Option (Edge K) := f.edges[e]?

/-- Changes the vertex at a position, if there is one. -/
def modifyVertex (f : Forest K) (v : VertexId) (change : Vertex → Vertex) : Forest K :=
  { f with vertices := f.vertices.modify v change }

/-- Changes the edge at a position, if there is one. -/
def modifyEdge (f : Forest K) (e : EdgeId) (change : Edge K → Edge K) : Forest K :=
  { f with edges := f.edges.modify e change }

/-- The goal: the last vertex. -/
def root? (f : Forest K) : Option VertexId :=
  if f.vertices.size = 0 then none else some (f.vertices.size - 1)

/-- Only a forest without vertices has no goal. -/
theorem root?_eq_none_iff {f : Forest K} : f.root? = none ↔ f.vertices = #[] := by
  simp [root?]

/-- An added vertex is found at its position, and every other position holds what it held. -/
theorem vertex?_addVertex {f g : Forest K} {v : Vertex} {n : VertexId}
    (h : f.addVertex v = .ok (n, g)) (k : VertexId) :
    g.vertex? k = if k = n then some v else f.vertex? k := by
  unfold addVertex at h
  split at h
  · cases h; exact Array.getElem?_push
  · cases h

/-- An added edge is found at its position, and every other position holds what it held. -/
theorem edge?_addEdge {f g : Forest K} {e : Edge K} {n : EdgeId} (h : f.addEdge e = .ok (n, g))
    (k : EdgeId) : g.edge? k = if k = n then some e else f.edge? k := by
  unfold addEdge at h
  split at h
  · cases h; exact Array.getElem?_push
  · cases h

/-- The length of the source sentence, as far as the root covers it. -/
def sourceLength (f : Forest K) : Nat := (f.vertices.back?.map Vertex.sourceCovered).getD 0

end Forest

end ForestRescoring
