/-
# Forests in writing

An outline says what the file of a forest says: for each vertex its edges, each with the tokens and
gaps of its target side, the names and spellings of its features, and the number of source words it
covers.  Tokens have no numbers here, and values are as they are spelled.

`Outline.print` writes an outline as a file.  An outline is proper (`Outline.Proper`) if the file can
be told apart from other files: no token looks like a gap, a field separator or several words, and no
line looks like a comment.  What the forest of an outline is like is said without reading anything
(`Outline.Describes`).
-/
import Mathlib
import ForestRescoring.Forest.Reading
import ForestRescoring.Proofs.Text.Written

namespace ForestRescoring

open Text

/-! ## 1. Slots -/

/-- One place of a target side. -/
inductive WrittenSlot where
  /-- A token. -/
  | word (token : String)
  /-- A gap for the text of a vertex. -/
  | gap (child : ℕ)
  deriving DecidableEq

namespace WrittenSlot

/-- A gap is the number of its vertex in brackets. -/
def text : WrittenSlot → List Char
  | word token => token.toList
  | gap child => '[' :: numeral child ++ [']']

def token? : WrittenSlot → Option String
  | word token => some token
  | gap _ => none

def child? : WrittenSlot → Option ℕ
  | word _ => none
  | gap child => some child

/-- The text is in brackets. -/
def InBrackets (t : List Char) : Prop := ∃ inner, t = '[' :: inner ++ [']']

theorem inBrackets_iff {t : List Char} :
    InBrackets t ↔ t.head? = some '[' ∧ t.tail.getLast? = some ']' := by
  constructor
  · rintro ⟨inner, rfl⟩
    simp
  · rintro ⟨hhead, hlast⟩
    obtain ⟨rest, rfl⟩ := List.head?_eq_some_iff.mp hhead
    obtain ⟨inner, rfl⟩ := List.getLast?_eq_some_iff.mp hlast
    exact ⟨inner, rfl⟩

instance (t : List Char) : Decidable (InBrackets t) := decidable_of_iff _ inBrackets_iff.symm

/-- A token is a word of its own, and neither a field separator nor a gap; a gap is for a vertex in
front of the head. -/
def Proper (head : ℕ) : WrittenSlot → Prop
  | word token =>
    IsWord token.toList ∧ token.toList ≠ EdgeLine.fieldSeparator ∧ ¬ InBrackets token.toList
  | gap child => child < head

instance (head : ℕ) : (s : WrittenSlot) → Decidable (s.Proper head)
  | word token => inferInstanceAs (Decidable (IsWord token.toList ∧ _ ∧ _))
  | gap child => inferInstanceAs (Decidable (child < head))

/-- The slot of an edge is what is written, its word being numbered by the lexicon. -/
def Describes (x : Lexicon) : WrittenSlot → Slot → Prop
  | word token, .word w => x.word? w = some token
  | gap child, .gap c => c = child
  | _, _ => False

end WrittenSlot

/-! ## 2. Edges -/

/-- One edge: its target side, its features with their spellings, and what it covers. -/
structure WrittenEdge where
  slots : List WrittenSlot
  features : List (String × String)
  covered : ℕ
  deriving DecidableEq

namespace WrittenEdge

/-- A name and a spelling with an equals sign between them. -/
def featureText (feature : String × String) : List Char :=
  feature.1.toList ++ '=' :: feature.2.toList

/-- The words of the line. -/
def words (w : WrittenEdge) : List (List Char) :=
  w.slots.map WrittenSlot.text ++
    EdgeLine.fieldSeparator :: (w.features.map featureText ++
      EdgeLine.fieldSeparator :: [numeral w.covered])

def line (w : WrittenEdge) : List Char := spaced w.words

/-- The tokens of the target side. -/
def tokens (w : WrittenEdge) : List String := w.slots.filterMap WrittenSlot.token?

/-- The vertices of the gaps. -/
def children (w : WrittenEdge) : List ℕ := w.slots.filterMap WrittenSlot.child?

/-- An edge of the vertex `head` that can be read back. -/
@[mk_iff] structure Proper (head : ℕ) (w : WrittenEdge) : Prop where
  slots : ∀ s ∈ w.slots, s.Proper head
  names : (w.features.map Prod.fst).Nodup
  unbroken : ∀ p ∈ w.features, Unbroken p.1.toList
  finite : ∀ p ∈ w.features, (Decimal.finite? p.2.toList).isSome = true
  covered : w.covered < countBound
  notComment : w.line.head? ≠ some '#'

instance (head : ℕ) (w : WrittenEdge) : Decidable (w.Proper head) :=
  decidable_of_iff _ (proper_iff head w).symm

/-- The edge of a forest is what is written. -/
structure Describes (x : Lexicon) (w : WrittenEdge) (e : Edge Float) : Prop where
  slots : List.Forall₂ (WrittenSlot.Describes x) w.slots e.slots
  children : e.children = w.children
  features : ∀ name value, e.features.get? name = some value ↔
    ∃ spelling, (name, spelling) ∈ w.features ∧ Decimal.finite? spelling.toList = some value

end WrittenEdge

/-! ## 3. Forests -/

/-- The edges of each vertex. -/
structure Outline where
  vertices : List (List WrittenEdge)
  deriving DecidableEq

namespace Outline

/-- The edges of all vertices. -/
def edges (o : Outline) : List WrittenEdge := o.vertices.flatten

/-- The tokens of all edges. -/
def tokens (o : Outline) : List String := o.edges.flatMap WrittenEdge.tokens

/-- The lines of a vertex: the number of its edges, and a line for each of them. -/
def block (es : List WrittenEdge) : List (List Char) :=
  numeral es.length :: es.map WrittenEdge.line

/-- The lines behind the header. -/
def body (o : Outline) : List (List Char) :=
  spaced [numeral o.vertices.length, numeral o.edges.length] :: o.vertices.flatMap block

/-- The file of a forest. -/
def print (o : Outline) : String := unlines (coverageHeader.toList :: o.body)

/-- An outline that can be read back: its edges can, and its numbers of vertices and edges are
counts. -/
@[mk_iff] structure Proper (o : Outline) : Prop where
  vertexCount : o.vertices.length < countBound
  edgeCount : o.edges.length < countBound
  edges : ∀ p ∈ o.vertices.zipIdx, ∀ e ∈ p.1, e.Proper p.2

instance (o : Outline) : Decidable o.Proper := decidable_of_iff _ o.proper_iff.symm

/-- The vertices that take the edges one after the other, from a number on.  Each covers as much as
one of its edges at most. -/
def vertexRow (first : ℕ) : List (List WrittenEdge) → List Vertex
  | [] => []
  | es :: rest =>
    ⟨List.range' first es.length, (es.map WrittenEdge.covered).foldl max 0⟩ ::
      vertexRow (first + es.length) rest

theorem length_vertexRow (first : ℕ) (vs : List (List WrittenEdge)) :
    (vertexRow first vs).length = vs.length := by
  induction vs generalizing first with
  | nil => rfl
  | cons es vs ih => simp [vertexRow, ih]

/-- The forest is what is written. -/
structure Describes (x : Lexicon) (o : Outline) (f : Forest Float) : Prop where
  vertices : f.vertices.toList = vertexRow 0 o.vertices
  edges : List.Forall₂ (WrittenEdge.Describes x) o.edges f.edges.toList

end Outline

end ForestRescoring
