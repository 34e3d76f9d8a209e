/-
# What an accepted file says

An accepted file is a header, a line with two counts, and one block of lines for each vertex: the
number of its edges, and a line for each of them.  The forest that is read has these vertices and
no others.  Each vertex has the edges of its own lines, which use earlier vertices only, and covers
as much as the largest coverage on these lines.  Edges are numbered through the whole file, so
no edge is lost and none is shared (`ForestReading.soundness`).

The argument follows the walk, of which each line is one step.  A draft accounts for the blocks that
are complete and for the one that is open (`Draft.Accounts`).  Edges are there before their vertex
is, so the row of all edge numbers is made of those of the finished vertices and those of the open
one; closing a vertex moves its share from the one to the other and changes nothing in the row.
-/
import Mathlib
import ForestRescoring.Proofs.Forest.Acceptance
import ForestRescoring.Proofs.Lexicon.Entering
import ForestRescoring.Proofs.Outcome

namespace ForestRescoring

open Text

/-! ## 1. Lines of edges -/

namespace EdgeLine

/-- The coverage on the line of an edge, zero where it has none. -/
def coverage (line : List Char) : ℕ :=
  match threeFields? (fields (words line)) with
  | some (_, _, [t]) => (count? t).getD 0
  | _ => 0

variable {head : VertexId} {x : Lexicon} {ts : List (List Char)} {line : List Char}

/-- A gap is for a vertex in front of the head. -/
theorem of_gap_eq_ok {token inner : List Char} {slot : Slot}
    (h : gap head token inner = .ok slot) : ∃ c, slot = .gap c ∧ c < head := by
  unfold gap at h
  split at h
  · cases h
  · next c _ =>
    split at h
    · next hc =>
      cases h
      exact ⟨c, rfl, hc⟩
    · cases h

/-- Accepted slots name earlier vertices, and words that have a number. -/
theorem of_readSlots_eq_ok {slots : List Slot} (h : (readSlots head x ts).1 = .ok slots) :
    (∀ c ∈ slots.filterMap Slot.child?, c < head) ∧
      ∀ w, .word w ∈ slots → ∃ t, (readSlots head x ts).2.word? w = some t := by
  induction ts generalizing x slots with
  | nil =>
    cases h
    simp
  | cons t ts ih =>
    unfold readSlots at h ⊢
    split at h
    · next inner _ =>
      split at h
      · cases h
      · next slot hslot =>
        obtain ⟨c, rfl, hc⟩ := of_gap_eq_ok hslot
        obtain ⟨rest, hrest, rfl⟩ := map_eq_ok_iff.mp h
        obtain ⟨hchildren, hwords⟩ := ih hrest
        refine ⟨fun d hd => ?_, fun w hw => hwords w (by simpa using hw)⟩
        rcases List.mem_cons.mp hd with rfl | hd
        · exact hc
        · exact hchildren d hd
    · obtain ⟨rest, hrest, rfl⟩ := map_eq_ok_iff.mp h
      obtain ⟨hchildren, hwords⟩ := ih hrest
      refine ⟨hchildren, fun w hw => ?_⟩
      rcases List.mem_cons.mp hw with heq | hw
      · cases heq
        exact ⟨_, grows_readSlots head _ ts _ _ (x.word?_intern _)⟩
      · exact hwords w hw

/-- All numbers of a vector are finite. -/
def Finite (v : FeatureVector Float) : Prop :=
  ∀ name value, v.get? name = some value → value.isFinite = true

theorem finite_of_readFeature {t : List Char} {p : String × Float}
    (h : readFeature t = .ok p) : p.2.isFinite = true := by
  unfold readFeature at h
  split at h
  · cases h
  · split at h
    · cases h
    · next value hvalue =>
      cases h
      exact (Option.filter_eq_some_iff.mp hvalue).2

/-- Accepted features are finite. -/
theorem finite_of_readFeatures {v u : FeatureVector Float} (hv : Finite v)
    (h : readFeatures v ts = .ok u) : Finite u := by
  induction ts generalizing v with
  | nil =>
    cases h
    exact hv
  | cons t ts ih =>
    unfold readFeatures at h
    split at h
    · cases h
    · next p hp =>
      refine ih (fun name value hvalue => ?_) h
      rw [FeatureVector.get?_set] at hvalue
      split at hvalue
      · cases hvalue
        exact finite_of_readFeature hp
      · exact hv name value hvalue

/-- What every edge that is read for a vertex is like. -/
structure Sound (x : Lexicon) (head : VertexId) (e : Edge Float) : Prop where
  children : ∀ c ∈ e.children, c < head
  finite : Finite e.features
  words : ∀ w, .word w ∈ e.slots → ∃ t, x.word? w = some t

theorem Sound.grow {y : Lexicon} {e : Edge Float} (h : Sound x head e) (hg : x.Grows y) :
    Sound y head e :=
  ⟨h.children, h.finite, fun w hw => (h.words w hw).imp fun t ht => hg w t ht⟩

/-- **An edge that is read is sound**, and covers what its line says. -/
theorem of_read_eq_ok {e : Edge Float} {n : ℕ} (h : (read head x line).1 = .ok (e, n)) :
    Sound (read head x line).2 head e ∧ n = coverage line := by
  unfold read at h ⊢
  split at h
  · cases h
  · next target features cover hfields =>
    obtain ⟨slots, hslots, h⟩ := bind_eq_ok_iff.mp h
    obtain ⟨v, hv, h⟩ := bind_eq_ok_iff.mp h
    obtain ⟨m, hm, h⟩ := bind_eq_ok_iff.mp h
    cases h
    obtain ⟨hchildren, hwords⟩ := of_readSlots_eq_ok hslots
    have hempty : Finite .empty := fun name value hvalue => by cases hvalue
    refine ⟨⟨?_, ?_, ?_⟩, ?_⟩
    · rwa [Edge.children_ofSlots]
    · rw [Edge.features_ofSlots]
      exact finite_of_readFeatures hempty hv
    · rwa [Edge.slots_ofSlots]
    rw [coverage, hfields]
    unfold readCoverage at hm
    split at hm
    · cases hm
      rfl
    · next t =>
      split at hm
      · cases hm
      · next k hk =>
        cases hm
        exact (congrArg (Option.getD · 0) hk).symm
    · cases hm

end EdgeLine

/-! ## 2. Blocks -/

/-- The lines of one vertex: the number of its edges, and a line for each of them. -/
structure Block where
  count : List Char
  edges : List (List Char)

namespace Block

/-- All lines of a block. -/
def lines (b : Block) : List (List Char) := b.count :: b.edges

/-- The largest coverage on the lines of a block. -/
def covered (b : Block) : ℕ := (b.edges.map EdgeLine.coverage).foldl max 0

/-- One more edge. -/
def push (b : Block) (line : List Char) : Block := { b with edges := b.edges ++ [line] }

end Block

/-- An edge of a forest was read from a line of the vertex `v`. -/
def Forest.ReadFrom (f : Forest Float) (x : Lexicon) (v : VertexId) (id : EdgeId)
    (line : List Char) : Prop :=
  ∃ e y, f.edge? id = some e ∧ EdgeLine.Sound x v e ∧
    (EdgeLine.read v y line).1 = .ok (e, EdgeLine.coverage line)

/-- A vertex has the edges of its block and covers what they cover. -/
structure Block.Makes (b : Block) (f : Forest Float) (x : Lexicon) (v : VertexId)
    (incoming : List EdgeId) (covered : ℕ) : Prop where
  edges : List.Forall₂ (f.ReadFrom x v) incoming b.edges
  covered : covered = b.covered

theorem Block.Makes.mono {b : Block} {f g : Forest Float} {x y : Lexicon} {v : VertexId}
    {incoming : List EdgeId} {covered : ℕ} (h : b.Makes f x v incoming covered)
    (hg : x.Grows y) (hf : ∀ id e, f.edge? id = some e → g.edge? id = some e) :
    b.Makes g y v incoming covered := by
  refine ⟨h.edges.imp fun id line hread => ?_, h.covered⟩
  obtain ⟨e, z, he, hsound, hline⟩ := hread
  exact ⟨e, z, hf id e he, hsound.grow hg, hline⟩

namespace Draft

/-- The edges of the open vertex. -/
def openEdges (d : Draft) : List EdgeId := d.current.elim [] OpenVertex.incoming

/-- A draft is what some complete blocks and perhaps the beginning of one more come to. -/
structure Accounts (d : Draft) (x : Lexicon) (blocks : List Block) (part : Option Block) :
    Prop where
  size : blocks.length = d.forest.vertices.size
  vertices : ∀ (v : ℕ) b vertex, blocks[v]? = some b → d.forest.vertex? v = some vertex →
    count? (trim b.count) = some b.edges.length ∧
      b.Makes d.forest x v vertex.incoming vertex.sourceCovered
  current : Option.Rel (fun b o => count? (trim b.count) = some (b.edges.length + o.remaining) ∧
    b.Makes d.forest x d.forest.vertices.size o.incoming o.covered) part d.current
  incoming : d.forest.vertices.toList.flatMap Vertex.incoming ++ d.openEdges =
    List.range d.forest.edges.size

/-- A vertex that is open has edges to come. -/
def Settled (d : Draft) : Prop := ∀ o, d.current = some o → o.remaining ≠ 0

/-- The lines of some blocks and of the beginning of one more. -/
def linesOf (blocks : List Block) (part : Option Block) : List (List Char) :=
  blocks.flatMap Block.lines ++ part.elim [] Block.lines

/-! ## 3. One step -/

variable {f g : Forest Float} {o : OpenVertex} {x x' : Lexicon} {blocks : List Block} {b : Block}
  {part : Option Block} {d d' : Draft} {line : List Char}

/-- **Closing a vertex loses no edge**: its share of the row of edges goes to the vertex. -/
theorem Accounts.settle (h : Accounts ⟨f, some o⟩ x blocks (some b))
    (hs : Draft.settle f o = .ok d) :
    ∃ blocks' part', d.Accounts x blocks' part' ∧ d.Settled ∧
      linesOf blocks' part' = linesOf blocks (some b) := by
  obtain ⟨hsize, hvertices, hcurrent, hincoming⟩ := h
  cases hcurrent with
  | some hopen =>
  obtain ⟨hcount, hmakes⟩ := hopen
  change blocks.length = f.vertices.size at hsize
  unfold Draft.settle at hs
  split at hs
  · next hzero =>
    split at hs
    · cases hs
    · next added hadded =>
      obtain ⟨n, g⟩ := added
      cases hs
      have hvertex := Forest.vertex?_addVertex hadded
      unfold Forest.addVertex at hadded
      split at hadded
      · cases hadded
        refine ⟨blocks ++ [b], none, ⟨?_, ?_, .none, ?_⟩, (fun o' ho' => by cases ho'), ?_⟩
        · simp [hsize]
        · intro v b' vertex hb hv
          have hv' := hvertex v
          rw [hv] at hv'
          by_cases heq : v = f.vertices.size
          · rw [if_pos heq] at hv'
            cases hv'
            rw [List.getElem?_append_right (by omega), heq, hsize, Nat.sub_self] at hb
            cases hb
            rw [hzero] at hcount
            exact ⟨hcount, by
              rw [heq]
              exact hmakes.mono (.refl x) fun _ _ he => he⟩
          · rw [if_neg heq] at hv'
            have hlt : v < blocks.length := by
              have hlt := (List.getElem?_eq_some_iff.mp hb).1
              rw [List.length_append, List.length_singleton] at hlt
              omega
            rw [List.getElem?_append_left hlt] at hb
            obtain ⟨hcount', hmakes'⟩ := hvertices v b' vertex hb hv'.symm
            exact ⟨hcount', hmakes'.mono (.refl x) fun _ _ he => he⟩
        · simpa [openEdges] using hincoming
        · simp [linesOf]
      · cases hadded
  · next hpos =>
    cases hs
    refine ⟨blocks, some b, ⟨hsize, hvertices, .some ⟨hcount, hmakes⟩, hincoming⟩, ?_, rfl⟩
    intro o' ho
    cases ho
    exact hpos

/-- Opening a vertex opens a block. -/
theorem Accounts.openVertex (h : Accounts ⟨f, none⟩ x blocks none) {n : ℕ}
    (hn : count? (trim line) = some n) :
    Accounts ⟨f, some ⟨n, [], 0⟩⟩ x blocks (some ⟨line, []⟩) where
  size := h.size
  vertices := h.vertices
  current := .some ⟨by simpa using hn, .nil, rfl⟩
  incoming := h.incoming

/-- **A new edge is the next one**, and no other edge changes. -/
theorem Accounts.addEdge (h : Accounts ⟨f, some o⟩ x blocks (some b)) (ho : o.remaining ≠ 0)
    {e : Edge Float} {n : ℕ}
    (hread : (EdgeLine.read f.vertices.size x line).1 = .ok (e, n)) {id : EdgeId}
    (hadd : f.addEdge e = .ok (id, g)) :
    Accounts ⟨g, some ⟨o.remaining - 1, o.incoming ++ [id], max o.covered n⟩⟩
      (EdgeLine.read f.vertices.size x line).2 blocks (some (b.push line)) := by
  obtain ⟨hsize, hvertices, hcurrent, hincoming⟩ := h
  cases hcurrent with
  | some hopen =>
  obtain ⟨hcount, hmakes⟩ := hopen
  have hedge := Forest.edge?_addEdge hadd
  obtain ⟨hsound, rfl⟩ := EdgeLine.of_read_eq_ok hread
  have hgrows := EdgeLine.grows_read f.vertices.size x line
  unfold Forest.addEdge at hadd
  split at hadd
  · cases hadd
    have hold : ∀ id' e', f.edge? id' = some e' →
        Forest.edge? { f with edges := f.edges.push e } id' = some e' := by
      intro id' e' he'
      have hlt := (Array.getElem?_eq_some_iff.mp he').1
      rw [hedge, if_neg (Nat.ne_of_lt hlt), he']
    refine ⟨hsize, fun v b' vertex hb hv => ?_, .some ⟨?_, ?_, ?_⟩, ?_⟩
    · obtain ⟨hcount', hmakes'⟩ := hvertices v b' vertex hb hv
      exact ⟨hcount', hmakes'.mono hgrows hold⟩
    · show count? (trim b.count) = _
      rw [hcount]
      simp only [Block.push, List.length_append, List.length_singleton]
      congr 1
      show _ + o.remaining = _
      omega
    · refine List.rel_append (hmakes.mono hgrows hold).edges (.cons ?_ .nil)
      exact ⟨e, x, by rw [hedge, if_pos rfl], hsound, hread⟩
    · simp [Block.covered, Block.push, hmakes.covered]
    · have hrow : f.vertices.toList.flatMap Vertex.incoming ++ o.incoming =
          List.range f.edges.size := hincoming
      show f.vertices.toList.flatMap Vertex.incoming ++ (o.incoming ++ [f.edges.size]) = _
      rw [← List.append_assoc, hrow, Array.size_push, List.range_succ]
  · cases hadd

/-- **A line that fits joins the blocks.** -/
theorem Accounts.step (h : d.Accounts x blocks part) (hd : d.Settled) {number : ℕ}
    (hs : d.step x number line = (.ok d', x')) :
    ∃ blocks' part', d'.Accounts x' blocks' part' ∧ d'.Settled ∧
      linesOf blocks' part' = linesOf blocks part ++ [line] := by
  obtain ⟨f, current⟩ := d
  cases current with
  | none =>
    have hnone := h.current
    cases hnone with
    | none =>
    obtain ⟨hopen, hx⟩ := Prod.ext_iff.mp hs
    cases hx
    change Draft.openVertex f number line = .ok d' at hopen
    unfold Draft.openVertex at hopen
    split at hopen
    · cases hopen
    · next n hn =>
      obtain ⟨blocks', part', haccounts, hsettled, hlines⟩ := (h.openVertex hn).settle hopen
      refine ⟨blocks', part', haccounts, hsettled, ?_⟩
      rw [hlines]
      simp [linesOf, Block.lines]
  | some o =>
    have hsome := h.current
    cases hsome with
    | @some b _ _ =>
    unfold Draft.step at hs
    dsimp only at hs
    split at hs
    · cases hs
    · next e he =>
      obtain ⟨hadd, hx⟩ := Prod.ext_iff.mp hs
      cases hx
      change Draft.addEdge f o e.1 e.2 = .ok d' at hadd
      unfold Draft.addEdge at hadd
      split at hadd
      · cases hadd
      · next added hadded =>
        obtain ⟨blocks', part', haccounts, hsettled, hlines⟩ :=
          (h.addEdge (hd o rfl) he hadded).settle hadd
        refine ⟨blocks', part', haccounts, hsettled, ?_⟩
        rw [hlines]
        simp [linesOf, Block.lines, Block.push]

/-! ## 4. All steps -/

theorem accounts_start (v e : ℕ) (x : Lexicon) :
    Accounts ⟨.withCapacity v e, none⟩ x [] none where
  size := rfl
  vertices := fun v b vertex hb => by simp at hb
  current := .none
  incoming := rfl

/-- **What was read is made of the lines that were read.** -/
theorem Accounts.run {lines : List (List Char)} (hr : Run d x lines d' x')
    (h : d.Accounts x blocks part) (hd : d.Settled) :
    ∃ blocks' part', d'.Accounts x' blocks' part' ∧
      linesOf blocks' part' = linesOf blocks part ++ lines := by
  induction hr generalizing blocks part with
  | done => exact ⟨blocks, part, h, by simp⟩
  | line _ hs _ ih =>
    obtain ⟨blocks', part', haccounts, hsettled, hlines⟩ := h.step hd (hs 0)
    obtain ⟨blocks'', part'', haccounts', hlines'⟩ := ih haccounts hsettled
    exact ⟨blocks'', part'', haccounts', by rw [hlines', hlines]; simp⟩

end Draft

namespace ForestReading

variable {x x' : Lexicon} {lines : List (Option String)} {f : Forest Float}

/-- The blocks of an accepted file. -/
theorem Accepts.exists_blocks (h : Accepts x lines f x') :
    ∃ (counts : List Char) (blocks : List Block) (rest : List (Option (List Char))),
      contents lines = (counts :: blocks.flatMap Block.lines).map some ++ rest ∧
      counts? counts = some (f.vertices.size, f.edges.size) ∧
      Draft.Accounts ⟨f, none⟩ x' blocks none := by
  obtain ⟨header, counts, v, e, run, rest, d, -, -, hlines, hcounts, hrun, hfin⟩ := h
  obtain ⟨blocks, part, haccounts, hblocks⟩ :=
    (Draft.accounts_start v e x).run hrun fun o ho => by cases ho
  obtain ⟨hv, he⟩ := hrun.sameRoom
  obtain ⟨hcomplete, hsize, rfl⟩ := hfin
  obtain ⟨f, current⟩ := d
  simp only [Draft.isComplete, Bool.and_eq_true, Option.isNone_iff_eq_none, beq_iff_eq] at hcomplete
  obtain ⟨rfl, hfull⟩ := hcomplete
  have hpart := haccounts.current
  cases hpart with
  | none =>
  refine ⟨counts, blocks, rest, ?_, ?_, haccounts⟩
  · rw [hlines]
    simp [Draft.linesOf] at hblocks
    rw [hblocks]
  · rw [hcounts, hfull, hsize]
    dsimp only at hv he ⊢
    rw [hv, he]
    rfl

/-! ## 5. The main result -/

/-- **What an accepted file says.**  Behind the header, the content is a line with the numbers of
vertices and edges, a block for each vertex, and what was not read.  The rows of edges of the
vertices, one after the other, are all edges in their order.  Each vertex has one edge for each
line that its block announces and covers the most that any of them covers; and each of these edges
uses earlier vertices only, has its gaps numbered from left to right, one for each child, which it
finds by its number, has finite features, and words that the lexicon knows. -/
theorem soundness (x : Lexicon) (bytes : ByteArray) {f : Forest Float}
    (h : (ofBytes x bytes).outcome = .ok f) :
    ∃ (counts : List Char) (blocks : List Block) (rest : List (Option (List Char))),
      contents (decodedLines bytes) = (counts :: blocks.flatMap Block.lines).map some ++ rest ∧
      counts? counts = some (f.vertices.size, f.edges.size) ∧
      blocks.length = f.vertices.size ∧
      f.vertices.toList.flatMap Vertex.incoming = List.range f.edges.size ∧
      ∀ (v : VertexId) (b : Block) (vertex : Vertex), blocks[v]? = some b →
        f.vertex? v = some vertex →
        count? (trim b.count) = some b.edges.length ∧
        vertex.incoming.length = b.edges.length ∧
        vertex.sourceCovered = (b.edges.map EdgeLine.coverage).foldl max 0 ∧
        ∀ id ∈ vertex.incoming, ∃ e, f.edge? id = some e ∧
          (∀ c ∈ e.children, c < v) ∧
          e.target.filterMap NumberedSlot.ordinal? = List.range e.children.length ∧
          e.target.map (NumberedSlot.resolve? e.children) = e.slots.map some ∧
          (∀ name value, e.features.get? name = some value → value.isFinite = true) ∧
          ∀ w, .word w ∈ e.slots → ∃ t, (ofBytes x bytes).lexicon.word? w = some t := by
  obtain ⟨counts, blocks, rest, hlines, hcounts, haccounts⟩ :=
    (ofLines_eq_ok_iff.mp ⟨h, rfl⟩).exists_blocks
  have hrow : f.vertices.toList.flatMap Vertex.incoming ++ [] = List.range f.edges.size :=
    haccounts.incoming
  rw [List.append_nil] at hrow
  refine ⟨counts, blocks, rest, hlines, hcounts, haccounts.size, hrow, fun v b vertex hb hv => ?_⟩
  obtain ⟨hcount, hmakes⟩ := haccounts.vertices v b vertex hb hv
  refine ⟨hcount, hmakes.edges.length_eq, hmakes.covered, fun id hid => ?_⟩
  obtain ⟨line, -, e, y, he, hsound, -⟩ := exists_mem_of_forall₂ hmakes.edges.flip hid
  exact ⟨e, he, hsound.children, e.ordered, e.slots_spec.1, hsound.finite, hsound.words⟩

/-- A file with a comment, a leaf, an edge without features, and lines that are not read. -/
def smallFile : String :=
  "# target ||| features ||| source-covered\n# two vertices\n3 2\n0\n" ++
    "1\na [0] [0] ||| lm=-1.5 ||| 1\n1\n[1] b [1] ||| ||| 2\nnot read\n"

/-- The two edges of the small file belong to its last two vertices. -/
theorem soundness_smallFile :
    ∃ f, (ofBytes .empty smallFile.toUTF8).outcome = .ok f ∧
      f.vertices.size = 3 ∧ f.vertices.toList.flatMap Vertex.incoming = [0, 1] := by
  have hdone : ((ofBytes .empty smallFile.toUTF8).outcome.toOption.map fun f =>
      (f.vertices.size, f.edges.size)) = some (3, 2) := by decide +kernel
  cases hf : (ofBytes .empty smallFile.toUTF8).outcome with
  | error e =>
    rw [hf] at hdone
    cases hdone
  | ok f =>
    rw [hf] at hdone
    obtain ⟨hv, he⟩ := Prod.ext_iff.mp (Option.some.inj hdone)
    obtain ⟨counts, blocks, rest, -, -, -, hrow, -⟩ := soundness .empty smallFile.toUTF8 hf
    exact ⟨f, rfl, hv, hrow.trans (congrArg List.range he)⟩

end ForestReading

end ForestRescoring
