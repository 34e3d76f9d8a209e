/-
# Reading a forest back

The file of a proper outline is read as the forest of the outline: nothing is lost, nothing is
refused, and the lexicon gains the new tokens in the order in which they are met first
(`ForestReading.ofBytes_print`).

The lines of a vertex move a draft from one complete vertex to the next.  The induction is on the
edges that remain and starts from closing the vertex, so that a vertex without edges is its base case
and not one of its own (`Draft.exists_run_edges`).  What the lines add is said as an extension of the
forest that was there (`Forest.extend`); extensions compose, and so do runs.
-/
import Mathlib
import ForestRescoring.Proofs.Forest.Acceptance
import ForestRescoring.Proofs.Forest.WrittenLine

namespace ForestRescoring

open Text

/-! ## 1. Extensions -/

namespace Forest

variable {K : Type}

/-- More vertices and more edges, behind those that are there. -/
def extend (f : Forest K) (vertices : List Vertex) (edges : List (Edge K)) : Forest K :=
  { f with vertices := f.vertices ++ vertices.toArray, edges := f.edges ++ edges.toArray }

variable (f : Forest K) (vs us : List Vertex) (es ds : List (Edge K))

@[simp] theorem extend_nil : f.extend [] [] = f := by simp [extend]

@[simp] theorem extend_extend : (f.extend vs es).extend us ds = f.extend (vs ++ us) (es ++ ds) := by
  simp [extend]

@[simp] theorem vertexCapacity_extend : (f.extend vs es).vertexCapacity = f.vertexCapacity := rfl

@[simp] theorem edgeCapacity_extend : (f.extend vs es).edgeCapacity = f.edgeCapacity := rfl

@[simp] theorem toList_vertices_extend :
    (f.extend vs es).vertices.toList = f.vertices.toList ++ vs := by
  simp [extend]

@[simp] theorem toList_edges_extend : (f.extend vs es).edges.toList = f.edges.toList ++ es := by
  simp [extend]

@[simp] theorem size_vertices_extend :
    (f.extend vs es).vertices.size = f.vertices.size + vs.length := by
  simp [extend]

@[simp] theorem size_edges_extend : (f.extend vs es).edges.size = f.edges.size + es.length := by
  simp [extend]

variable {f}

theorem addVertex_eq_ok {v : Vertex} (h : f.vertices.size < f.vertexCapacity) :
    f.addVertex v = .ok (f.vertices.size, f.extend [v] []) := by
  simp [addVertex, extend, h]

theorem addEdge_eq_ok {e : Edge K} (h : f.edges.size < f.edgeCapacity) :
    f.addEdge e = .ok (f.edges.size, f.extend [] [e]) := by
  simp [addEdge, extend, h]

end Forest

/-! ## 2. The lines of a vertex -/

namespace Draft

variable {d d' d'' : Draft} {x x' x'' : Lexicon} {lines : List (List Char)} {f : Forest Float}

/-- Runs compose. -/
theorem Run.append {more : List (List Char)} (h : Run d x lines d' x')
    (h' : Run d' x' more d'' x'') : Run d x (lines ++ more) d'' x'' := by
  induction h with
  | done => exact h'
  | line hd hs _ ih => exact .line hd hs (ih h')

/-- **The edges of a vertex are read back.**  A vertex to which these edges are still to come can be
kept open or, if there are none, be closed; their lines end with the vertex behind the others. -/
theorem exists_run_edges {es : List WrittenEdge} {o : OpenVertex}
    (hproper : ∀ e ∈ es, e.Proper f.vertices.size) (hcount : f.vertices.size ≤ countBound)
    (hremaining : o.remaining = es.length) (hvertex : f.vertices.size < f.vertexCapacity)
    (hedges : f.edges.size + es.length ≤ f.edgeCapacity) :
    ∃ d row, settle f o = .ok d ∧
      List.Forall₂ (WrittenEdge.Describes (x.internAll (es.flatMap WrittenEdge.tokens)).2) es row ∧
      Run d x (es.map WrittenEdge.line)
        ⟨f.extend [⟨o.incoming ++ List.range' f.edges.size es.length,
          (es.map WrittenEdge.covered).foldl max o.covered⟩] row, none⟩
        (x.internAll (es.flatMap WrittenEdge.tokens)).2 := by
  induction es generalizing f o x with
  | nil =>
    have hzero : o.remaining = 0 := hremaining
    refine ⟨_, [], ?_, .nil, .done⟩
    simp [settle, hzero, Forest.addVertex_eq_ok hvertex]
  | cons e es ih =>
    have hkept : settle f o = .ok ⟨f, some o⟩ := by simp [settle, hremaining]
    obtain ⟨edge, hread, hedge⟩ := EdgeLine.read_line hcount (hproper e (by simp)) x
    have hlength : f.edges.size + (es.length + 1) ≤ f.edgeCapacity := hedges
    have hroom : f.edges.size < f.edgeCapacity := by omega
    have hadd := Forest.addEdge_eq_ok (e := edge) hroom
    -- The edges behind the first are read with its tokens entered and with the edge in its place.
    obtain ⟨d, row, hsettle, hrow, hrun⟩ := ih
      (x := (x.internAll e.tokens).2) (f := f.extend [] [edge])
      (o := ⟨o.remaining - 1, o.incoming ++ [f.edges.size], max o.covered e.covered⟩)
      (fun e he => by simpa using hproper e (by simp [he])) (by simpa using hcount)
      (by simp [hremaining]) (by simpa using hvertex)
      (by simpa [Nat.add_assoc, Nat.add_comm 1] using hlength)
    have hstep : ∀ number, Draft.step ⟨f, some o⟩ x number e.line =
        (.ok d, (x.internAll e.tokens).2) := by
      intro number
      simp [step, hread, addEdge, hadd, hsettle]
    simp only [List.flatMap_cons, Lexicon.internAll_append]
    refine ⟨_, edge :: row, hkept, .cons (hedge.grow (Lexicon.grows_internAll _ _)) hrow, ?_⟩
    refine .line rfl hstep ?_
    simpa [List.range'_succ] using hrun

/-- **The vertices are read back.** -/
theorem exists_run_blocks {vs : List (List WrittenEdge)}
    (hproper : ∀ p ∈ vs.zipIdx f.vertices.size, ∀ e ∈ p.1, e.Proper p.2)
    (hcount : f.vertexCapacity < countBound) (hedgeCount : f.edgeCapacity < countBound)
    (hvertices : f.vertices.size + vs.length = f.vertexCapacity)
    (hedges : f.edges.size + vs.flatten.length ≤ f.edgeCapacity) :
    ∃ row,
      List.Forall₂ (WrittenEdge.Describes (x.internAll (vs.flatten.flatMap WrittenEdge.tokens)).2)
        vs.flatten row ∧
      Run ⟨f, none⟩ x (vs.flatMap Outline.block)
        ⟨f.extend (Outline.vertexRow f.edges.size vs) row, none⟩
        (x.internAll (vs.flatten.flatMap WrittenEdge.tokens)).2 := by
  induction vs generalizing f x with
  | nil =>
    refine ⟨[], .nil, ?_⟩
    rw [Outline.vertexRow, Forest.extend_nil]
    exact .done
  | cons es vs ih =>
    simp only [List.length_cons] at hvertices
    simp only [List.flatten_cons, List.length_append] at hedges
    have hvertex : f.vertices.size < f.vertexCapacity := by omega
    have hfirst : ∀ e ∈ es, e.Proper f.vertices.size :=
      hproper (es, f.vertices.size) (by simp)
    obtain ⟨d, row, hsettle, hrow, hrun⟩ := exists_run_edges (x := x) (o := ⟨es.length, [], 0⟩)
      hfirst (by omega) rfl hvertex (by omega)
    have hlength : es.length = row.length := hrow.length_eq
    let vertex : Vertex :=
      ⟨List.range' f.edges.size es.length, (es.map WrittenEdge.covered).foldl max 0⟩
    have hvertices' : (f.extend [vertex] row).vertices.size + vs.length = f.vertexCapacity := by
      rw [Forest.size_vertices_extend, List.length_singleton]
      omega
    have hedges' : (f.extend [vertex] row).edges.size + vs.flatten.length ≤ f.edgeCapacity := by
      rw [Forest.size_edges_extend]
      omega
    have hrest : ∀ p ∈ vs.zipIdx (f.extend [vertex] row).vertices.size, ∀ e ∈ p.1,
        e.Proper p.2 := by
      rw [Forest.size_vertices_extend]
      exact fun p hp => hproper p (by simp_all)
    obtain ⟨rows, hrows, hruns⟩ := ih
      (x := (x.internAll (es.flatMap WrittenEdge.tokens)).2) hrest hcount hedgeCount hvertices'
      hedges'
    -- Opening the vertex settles it at once, so its own line leads to where the edges start.
    have hopen : ∀ number, Draft.step ⟨f, none⟩ x number (numeral es.length) = (.ok d, x) := by
      intro number
      have hn : count? (trim (numeral es.length)) = some es.length := by
        rw [trim_eq_self (isWord_numeral _).unbroken, count?_numeral (by omega)]
      simp [step, openVertex, hn, hsettle]
    have hincomplete : isComplete ⟨f, none⟩ = false := by
      simp [isComplete]
      omega
    simp only [List.flatten_cons, List.flatMap_append, Lexicon.internAll_append]
    refine ⟨row ++ rows,
      List.rel_append (hrow.imp fun _ _ he => he.grow (Lexicon.grows_internAll _ _)) hrows, ?_⟩
    rw [List.flatMap_cons, Outline.block, List.cons_append]
    refine .line hincomplete hopen (hrun.append ?_)
    simpa [Outline.vertexRow, vertex, hlength] using hruns

end Draft

/-! ## 3. The file -/

/-- Behind the header, a line with words on it that is not taken for a comment. -/
def IsBodyLine (l : List Char) : Prop :=
  ∃ ts, l = spaced ts ∧ (∀ t ∈ ts, IsWord t) ∧ l.head? ≠ some '#'

variable {l : List Char} {o : Outline}

theorem IsBodyLine.newline_notMem (h : IsBodyLine l) : '\n' ∉ l := by
  obtain ⟨ts, rfl, hts, -⟩ := h
  intro hmem
  exact absurd (eq_space_of_mem_spaced hts hmem (by decide)) (by decide)

/-- The line loses nothing at its end. -/
theorem IsBodyLine.lineBody_eq (h : IsBodyLine l) : lineBody (String.ofList l) = l := by
  obtain ⟨ts, rfl, hts, -⟩ := h
  rw [lineBody, String.toList_ofList]
  refine dropTrailing_eq_self fun c hc => ?_
  by_contra hend
  have hbreak : c = '\r' ∨ c = '\n' := by simpa [or_iff_not_imp_left] using hend
  rcases hbreak with rfl | rfl
  · exact absurd (eq_space_of_mem_spaced hts hc (by decide)) (by decide)
  · exact absurd (eq_space_of_mem_spaced hts hc (by decide)) (by decide)

theorem IsBodyLine.isComment_eq (h : IsBodyLine l) : isComment (String.ofList l) = false := by
  obtain ⟨ts, -, -, hhead⟩ := h
  simp [isComment, hhead]

/-- Numerals are no comment. -/
theorem isBodyLine_numerals (ns : List ℕ) : IsBodyLine (spaced (ns.map numeral)) := by
  refine ⟨_, rfl, ?_, fun hhead => ?_⟩
  · intro t ht
    obtain ⟨n, -, rfl⟩ := List.mem_map.mp ht
    exact isWord_numeral n
  · rcases eq_or_mem_of_mem_spaced (List.mem_of_mem_head? hhead) with hc | ⟨t, ht, hc⟩
    · exact absurd hc (by decide)
    · obtain ⟨n, -, rfl⟩ := List.mem_map.mp ht
      exact absurd (isDigit_of_mem_numeral hc) (by decide)

theorem Outline.Proper.isBodyLine (h : o.Proper) : ∀ l ∈ o.body, IsBodyLine l := by
  intro l hl
  rcases List.mem_cons.mp hl with rfl | hl
  · exact isBodyLine_numerals [_, _]
  · obtain ⟨es, hes, hl⟩ := List.mem_flatMap.mp hl
    rcases List.mem_cons.mp hl with rfl | hl
    · simpa [spaced] using isBodyLine_numerals [es.length]
    · obtain ⟨e, he, rfl⟩ := List.mem_map.mp hl
      obtain ⟨v, hv⟩ := List.mem_iff_getElem?.mp hes
      have hproper : e.Proper v := h.edges (es, v) (List.mem_zipIdx_iff_getElem?.mpr hv) e he
      exact ⟨e.words, rfl, hproper.isWord, hproper.notComment⟩

namespace ForestReading

/-- The lines of the file of a proper outline are its header and its body. -/
theorem decodedLines_print (h : o.Proper) :
    decodedLines o.print.toUTF8 =
      some coverageHeader :: o.body.map fun l => some (String.ofList l) := by
  rw [Outline.print, decodedLines_unlines, List.map_cons, String.ofList_toList]
  intro l hl
  rcases List.mem_cons.mp hl with rfl | hl
  · decide
  · exact (h.isBodyLine l hl).newline_notMem

/-- None of its lines is left out, and none is cut. -/
theorem contents_print (h : o.Proper) :
    contents (decodedLines o.print.toUTF8) = o.body.map some := by
  have hkept : ∀ l ∈ o.body.map fun l => some (String.ofList l),
      l.all (fun line => !isComment line) = true := by
    intro l hl
    obtain ⟨k, hk, rfl⟩ := List.mem_map.mp hl
    simp [(h.isBodyLine k hk).isComment_eq]
  rw [decodedLines_print h, contents, List.tail_cons, List.filter_eq_self.mpr hkept, List.map_map]
  exact List.map_congr_left fun l hl => congrArg some (h.isBodyLine l hl).lineBody_eq

theorem counts?_numerals {v e : ℕ} (hv : v < countBound) (he : e < countBound) :
    counts? (spaced [numeral v, numeral e]) = some (v, e) := by
  have hwords : words (spaced [numeral v, numeral e]) = [numeral v, numeral e] := by
    refine words_spaced fun t ht => ?_
    simp only [List.mem_cons, List.not_mem_nil, or_false] at ht
    rcases ht with rfl | rfl <;> exact isWord_numeral _
  simp [counts?, hwords, count?_numeral hv, count?_numeral he]

/-- **The file of a proper outline is accepted.** -/
theorem accepts_print (x : Lexicon) (h : o.Proper) :
    ∃ f, Accepts x (decodedLines o.print.toUTF8) f (x.internAll o.tokens).2 ∧
      o.Describes (x.internAll o.tokens).2 f := by
  obtain ⟨row, hrow, hrun⟩ := Draft.exists_run_blocks (x := x)
    (f := .withCapacity o.vertices.length o.edges.length) h.edges h.vertexCount h.edgeCount
    (Nat.zero_add _) (Nat.le_of_eq (Nat.zero_add _))
  have hlength : (Outline.vertexRow 0 o.vertices).length = o.vertices.length :=
    Outline.length_vertexRow 0 o.vertices
  refine ⟨_, ⟨coverageHeader, _, _, _, _, [], _, ?_, ?_, ?_, counts?_numerals h.vertexCount
    h.edgeCount, hrun, ⟨?_, ?_, rfl⟩⟩, ⟨?_, ?_⟩⟩
  · rw [decodedLines_print h]
    rfl
  · exact .inr (by decide)
  · rw [contents_print h, List.append_nil]
    rfl
  · simp [Draft.isComplete, Forest.withCapacity, hlength]
  · have hedges : row.length = o.edges.length := hrow.length_eq.symm
    simp [Forest.withCapacity, hedges]
  · rw [Forest.toList_vertices_extend]
    rfl
  · rw [Forest.toList_edges_extend]
    exact hrow

/-- **Every proper outline is read back.**  The file of the outline is accepted, whatever the lexicon
holds.  The forest that is read has the vertices, edges, features and coverages that are written, and
the lexicon gains the tokens that are new, each once and in the order in which they are met. -/
theorem ofBytes_print (x : Lexicon) (o : Outline) (h : o.Proper) :
    ∃ f, (ofBytes x o.print.toUTF8).outcome = .ok f ∧
      o.Describes (ofBytes x o.print.toUTF8).lexicon f ∧
      (ofBytes x o.print.toUTF8).lexicon.tokens.toList =
        x.tokens.toList ++ (o.tokens.filter fun t => t ∉ x.tokens.toList).eraseDups := by
  obtain ⟨f, haccepts, hdescribes⟩ := accepts_print x h
  obtain ⟨hf, hx⟩ : (ofBytes x o.print.toUTF8).outcome = .ok f ∧
      (ofBytes x o.print.toUTF8).lexicon = (x.internAll o.tokens).2 :=
    ofLines_eq_ok_iff.mpr haccepts
  rw [hx]
  exact ⟨f, hf, hdescribes, x.tokens_internAll o.tokens⟩

/-- A leaf, an edge without slots and features, an empty name, a name with an equals sign, a lone
bracket, a vertex with two edges, and one that is used twice. -/
def sampleOutline : Outline where
  vertices := [[],
    [⟨[.word "la", .gap 0, .word "["], [("", "-1.5"), ("a=b", "2e1")], 2⟩, ⟨[], [], 5⟩],
    [⟨[.gap 1, .word "é", .gap 1, .word "#"], [("lm", "+.5")], 3⟩]]

/-- The sample is read with a lexicon that knows the first of its words. -/
theorem ofBytes_print_sample :
    sampleOutline.Proper ∧
      sampleOutline.print = "# target ||| features ||| source-covered\n3 3\n0\n" ++
        "2\nla [0] [ ||| =-1.5 a=b=2e1 ||| 2\n||| ||| 5\n1\n[1] é [1] # ||| lm=+.5 ||| 3\n" ∧
      ∃ f, (ofBytes (Lexicon.empty.intern "la").2 sampleOutline.print.toUTF8).outcome = .ok f ∧
        f.vertices.toList = [⟨[], 0⟩, ⟨[0, 1], 5⟩, ⟨[2], 3⟩] ∧
        sampleOutline.Describes (ofBytes (Lexicon.empty.intern "la").2
          sampleOutline.print.toUTF8).lexicon f ∧
        (ofBytes (Lexicon.empty.intern "la").2
          sampleOutline.print.toUTF8).lexicon.tokens.toList = ["la", "[", "é", "#"] := by
  have hproper : sampleOutline.Proper := by decide +kernel
  obtain ⟨f, hf, hdescribes, htokens⟩ :=
    ofBytes_print (Lexicon.empty.intern "la").2 sampleOutline hproper
  refine ⟨hproper, by decide +kernel, f, hf, ?_, hdescribes, htokens.trans (by decide +kernel)⟩
  exact hdescribes.vertices.trans (by decide +kernel)

end ForestReading

end ForestRescoring
