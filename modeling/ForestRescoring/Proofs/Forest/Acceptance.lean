/-
# Files that are accepted

Reading a forest file walks over numbered lines, leaves comments out and stops as soon as the forest
is there.  For the files that are accepted, neither the numbers nor what stands behind the last line
read matter.  What matters is a row of lines that move a draft on, each of them by one step, from
the empty forest to a complete one (`Draft.Run`).

Main statement: a file is accepted if and only if it begins with a header, and its content begins
with two counts and the lines of such a run (`ForestReading.ofLines_eq_ok_iff`).
-/
import Mathlib
import ForestRescoring.Forest.Reading

namespace ForestRescoring

open Text

/-! ## 1. Runs of a draft -/

namespace Draft

/-- Lines that move an incomplete draft on, one after the other. -/
inductive Run : Draft → Lexicon → List (List Char) → Draft → Lexicon → Prop where
  /-- No lines. -/
  | done {d : Draft} {x : Lexicon} : Run d x [] d x
  /-- A line fits, whatever its number, and then the others do. -/
  | line {d d' d'' : Draft} {x x' x'' : Lexicon} {line : List Char} {lines : List (List Char)}
      (hd : d.isComplete = false) (hs : ∀ number, d.step x number line = (.ok d', x'))
      (h : Run d' x' lines d'' x'') : Run d x (line :: lines) d'' x''

/-- A complete draft with as many edges as were declared, and its forest. -/
structure Finishes (d : Draft) (f : Forest Float) : Prop where
  isComplete : d.isComplete = true
  size : d.forest.edges.size = d.forest.edgeCapacity
  forest : d.forest = f

variable {d d' : Draft} {x x' : Lexicon} {number : ℕ} {line : List Char} {f : Forest Float}

/-- The number of a line that fits is not used. -/
theorem step_number (h : d.step x number line = (.ok d', x')) (n : ℕ) :
    d.step x n line = (.ok d', x') := by
  unfold step at h ⊢
  split at h
  · simp only [openVertex] at h ⊢
    split at h
    · cases h
    · exact h
  · dsimp only at h ⊢
    split at h
    · cases h
    · exact h

theorem finish_eq_ok_iff :
    d.finish number = .ok f ↔ d.forest.edges.size = d.forest.edgeCapacity ∧ d.forest = f := by
  unfold finish
  split
  · next h => simp [h]
  · next h => simp [h]

/-- The lines begin with those of a run to a draft that is finished with a forest; `none` stands for
bytes that encode no text. -/
def Completes (d : Draft) (x : Lexicon) (bodies : List (Option (List Char))) (f : Forest Float)
    (x' : Lexicon) : Prop :=
  ∃ (run : List (List Char)) (rest : List (Option (List Char))) (d' : Draft),
    bodies = run.map some ++ rest ∧ d.Run x run d' x' ∧ d'.Finishes f

/-- From a complete draft there is no way to go. -/
theorem completes_of_isComplete {bodies : List (Option (List Char))} (hd : d.isComplete = true) :
    d.Completes x bodies f x' ↔ d.Finishes f ∧ x = x' := by
  constructor
  · rintro ⟨run, rest, d', -, hrun, hfin⟩
    cases hrun with
    | done => exact ⟨hfin, rfl⟩
    | line hd' => simp [hd] at hd'
  · rintro ⟨hfin, rfl⟩
    exact ⟨[], bodies, d, rfl, .done, hfin⟩

/-- An incomplete draft has to be moved on by the first line. -/
theorem completes_of_not_isComplete {bodies : List (Option (List Char))}
    (hd : ¬ d.isComplete = true) : d.Completes x bodies f x' ↔
      ∃ line rest next y, bodies = some line :: rest ∧
        (∀ number, d.step x number line = (.ok next, y)) ∧ next.Completes y rest f x' := by
  constructor
  · rintro ⟨run, rest, d', rfl, hrun, hfin⟩
    cases hrun with
    | done => exact absurd hfin.isComplete hd
    | line _ hs hrun => exact ⟨_, _, _, _, rfl, hs, _, rest, d', rfl, hrun, hfin⟩
  · rintro ⟨line, rest, next, y, rfl, hs, run, rest', d', rfl, hrun, hfin⟩
    exact ⟨line :: run, rest', d', rfl, .line (Bool.eq_false_of_not_eq_true hd) hs hrun, hfin⟩

/-! ## 2. Capacities -/

/-- The two forests have room for the same numbers of vertices and edges. -/
def SameRoom (f g : Forest Float) : Prop :=
  g.vertexCapacity = f.vertexCapacity ∧ g.edgeCapacity = f.edgeCapacity

theorem sameRoom_of_settle {v : OpenVertex} (h : settle f v = .ok d) : SameRoom f d.forest := by
  unfold settle at h
  split at h
  · split at h
    · cases h
    · next added hadded =>
      cases h
      unfold Forest.addVertex at hadded
      split at hadded
      · cases hadded
        exact ⟨rfl, rfl⟩
      · cases hadded
  · cases h
    exact ⟨rfl, rfl⟩

theorem sameRoom_of_addEdge {v : OpenVertex} {e : Edge Float} {covered : ℕ}
    (h : addEdge f v e covered = .ok d) : SameRoom f d.forest := by
  unfold addEdge at h
  split at h
  · cases h
  · next added hadded =>
    have hroom := sameRoom_of_settle h
    unfold Forest.addEdge at hadded
    split at hadded
    · cases hadded
      exact hroom
    · cases hadded

/-- No line changes what was declared. -/
theorem sameRoom_of_step (h : d.step x number line = (.ok d', x')) :
    SameRoom d.forest d'.forest := by
  unfold step at h
  split at h
  · obtain ⟨hopen, -⟩ := Prod.ext_iff.mp h
    dsimp only at hopen
    unfold openVertex at hopen
    split at hopen
    · cases hopen
    · exact sameRoom_of_settle hopen
  · dsimp only at h
    split at h
    · cases h
    · obtain ⟨hadd, -⟩ := Prod.ext_iff.mp h
      exact sameRoom_of_addEdge hadd

theorem Run.sameRoom {lines : List (List Char)} (h : Run d x lines d' x') :
    SameRoom d.forest d'.forest := by
  induction h with
  | done => exact ⟨rfl, rfl⟩
  | line _ hs _ ih =>
    obtain ⟨hv, he⟩ := sameRoom_of_step (hs 0)
    exact ⟨ih.1.trans hv, ih.2.trans he⟩

end Draft

/-! ## 3. The walk -/

namespace ForestReading

variable {x x' : Lexicon} {f : Forest Float} {d : Draft} {total number : ℕ}
  {ls : List NumberedLine} {lines : List (Option String)}

/-- What a numbered line says. -/
def body (l : NumberedLine) : Option (List Char) := l.1.map lineBody

section Walk

variable {next : Draft} {n : ℕ} {text : String} {e : ForestError}

/-- A complete draft reads no line. -/
theorem readBody_of_isComplete (hd : d.isComplete = true) :
    readBody total d x number ls = ⟨d.finish number, x, number⟩ := by
  unfold readBody
  split
  · rw [if_pos hd]
  · rw [if_pos hd]

theorem readBody_nil (hd : ¬ d.isComplete = true) :
    readBody total d x number [] = ⟨.error (.format total .unexpectedEnd), x, total⟩ := by
  rw [readBody, if_neg hd]

theorem readBody_invalid (hd : ¬ d.isComplete = true) :
    readBody total d x number ((none, n) :: ls) =
      ⟨.error (.unreadable .invalidText), x, n⟩ := by
  rw [readBody, if_neg hd]

theorem readBody_of_error (hd : ¬ d.isComplete = true)
    (hs : (d.step x n (lineBody text)).1 = .error e) :
    readBody total d x number ((some text, n) :: ls) =
      ⟨.error e, (d.step x n (lineBody text)).2, n⟩ := by
  simp only [readBody, if_neg hd, hs]

theorem readBody_of_ok (hd : ¬ d.isComplete = true)
    (hs : (d.step x n (lineBody text)).1 = .ok next) :
    readBody total d x number ((some text, n) :: ls) =
      readBody total next (d.step x n (lineBody text)).2 n ls := by
  simp only [readBody, if_neg hd, hs]

theorem readCounts_of_none (h : counts? (lineBody text) = none) :
    readCounts total x ((some text, n) :: ls) =
      ⟨.error (.format n (.badCounts (String.ofList (lineBody text)))), x, n⟩ := by
  simp only [readCounts, h]

theorem readCounts_of_some {c : ℕ × ℕ} (h : counts? (lineBody text) = some c) :
    readCounts total x ((some text, n) :: ls) =
      readBody total ⟨.withCapacity c.1 c.2, none⟩ x n ls := by
  simp only [readCounts, h]

end Walk

/-- **The walk is a run.**  It succeeds if the lines begin with those of a run to a draft that is
finished. -/
theorem readBody_eq_ok_iff :
    ((readBody total d x number ls).outcome = .ok f ∧
        (readBody total d x number ls).lexicon = x') ↔ d.Completes x (ls.map body) f x' := by
  have hcomplete : ∀ (d : Draft) (x : Lexicon) (number : ℕ) (ls : List NumberedLine),
      d.isComplete = true → (((readBody total d x number ls).outcome = .ok f ∧
        (readBody total d x number ls).lexicon = x') ↔ d.Completes x (ls.map body) f x') := by
    intro d x number ls hd
    rw [readBody_of_isComplete hd, Draft.completes_of_isComplete hd, Draft.finish_eq_ok_iff]
    exact and_congr_left' ⟨fun h => ⟨hd, h.1, h.2⟩, fun h => ⟨h.size, h.forest⟩⟩
  induction d, x, number, ls using readBody.induct with
  | case1 d x number hd => exact hcomplete d x number [] hd
  | case2 d x number hd =>
    rw [readBody_nil hd, Draft.completes_of_not_isComplete hd]
    simp
  | case3 d x number line n ls hd => exact hcomplete d x number ((line, n) :: ls) hd
  | case4 d x number n ls hd =>
    rw [readBody_invalid hd, Draft.completes_of_not_isComplete hd]
    simp [body]
  | case5 d x number n ls hd text stepped e hs =>
    rw [readBody_of_error hd hs, Draft.completes_of_not_isComplete hd]
    refine iff_of_false (fun h => by simp at h) ?_
    rintro ⟨line, rest, next, y, hline, hstep, -⟩
    obtain ⟨rfl, -⟩ : lineBody text = line ∧ _ = rest := by simpa [body] using hline
    have hfails : (d.step x n (lineBody text)).1 = .error e := hs
    rw [hstep n] at hfails
    cases hfails
  | case6 d x number n ls hd text stepped next hs ih =>
    rw [readBody_of_ok hd hs, Draft.completes_of_not_isComplete hd]
    refine ih.trans ?_
    have hstep : d.step x n (lineBody text) = (.ok next, stepped.2) := Prod.ext hs rfl
    constructor
    · exact fun h => ⟨_, _, next, _, rfl, Draft.step_number hstep, h⟩
    · rintro ⟨line, rest, next', y, hline, hstep', h⟩
      obtain ⟨rfl, rfl⟩ : lineBody text = line ∧ _ = rest := by simpa [body] using hline
      cases hstep.symm.trans (hstep' n)
      exact h

/-! ## 4. Whole files -/

/-- The lines behind the header that are not comments, as far as they are read; `none` stands for
bytes that encode no text. -/
def contents (lines : List (Option String)) : List (Option (List Char)) :=
  (lines.tail.filter fun l => l.all fun line => !isComment line).map (Option.map lineBody)

/-- The line is one of the two headers. -/
def IsHeader (line : String) : Prop :=
  String.ofList (trimEnd line.toList) = plainHeader ∨
    String.ofList (trimEnd line.toList) = coverageHeader

/-- Numbers aside, the lines that the walk sees are the content. -/
theorem map_body_filter (first : Option String) (rest : List (Option String)) (n : ℕ) :
    ((rest.zipIdx n).filter isContent).map body = contents (first :: rest) := by
  have hzip : (rest.zipIdx n).map Prod.fst = rest := by simp
  rw [contents, List.tail_cons]
  nth_rewrite 2 [← hzip]
  rw [List.filter_map, List.map_map]
  rfl

/-- What it takes for the lines of a file to be accepted: a header, two counts, and the lines of a
run from the empty forest to a finished one. -/
def Accepts (x : Lexicon) (lines : List (Option String)) (f : Forest Float) (x' : Lexicon) :
    Prop :=
  ∃ (header : String) (counts : List Char) (v e : ℕ) (run : List (List Char))
    (rest : List (Option (List Char))) (d : Draft),
    lines.head? = some (some header) ∧ IsHeader header ∧
    contents lines = (counts :: run).map some ++ rest ∧ counts? counts = some (v, e) ∧
    Draft.Run ⟨.withCapacity v e, none⟩ x run d x' ∧ d.Finishes f

theorem readCounts_eq_ok_iff :
    ((readCounts total x ls).outcome = .ok f ∧ (readCounts total x ls).lexicon = x') ↔
      ∃ (counts : List Char) (v e : ℕ) (run : List (List Char))
        (rest : List (Option (List Char))) (d : Draft),
        ls.map body = (counts :: run).map some ++ rest ∧ counts? counts = some (v, e) ∧
        Draft.Run ⟨.withCapacity v e, none⟩ x run d x' ∧ d.Finishes f := by
  rcases ls with - | ⟨⟨- | text, n⟩, ls⟩
  · simp [readCounts]
  · simp [readCounts, body]
  · cases hcounts : counts? (lineBody text) with
    | none =>
      rw [readCounts_of_none hcounts]
      refine iff_of_false (fun h => by simp at h) ?_
      rintro ⟨counts, v, e, run, rest, d, hls, hc, -⟩
      obtain ⟨hline, -⟩ := List.cons.inj hls
      cases hline
      cases hcounts.symm.trans hc
    | some c =>
      rw [readCounts_of_some hcounts, readBody_eq_ok_iff]
      constructor
      · rintro ⟨run, rest, d, hls, hrun, hfin⟩
        exact ⟨lineBody text, c.1, c.2, run, rest, d, by simp [body, hls], hcounts, hrun, hfin⟩
      · rintro ⟨counts, v', e', run, rest, d, hls, hc, hrun, hfin⟩
        obtain ⟨hline, htail⟩ := List.cons.inj hls
        cases hline
        cases hcounts.symm.trans hc
        exact ⟨run, rest, d, htail, hrun, hfin⟩

/-- **What is accepted.**  Reading succeeds with a forest and a lexicon exactly where the lines
accept them. -/
theorem ofLines_eq_ok_iff :
    ((ofLines x lines).outcome = .ok f ∧ (ofLines x lines).lexicon = x') ↔
      Accepts x lines f x' := by
  unfold ofLines
  split
  · simp [Accepts]
  · simp [Accepts]
  · next first rest =>
    have hread := @readCounts_eq_ok_iff x x' f (rest.length + 1) ((rest.zipIdx 2).filter isContent)
    rw [map_body_filter (some first)] at hread
    dsimp only
    split
    · next hheader =>
      rw [hread]
      constructor
      · rintro ⟨counts, v, e, run, rest', d, h⟩
        exact ⟨first, counts, v, e, run, rest', d, rfl, hheader, h⟩
      · rintro ⟨header, counts, v, e, run, rest', d, -, -, h⟩
        exact ⟨counts, v, e, run, rest', d, h⟩
    · next hheader =>
      refine ⟨fun h => by simp at h, ?_⟩
      rintro ⟨header, counts, v, e, run, rest', d, hfirst, hok, -⟩
      cases hfirst
      exact absurd hok hheader

end ForestReading

end ForestRescoring
