/-
# Comments

From the second line of a forest file on, a line that begins with `#` is a comment.  Comments can be
put into a file anywhere behind its first line, and nothing changes but the numbers of its lines.  The
forest is the same, the same words enter the lexicon, and where something is wrong with the file, it
is still wrong with the same line (`ForestReading.comments_transparent`).

The content of a file, which is what the walk goes over, does not change but for its line numbers
(`contentFrom_commented`), and the walk only hands a number on, to a failure that it reports
(`readBody_renumbered`).  The one failure that is of no line is that of a file that is too short.  It is
given the number of all lines, comments included.
-/
import Mathlib
import ForestRescoring.Proofs.Forest.Acceptance
import ForestRescoring.Proofs.Outcome
import ForestRescoring.Proofs.Text.Written

namespace ForestRescoring

open Text

/-! ## 1. The failures of a line -/

namespace EdgeLine

variable {head : VertexId} {x : Lexicon} {line : List Char} {ts : List (List Char)}

theorem gap_ne_unexpectedEnd {token inner : List Char} :
    gap head token inner ≠ .error .unexpectedEnd := by
  unfold gap
  split
  · exact nofun
  · split
    · exact nofun
    · exact nofun

theorem readSlots_ne_unexpectedEnd : (readSlots head x ts).1 ≠ .error .unexpectedEnd := by
  induction ts generalizing x with
  | nil => exact nofun
  | cons t ts ih =>
    rw [readSlots]
    split
    · split
      · next hgap =>
        rintro ⟨⟩
        exact gap_ne_unexpectedEnd hgap
      · exact fun h => ih (map_eq_error_iff.mp h)
    · exact fun h => ih (map_eq_error_iff.mp h)

theorem readFeature_ne_unexpectedEnd {token : List Char} :
    readFeature token ≠ .error .unexpectedEnd := by
  unfold readFeature
  split
  · exact nofun
  · split
    · exact nofun
    · exact nofun

theorem readFeatures_ne_unexpectedEnd {v : FeatureVector Float} :
    readFeatures v ts ≠ .error .unexpectedEnd := by
  induction ts generalizing v with
  | nil => exact nofun
  | cons t ts ih =>
    rw [readFeatures]
    split
    · next hfeature =>
      rintro ⟨⟩
      exact readFeature_ne_unexpectedEnd hfeature
    · exact ih

theorem readCoverage_ne_unexpectedEnd : readCoverage line ts ≠ .error .unexpectedEnd := by
  unfold readCoverage
  split
  · exact nofun
  · split
    · exact nofun
    · exact nofun
  · exact nofun

/-- **Whatever is wrong with a line, it is not that the file is too short.** -/
theorem read_ne_unexpectedEnd : (read head x line).1 ≠ .error .unexpectedEnd := by
  unfold read
  split
  · exact nofun
  · intro h
    rcases bind_eq_error_iff.mp h with h | ⟨slots, -, h⟩
    · exact readSlots_ne_unexpectedEnd h
    rcases bind_eq_error_iff.mp h with h | ⟨v, -, h⟩
    · exact readFeatures_ne_unexpectedEnd h
    rcases bind_eq_error_iff.mp h with h | ⟨n, -, h⟩
    · exact readCoverage_ne_unexpectedEnd h
    · cases h

end EdgeLine

/-! ## 2. Other line numbers -/

/-- A failure in a file whose lines have other numbers.  If the file is too short, the number is that
of all lines. -/
def ForestError.renumber (ρ : ℕ → ℕ) (total : ℕ) : ForestError → ForestError
  | .unreadable cause => .unreadable cause
  | .format line cause => .format (if cause = .unexpectedEnd then total else ρ line) cause
  | .capacity cause => .capacity cause

namespace ForestError

variable {e : ForestError} {cause : FormatError} {ρ : ℕ → ℕ} {total number line : ℕ}

theorem renumber_eq_capacity_iff {cause : PoolExhausted} :
    e.renumber ρ total = .capacity cause ↔ e = .capacity cause := by
  cases e with
  | unreadable other => simp [renumber]
  | format line other => simp [renumber]
  | capacity other => simp [renumber]

theorem renumber_eq_format_iff : e.renumber ρ total = .format number cause ↔
    ∃ line, e = .format line cause ∧
      number = if cause = .unexpectedEnd then total else ρ line := by
  cases e with
  | unreadable other => simp [renumber]
  | format line other =>
    simp only [renumber, format.injEq]
    constructor
    · rintro ⟨hnumber, rfl⟩
      exact ⟨line, ⟨rfl, rfl⟩, hnumber.symm⟩
    · rintro ⟨line', ⟨rfl, rfl⟩, hnumber⟩
      exact ⟨hnumber.symm, rfl⟩
  | capacity other => simp [renumber]

/-- A failure of a line gets the number that the line gets. -/
theorem mapError_format {α : Type} (h : cause ≠ .unexpectedEnd) :
    Except.mapError (renumber ρ total) (.error (.format line cause) : Except ForestError α) =
      .error (.format (ρ line) cause) := by
  rw [Except.mapError, renumber, if_neg h]

end ForestError

/-- The second reading came to the same as the first, in a file whose lines have other numbers. -/
structure ForestReading.Renumbered (ρ : ℕ → ℕ) (total : ℕ) (r r' : ForestReading) : Prop where
  outcome : r'.outcome = r.outcome.mapError (.renumber ρ total)
  lexicon : r'.lexicon = r.lexicon

namespace Draft

variable {d : Draft} {f : Forest Float} {x : Lexicon} {ρ : ℕ → ℕ} {number : ℕ} {line : List Char}

/-- That a vertex cannot be closed is no failure of a line. -/
theorem settle_renumber (ρ : ℕ → ℕ) (total : ℕ) (f : Forest Float) (v : OpenVertex) :
    (settle f v).mapError (.renumber ρ total) = settle f v := by
  unfold settle
  split
  · split
    · rfl
    · rfl
  · rfl

theorem addEdge_renumber (ρ : ℕ → ℕ) (total : ℕ) (f : Forest Float) (v : OpenVertex)
    (e : Edge Float) (covered : ℕ) :
    (addEdge f v e covered).mapError (.renumber ρ total) = addEdge f v e covered := by
  unfold addEdge
  split
  · rfl
  · exact settle_renumber ρ total _ _

/-- **A step hands the number of its line on**, and makes no other use of it. -/
theorem step_renumber (total : ℕ) : d.step x (ρ number) line =
    ((d.step x number line).1.mapError (.renumber ρ total), (d.step x number line).2) := by
  unfold step
  split
  · refine Prod.ext ?_ rfl
    unfold openVertex
    split
    · refine (ForestError.mapError_format ?_).symm
      exact nofun
    · exact (settle_renumber ρ total _ _).symm
  · dsimp only
    split
    · next cause hcause =>
      have hne : cause ≠ .unexpectedEnd := by
        rintro rfl
        exact EdgeLine.read_ne_unexpectedEnd hcause
      exact Prod.ext (ForestError.mapError_format hne).symm rfl
    · exact Prod.ext (addEdge_renumber ρ total _ _ _ _).symm rfl

theorem finish_renumber (total : ℕ) :
    d.finish (ρ number) = (d.finish number).mapError (.renumber ρ total) := by
  unfold finish
  split
  · rfl
  · refine (ForestError.mapError_format ?_).symm
    exact nofun

end Draft

namespace ForestReading

variable {x : Lexicon} {ρ : ℕ → ℕ} {total total' : ℕ} {ls : List NumberedLine}

/-- **The walk over renumbered lines.** -/
theorem readBody_renumbered {d : Draft} {number : ℕ} :
    Renumbered ρ total' (readBody total d x number ls)
      (readBody total' d x (ρ number) (ls.map (Prod.map id ρ))) := by
  induction ls generalizing d x number with
  | nil =>
    rw [List.map_nil, readBody, readBody]
    split
    · exact ⟨Draft.finish_renumber total', rfl⟩
    · exact ⟨rfl, rfl⟩
  | cons l ls ih =>
    obtain ⟨line, n⟩ := l
    rw [List.map_cons, Prod.map_apply]
    unfold readBody
    by_cases hd : d.isComplete = true
    · rw [if_pos hd, if_pos hd]
      exact ⟨Draft.finish_renumber total', rfl⟩
    · rw [if_neg hd, if_neg hd]
      cases line with
      | none => exact ⟨rfl, rfl⟩
      | some text =>
        dsimp only [id]
        rw [Draft.step_renumber total']
        cases (d.step x n (lineBody text)).1 with
        | error cause => exact ⟨rfl, rfl⟩
        | ok next => exact ih

theorem readCounts_renumbered :
    Renumbered ρ total' (readCounts total x ls)
      (readCounts total' x (ls.map (Prod.map id ρ))) := by
  rcases ls with - | ⟨⟨- | text, n⟩, rest⟩
  · exact ⟨rfl, rfl⟩
  · exact ⟨rfl, rfl⟩
  · rw [List.map_cons, Prod.map_apply, id]
    cases hcounts : counts? (lineBody text) with
    | none =>
      rw [readCounts_of_none hcounts, readCounts_of_none hcounts]
      exact ⟨(ForestError.mapError_format (by rintro ⟨⟩)).symm, rfl⟩
    | some c =>
      rw [readCounts_of_some hcounts, readCounts_of_some hcounts]
      exact readBody_renumbered

end ForestReading

/-! ## 3. Files with comments -/

/-- A file into which comments are put behind the first line: each of the other lines with the comments
in front of it, and the comments behind the last line. -/
structure Commented where
  first : List Char
  others : List (List (List Char) × List Char)
  trailing : List (List Char)
  isComment : ∀ l ∈ others.flatMap Prod.fst ++ trailing, l.head? = some '#'
  unbroken : ∀ l ∈ first :: ((others.flatMap fun p => p.1 ++ [p.2]) ++ trailing), '\n' ∉ l

namespace Commented

/-- The lines without the comments. -/
def plainLines (c : Commented) : List (List Char) := c.first :: c.others.map Prod.snd

/-- The lines with the comments. -/
def lines (c : Commented) : List (List Char) :=
  c.first :: ((c.others.flatMap fun p => p.1 ++ [p.2]) ++ c.trailing)

/-- The bytes of the file without the comments. -/
def plainBytes (c : Commented) : ByteArray := (unlines c.plainLines).toUTF8

/-- The bytes of the file with the comments. -/
def bytes (c : Commented) : ByteArray := (unlines c.lines).toUTF8

theorem unbroken_plainLines (c : Commented) :
    ∀ l ∈ c.first :: c.others.map Prod.snd, '\n' ∉ l := by
  refine List.forall_mem_cons.mpr ⟨c.unbroken _ List.mem_cons_self, fun l hl => ?_⟩
  obtain ⟨p, hp, rfl⟩ := List.mem_map.mp hl
  have hline : p.2 ∈ c.others.flatMap fun p => p.1 ++ [p.2] :=
    List.mem_flatMap.mpr ⟨p, hp, List.mem_append_right _ (List.mem_singleton_self _)⟩
  exact c.unbroken _ (List.mem_cons_of_mem _ (List.mem_append_left _ hline))

/-- The number of comments that are put in front of a line, given by its number without them. -/
def before (c : Commented) (line : ℕ) : ℕ :=
  ((c.others.take (line - 1)).map fun p => p.1.length).sum

/-- **Where a line stands** among the comments: behind those that are put in front of it. -/
theorem getElem?_lines (c : Commented) {i : ℕ} (hi : i < c.plainLines.length) :
    c.lines[i + c.before (i + 1)]? = c.plainLines[i]? := by
  have hothers : ∀ (others : List (List (List Char) × List Char)) (i : ℕ), i < others.length →
      ((others.flatMap fun p => p.1 ++ [p.2]) ++ c.trailing)[
        i + ((others.take (i + 1)).map fun p => p.1.length).sum]? = (others.map Prod.snd)[i]? := by
    intro others
    induction others with
    | nil => exact fun i hi => absurd hi (Nat.not_lt_zero i)
    | cons p others ih =>
      intro i hi
      rw [List.flatMap_cons, List.append_assoc, List.append_assoc, List.take_succ_cons,
        List.map_cons, List.sum_cons, List.getElem?_append_right (by omega)]
      cases i with
      | zero => simp
      | succ i =>
        have hindex : i + 1 + (p.1.length + ((others.take (i + 1)).map fun p => p.1.length).sum) -
            p.1.length = i + ((others.take (i + 1)).map fun p => p.1.length).sum + 1 := by
          omega
        rw [hindex, List.singleton_append, List.getElem?_cons_succ]
        exact ih i (Nat.lt_of_succ_lt_succ hi)
  cases i with
  | zero => rfl
  | succ i =>
    rw [plainLines, List.length_cons, List.length_map] at hi
    rw [lines, plainLines, before, Nat.add_sub_cancel, Nat.add_right_comm,
      List.getElem?_cons_succ, List.getElem?_cons_succ]
    exact hothers c.others i (Nat.lt_of_succ_lt_succ hi)

end Commented

namespace ForestReading

/-- The numbered content of lines, of which the first has the number `n`. -/
def contentFrom (n : ℕ) (ls : List (List Char)) : List NumberedLine :=
  ((ls.map fun l => some (String.ofList l)).zipIdx n).filter isContent

theorem contentFrom_append (n : ℕ) (ls ms : List (List Char)) :
    contentFrom n (ls ++ ms) = contentFrom n ls ++ contentFrom (n + ls.length) ms := by
  rw [contentFrom, List.map_append, List.zipIdx_append, List.filter_append, List.length_map]
  rfl

/-- No comment is content. -/
theorem contentFrom_comments {comments : List (List Char)}
    (h : ∀ l ∈ comments, l.head? = some '#') (n : ℕ) : contentFrom n comments = [] := by
  refine List.filter_eq_nil_iff.mpr ?_
  rintro ⟨line, k⟩ hmem
  obtain ⟨l, hl, rfl⟩ := List.mem_map.mp (List.fst_mem_of_mem_zipIdx hmem)
  simp [isContent, isComment, h l hl]

/-- A line is content, or not, whatever its number. -/
theorem contentFrom_singleton (ρ : ℕ → ℕ) (n : ℕ) (l : List Char) :
    contentFrom (ρ n) [l] = (contentFrom n [l]).map (Prod.map id ρ) := by
  show List.filter isContent (List.map (Prod.map id ρ) [(some (String.ofList l), n)]) = _
  rw [List.filter_map]
  rfl

/-- **Comments renumber the content.**  A line gets the number that it has behind the lines and the
comments in front of it. -/
theorem contentFrom_commented {others : List (List (List Char) × List Char)}
    {trailing : List (List Char)}
    (h : ∀ l ∈ others.flatMap Prod.fst ++ trailing, l.head? = some '#') {ρ : ℕ → ℕ} {m n : ℕ}
    (hρ : ∀ i < others.length,
      ρ (m + i) = n + i + ((others.take (i + 1)).map fun p => p.1.length).sum) :
    contentFrom n ((others.flatMap fun p => p.1 ++ [p.2]) ++ trailing) =
      (contentFrom m (others.map Prod.snd)).map (Prod.map id ρ) := by
  induction others generalizing m n with
  | nil => exact contentFrom_comments h n
  | cons p others ih =>
    obtain ⟨comments, line⟩ := p
    rw [List.flatMap_cons, List.append_assoc, List.forall_mem_append] at h
    obtain ⟨hfront, hrest⟩ := h
    have hplace : ρ m = n + comments.length := by
      simpa using hρ 0 (Nat.succ_pos _)
    have hlater : ∀ i < others.length, ρ (m + 1 + i) =
        ρ m + 1 + i + ((others.take (i + 1)).map fun p => p.1.length).sum := by
      intro i hi
      have hnext := hρ (i + 1) (Nat.succ_lt_succ hi)
      rw [List.take_succ_cons, List.map_cons, List.sum_cons] at hnext
      dsimp only at hnext
      rw [Nat.add_right_comm, Nat.add_assoc m, hnext, hplace]
      omega
    calc contentFrom n ((((comments, line) :: others).flatMap fun p => p.1 ++ [p.2]) ++ trailing)
        = contentFrom n (comments ++
            ([line] ++ ((others.flatMap fun p => p.1 ++ [p.2]) ++ trailing))) := by simp
      _ = contentFrom (ρ m) [line] ++
            contentFrom (ρ m + 1) ((others.flatMap fun p => p.1 ++ [p.2]) ++ trailing) := by
          rw [contentFrom_append, contentFrom_comments hfront, List.nil_append, ← hplace,
            contentFrom_append]
          rfl
      _ = (contentFrom m [line] ++ contentFrom (m + 1) (others.map Prod.snd)).map
            (Prod.map id ρ) := by
          rw [contentFrom_singleton, ih hrest hlater, List.map_append]
      _ = (contentFrom m (((comments, line) :: others).map Prod.snd)).map (Prod.map id ρ) :=
          congrArg (List.map (Prod.map id ρ)) (contentFrom_append m [line] _).symm

/-! ## 4. The main result -/

/-- A file in terms of its numbered content. -/
theorem ofBytes_unlines {first : List Char} {rest : List (List Char)}
    (h : ∀ l ∈ first :: rest, '\n' ∉ l) (x : Lexicon) :
    ofBytes x (unlines (first :: rest)).toUTF8 =
      if String.ofList (trimEnd first) = plainHeader ∨
          String.ofList (trimEnd first) = coverageHeader then
        readCounts (rest.length + 1) x (contentFrom 2 rest)
      else ⟨.error (.format 1 (.incorrectHeader (String.ofList (trimEnd first)))), x, 1⟩ := by
  rw [ofBytes, decodedLines_unlines h, List.map_cons, ofLines, List.length_map]
  simp only [String.toList_ofList]
  rfl

/-- **A file with comments is read as the file without them**, but for the numbers of its lines. -/
theorem ofBytes_renumbered (c : Commented) (x : Lexicon) :
    Renumbered (fun line => line + c.before line) c.lines.length (ofBytes x c.plainBytes)
      (ofBytes x c.bytes) := by
  have hcontent : contentFrom 2 ((c.others.flatMap fun p => p.1 ++ [p.2]) ++ c.trailing) =
      (contentFrom 2 (c.others.map Prod.snd)).map
        (Prod.map id fun line => line + c.before line) := by
    refine contentFrom_commented c.isComment fun i _ => ?_
    have hindex : 2 + i - 1 = i + 1 := by omega
    rw [Commented.before, hindex]
  rw [Commented.plainBytes, Commented.plainLines, ofBytes_unlines c.unbroken_plainLines,
    Commented.bytes, Commented.lines, ofBytes_unlines c.unbroken, hcontent]
  split
  · exact readCounts_renumbered
  · -- no comment is put in front of the first line
    exact ⟨rfl, rfl⟩

/-- **Comments are transparent.**  With and without comments behind its first line, a file

* adds the same to a lexicon,
* is read with the same forest, if it is accepted,
* is refused for the same want of room,
* is refused for the same reason in the same line, whose number grows by that of the comments put in
  front of it; the number of a file that is too short is that of all its lines. -/
theorem comments_transparent (c : Commented) (x : Lexicon) :
    (ofBytes x c.bytes).lexicon = (ofBytes x c.plainBytes).lexicon ∧
    (∀ f, (ofBytes x c.bytes).outcome = .ok f ↔ (ofBytes x c.plainBytes).outcome = .ok f) ∧
    (∀ cause, (ofBytes x c.bytes).outcome = .error (.capacity cause) ↔
      (ofBytes x c.plainBytes).outcome = .error (.capacity cause)) ∧
    (∀ number cause, (ofBytes x c.bytes).outcome = .error (.format number cause) ↔
      ∃ line, (ofBytes x c.plainBytes).outcome = .error (.format line cause) ∧
        number = if cause = .unexpectedEnd then c.lines.length else line + c.before line) ∧
    ∀ i < c.plainLines.length, c.lines[i + c.before (i + 1)]? = c.plainLines[i]? := by
  obtain ⟨houtcome, hlexicon⟩ := ofBytes_renumbered c x
  rw [houtcome]
  refine ⟨hlexicon, fun f => mapError_eq_ok_iff, fun cause => ?_, fun number cause => ?_,
    fun i => c.getElem?_lines⟩
  · simp only [mapError_eq_error_iff, ForestError.renumber_eq_capacity_iff, exists_eq_right]
  · rw [mapError_eq_error_iff]
    constructor
    · rintro ⟨e, he, hrenumber⟩
      obtain ⟨line, rfl, hnumber⟩ := ForestError.renumber_eq_format_iff.mp hrenumber
      exact ⟨line, he, hnumber⟩
    · rintro ⟨line, hline, hnumber⟩
      exact ⟨_, hline, ForestError.renumber_eq_format_iff.mpr ⟨line, rfl, hnumber⟩⟩

/-- A file with a value that is no number, three comments in front of it and one behind it. -/
def annotated : Commented where
  first := plainHeader.toList
  others := [(["# counts".toList], "1 1".toList), ([], "1".toList),
    (["# edges".toList, "#".toList], "a ||| lm=b".toList)]
  trailing := ["# end".toList]
  isComment := by decide
  unbroken := by decide

/-- The value stands in the fourth line, and with the comments in the seventh. -/
theorem comments_transparent_annotated :
    (ofBytes .empty annotated.plainBytes).outcome = .error (.format 4 (.badValue "b")) ∧
      (ofBytes .empty annotated.bytes).outcome = .error (.format 7 (.badValue "b")) := by
  have hplain : failure? (ofBytes .empty annotated.plainBytes).outcome =
      some (.format 4 (.badValue "b")) := by
    decide +kernel
  rw [failure?_eq_some_iff] at hplain
  obtain ⟨-, -, -, hformat, -⟩ := comments_transparent annotated .empty
  exact ⟨hplain, (hformat 7 (.badValue "b")).mpr ⟨4, hplain, rfl⟩⟩

end ForestReading

end ForestRescoring
