/-
# The lines that are read

The walk over a forest file stops at the line that completes the declared vertices, or at the first
line that does not fit.  What it comes to is settled there.  Whatever follows the lines that were
read, the forest, the failure and the lexicon are the same (`ForestReading.settled_by_lines_read`).

There is one way to be unsettled, which is to run out of lines (`ForestReading.RunsOut`).  A walk
that does not run out goes the same way over more lines (`readBody_append`), and one that runs out
reads on as soon as there are more (`linesRead_mem_of_runsOut`).  So the lines that were read are all
that it takes to settle a file, and no fewer lines do.  As each line is read once, this holds for all
numbers that a file may declare.
-/
import Mathlib
import ForestRescoring.Proofs.Forest.Soundness
import ForestRescoring.Proofs.Forest.Comments
import ForestRescoring.Proofs.Text.Lines

namespace ForestRescoring

open Text

/-! ## 1. The line of a failure -/

namespace Draft

variable {d : Draft} {x : Lexicon} {number L : ℕ} {line : List Char} {cause : FormatError}

/-- A line that does not fit is reported with its number. -/
theorem line_eq_of_step (h : (d.step x number line).1 = .error (.format L cause)) : L = number := by
  obtain ⟨ρ, hρ⟩ : ∃ ρ : ℕ → ℕ, ∀ n, ρ n = number := ⟨fun _ => number, fun _ => rfl⟩
  rw [← hρ 0, step_renumber number, mapError_eq_error_iff] at h
  obtain ⟨e, -, he⟩ := h
  obtain ⟨line', -, hL⟩ := ForestError.renumber_eq_format_iff.mp he
  rw [hL, hρ line', ite_self]

theorem line_eq_of_finish (h : d.finish number = .error (.format L cause)) : L = number := by
  unfold finish at h
  split at h
  · cases h
  · cases h
    rfl

end Draft

namespace ForestReading

/-! ## 2. Running out of lines -/

/-- The lines came to an end before the forest did. -/
def RunsOut (r : ForestReading) : Prop :=
  ∃ number cause, r.outcome = .error (.format number cause) ∧
    (cause = .unexpectedEnd ∨ cause = .emptyInput)

theorem runsOut_of_unexpectedEnd {number total : ℕ} {x : Lexicon} :
    RunsOut ⟨.error (.format total .unexpectedEnd), x, number⟩ :=
  ⟨total, _, rfl, .inl rfl⟩

section Walk

variable {total total' number n L : ℕ} {d next : Draft} {x : Lexicon} {text : String}
  {e : ForestError} {front rest ls : List NumberedLine} {cause : FormatError}

/-! ## 3. The walk over more lines -/

/-- **A walk that does not run out of lines goes the same way over more of them**, whatever the number
of all lines is. -/
theorem readBody_append (h : ¬ (readBody total d x number front).RunsOut) :
    readBody total' d x number (front ++ rest) = readBody total d x number front := by
  induction d, x, number, front using readBody.induct with
  | case1 d x number hd => rw [readBody_of_isComplete hd, readBody_of_isComplete hd]
  | case2 d x number hd =>
    rw [readBody_nil hd] at h
    exact absurd runsOut_of_unexpectedEnd h
  | case3 d x number line n front hd => rw [readBody_of_isComplete hd, readBody_of_isComplete hd]
  | case4 d x number n front hd => rw [List.cons_append, readBody_invalid hd, readBody_invalid hd]
  | case5 d x number n front hd text stepped e hs =>
    rw [List.cons_append, readBody_of_error hd hs, readBody_of_error hd hs]
  | case6 d x number n front hd text stepped next hs ih =>
    rw [readBody_of_ok hd hs] at h
    rw [List.cons_append, readBody_of_ok hd hs, readBody_of_ok hd hs]
    exact ih h

theorem readCounts_append (h : ¬ (readCounts total x front).RunsOut) :
    readCounts total' x (front ++ rest) = readCounts total x front := by
  match front with
  | [] => exact absurd runsOut_of_unexpectedEnd h
  | (none, n) :: _ => rfl
  | (some text, n) :: front =>
    rw [List.cons_append]
    cases hc : counts? (lineBody text) with
    | none => rw [readCounts_of_none hc, readCounts_of_none hc]
    | some c =>
      rw [readCounts_of_some hc] at h
      rw [readCounts_of_some hc, readCounts_of_some hc]
      exact readBody_append h

/-! ## 4. The number of lines read -/

/-- **An incomplete draft has a line read**, unless it runs out of lines, which takes all of them. -/
theorem linesRead_readBody (hd : ¬ d.isComplete = true) :
    (readBody total d x number ls).linesRead ∈ ls.map Prod.snd ∨
      (readBody total d x number ls).RunsOut ∧
        (readBody total d x number ls).linesRead = total := by
  induction d, x, number, ls using readBody.induct with
  | case1 d x number hd' => exact absurd hd' hd
  | case2 d x number hd =>
    rw [readBody_nil hd]
    exact .inr ⟨runsOut_of_unexpectedEnd, rfl⟩
  | case3 d x number line n ls hd' => exact absurd hd' hd
  | case4 d x number n ls hd =>
    rw [readBody_invalid hd]
    exact .inl List.mem_cons_self
  | case5 d x number n ls hd text stepped e hs =>
    rw [readBody_of_error hd hs]
    exact .inl List.mem_cons_self
  | case6 d x number n ls hd text stepped next hs ih =>
    rw [readBody_of_ok hd hs]
    by_cases hnext : next.isComplete = true
    · rw [readBody_of_isComplete hnext]
      exact .inl List.mem_cons_self
    · exact (ih hnext).imp_left (List.mem_cons_of_mem n)

theorem linesRead_readCounts (total : ℕ) (x : Lexicon) (ls : List NumberedLine) :
    (readCounts total x ls).linesRead ∈ ls.map Prod.snd ∨
      (readCounts total x ls).RunsOut ∧ (readCounts total x ls).linesRead = total := by
  match ls with
  | [] => exact .inr ⟨runsOut_of_unexpectedEnd, rfl⟩
  | (none, n) :: _ => exact .inl List.mem_cons_self
  | (some text, n) :: ls =>
    cases hc : counts? (lineBody text) with
    | none =>
      rw [readCounts_of_none hc]
      exact .inl List.mem_cons_self
    | some c =>
      rw [readCounts_of_some hc]
      by_cases hd : (⟨.withCapacity c.1 c.2, none⟩ : Draft).isComplete = true
      · rw [readBody_of_isComplete hd]
        exact .inl List.mem_cons_self
      · exact (linesRead_readBody hd).imp_left (List.mem_cons_of_mem n)

/-- **A walk that runs out of lines reads on** as soon as there are more. -/
theorem linesRead_mem_of_runsOut (hfront : (readBody total d x number front).RunsOut)
    (h : ¬ (readBody total' d x number (front ++ rest)).RunsOut) :
    (readBody total' d x number (front ++ rest)).linesRead ∈ rest.map Prod.snd := by
  induction d, x, number, front using readBody.induct with
  | case1 d x number hd =>
    rw [readBody_of_isComplete hd] at hfront h
    exact absurd hfront h
  | case2 d x number hd => exact (linesRead_readBody hd).resolve_right fun hout => h hout.1
  | case3 d x number line n front hd =>
    rw [readBody_of_isComplete hd] at hfront h
    exact absurd hfront h
  | case4 d x number n front hd =>
    rw [readBody_invalid hd] at hfront
    rw [List.cons_append, readBody_invalid hd] at h
    exact absurd hfront h
  | case5 d x number n front hd text stepped e hs =>
    rw [readBody_of_error hd hs] at hfront
    rw [List.cons_append, readBody_of_error hd hs] at h
    exact absurd hfront h
  | case6 d x number n front hd text stepped next hs ih =>
    rw [readBody_of_ok hd hs] at hfront
    rw [List.cons_append, readBody_of_ok hd hs] at h ⊢
    exact ih hfront h

theorem linesRead_mem_readCounts (hfront : (readCounts total x front).RunsOut)
    (h : ¬ (readCounts total' x (front ++ rest)).RunsOut) :
    (readCounts total' x (front ++ rest)).linesRead ∈ rest.map Prod.snd := by
  match front with
  | [] => exact (linesRead_readCounts total' x rest).resolve_right fun hout => h hout.1
  | (none, n) :: _ => exact absurd hfront h
  | (some text, n) :: front =>
    rw [List.cons_append] at h ⊢
    cases hc : counts? (lineBody text) with
    | none =>
      rw [readCounts_of_none hc] at hfront h
      exact absurd hfront h
    | some c =>
      rw [readCounts_of_some hc] at hfront h ⊢
      exact linesRead_mem_of_runsOut hfront h

/-- **A failure is reported with the number of the last line that was read.** -/
theorem line_eq_of_readBody
    (h : (readBody total d x number ls).outcome = .error (.format L cause)) :
    L = (readBody total d x number ls).linesRead := by
  induction d, x, number, ls using readBody.induct with
  | case1 d x number hd =>
    rw [readBody_of_isComplete hd] at h ⊢
    exact Draft.line_eq_of_finish h
  | case2 d x number hd =>
    rw [readBody_nil hd] at h ⊢
    cases h
    rfl
  | case3 d x number line n ls hd =>
    rw [readBody_of_isComplete hd] at h ⊢
    exact Draft.line_eq_of_finish h
  | case4 d x number n ls hd =>
    rw [readBody_invalid hd] at h
    cases h
  | case5 d x number n ls hd text stepped e hs =>
    rw [readBody_of_error hd hs] at h ⊢
    cases h
    exact Draft.line_eq_of_step hs
  | case6 d x number n ls hd text stepped next hs ih =>
    rw [readBody_of_ok hd hs] at h ⊢
    exact ih h

theorem line_eq_of_readCounts (h : (readCounts total x ls).outcome = .error (.format L cause)) :
    L = (readCounts total x ls).linesRead := by
  match ls with
  | [] =>
    cases h
    rfl
  | (none, n) :: _ => cases h
  | (some text, n) :: ls =>
    cases hc : counts? (lineBody text) with
    | none =>
      rw [readCounts_of_none hc] at h ⊢
      cases h
      rfl
    | some c =>
      rw [readCounts_of_some hc] at h ⊢
      exact line_eq_of_readBody h

/-- If the file is too short, the number is that of all lines. -/
theorem line_eq_of_unexpectedEnd
    (h : (readCounts total x ls).outcome = .error (.format L .unexpectedEnd)) : L = total := by
  have hsame : Renumbered id total (readCounts total x ls)
      (readCounts total x (ls.map (Prod.map id id))) := readCounts_renumbered
  have houtcome := hsame.outcome
  rw [Prod.map_id, List.map_id, h, Except.mapError, ForestError.renumber, if_pos rfl] at houtcome
  injection houtcome with he
  injection he

end Walk

/-! ## 5. Files as lines -/

variable {x : Lexicon} {first : String} {front rest ls ls' : List (Option String)} {k L : ℕ}
  {cause : FormatError}

/-- The lines of the content with their numbers in the file. -/
def numberedContent (n : ℕ) (ls : List (Option String)) : List NumberedLine :=
  (ls.zipIdx n).filter isContent

theorem numberedContent_append (n : ℕ) (front rest : List (Option String)) :
    numberedContent n (front ++ rest) =
      numberedContent n front ++ numberedContent (n + front.length) rest := by
  rw [numberedContent, List.zipIdx_append, List.filter_append]
  rfl

/-- The numbers of lines that begin with the number `n`. -/
theorem number_of_mem_content {l : NumberedLine} {n : ℕ} (h : l ∈ numberedContent n ls) :
    n ≤ l.2 ∧ l.2 < n + ls.length := by
  have hl := (List.mem_filter.mp h).1
  exact ⟨List.le_snd_of_mem_zipIdx hl, List.snd_lt_add_of_mem_zipIdx hl⟩

theorem ofLines_of_isHeader (h : IsHeader first) :
    ofLines x (some first :: ls) = readCounts (ls.length + 1) x (numberedContent 2 ls) := by
  rw [ofLines]
  exact if_pos h

theorem ofLines_of_not_isHeader (h : ¬ IsHeader first) :
    ofLines x (some first :: ls) =
      ⟨.error (.format 1 (.incorrectHeader (String.ofList (trimEnd first.toList)))), x, 1⟩ := by
  rw [ofLines]
  exact if_neg h

/-- **What is settled stays**, whatever lines follow. -/
theorem ofLines_append (h : ¬ (ofLines x front).RunsOut) :
    ofLines x (front ++ rest) = ofLines x front := by
  match front with
  | [] => exact absurd ⟨1, _, rfl, .inr rfl⟩ h
  | none :: _ => rfl
  | some first :: front =>
    rw [List.cons_append]
    by_cases hheader : IsHeader first
    · rw [ofLines_of_isHeader hheader] at h
      rw [ofLines_of_isHeader hheader, ofLines_of_isHeader hheader, numberedContent_append]
      exact readCounts_append h
    · rw [ofLines_of_not_isHeader hheader, ofLines_of_not_isHeader hheader]

/-- A settled file has a line that was read. -/
theorem linesRead_pos (h : ¬ (ofLines x ls).RunsOut) : 0 < (ofLines x ls).linesRead := by
  match ls with
  | [] => exact absurd ⟨1, _, rfl, .inr rfl⟩ h
  | none :: _ => exact Nat.one_pos
  | some first :: ls =>
    by_cases hheader : IsHeader first
    · rw [ofLines_of_isHeader hheader] at h ⊢
      obtain ⟨l, hl, hread⟩ := List.mem_map.mp
        ((linesRead_readCounts _ x (numberedContent 2 ls)).resolve_right fun hout => h hout.1)
      have hnumber := (number_of_mem_content hl).1
      omega
    · rw [ofLines_of_not_isHeader hheader]
      exact Nat.one_pos

/-- **What is not settled takes more lines**: those that settle it are read. -/
theorem length_lt_linesRead (hfront : (ofLines x front).RunsOut)
    (h : ¬ (ofLines x (front ++ rest)).RunsOut) :
    front.length < (ofLines x (front ++ rest)).linesRead := by
  match front with
  | [] => exact linesRead_pos h
  | none :: _ => exact absurd hfront h
  | some first :: front =>
    rw [List.cons_append] at h ⊢
    by_cases hheader : IsHeader first
    · rw [ofLines_of_isHeader hheader] at hfront h ⊢
      rw [numberedContent_append] at h ⊢
      obtain ⟨l, hl, hread⟩ := List.mem_map.mp (linesRead_mem_readCounts hfront h)
      have hnumber := (number_of_mem_content hl).1
      rw [← hread, List.length_cons]
      omega
    · rw [ofLines_of_not_isHeader hheader] at hfront h
      exact absurd hfront h

/-- No line is read that is not there. -/
theorem linesRead_le : (ofLines x ls).linesRead ≤ ls.length := by
  match ls with
  | [] => exact Nat.le_refl 0
  | none :: ls => exact Nat.succ_le_succ (Nat.zero_le ls.length)
  | some first :: ls =>
    by_cases hheader : IsHeader first
    · rw [ofLines_of_isHeader hheader, List.length_cons]
      rcases linesRead_readCounts (ls.length + 1) x (numberedContent 2 ls) with hmem | ⟨-, hall⟩
      · obtain ⟨l, hl, hread⟩ := List.mem_map.mp hmem
        have hnumber := (number_of_mem_content hl).2
        omega
      · exact hall.le
    · rw [ofLines_of_not_isHeader hheader]
      exact Nat.succ_le_succ (Nat.zero_le ls.length)

/-- **The lines that are read settle the file.** -/
theorem ofLines_take (h : ¬ (ofLines x ls).RunsOut) :
    ofLines x (ls.take (ofLines x ls).linesRead) = ofLines x ls := by
  obtain ⟨k, hk⟩ : ∃ k, k = (ofLines x ls).linesRead := ⟨_, rfl⟩
  have hsplit : ls.take k ++ ls.drop k = ls := List.take_append_drop k ls
  rw [← hk]
  by_cases hfront : (ofLines x (ls.take k)).RunsOut
  · -- then it would take a line behind these, and they are all that is read
    have hlt : (ls.take k).length < (ofLines x (ls.take k ++ ls.drop k)).linesRead :=
      length_lt_linesRead hfront (by rwa [hsplit])
    rw [hsplit, ← hk, List.length_take_of_le (hk ▸ linesRead_le)] at hlt
    exact absurd hlt (Nat.lt_irrefl k)
  · rw [← ofLines_append hfront, hsplit]

/-- Files with the same first lines, up to those that are read, are read the same. -/
theorem ofLines_eq_of_take (h : ¬ (ofLines x ls).RunsOut)
    (hsame : ls'.take (ofLines x ls).linesRead = ls.take (ofLines x ls).linesRead) :
    ofLines x ls' = ofLines x ls := by
  have hfront : ofLines x (ls'.take (ofLines x ls).linesRead) = ofLines x ls := by
    rw [hsame, ofLines_take h]
  conv_lhs => rw [← List.take_append_drop (ofLines x ls).linesRead ls']
  rw [ofLines_append (by rwa [hfront]), hfront]

/-- Fewer lines do not settle the file. -/
theorem runsOut_take (hk : k < (ofLines x ls).linesRead) : (ofLines x (ls.take k)).RunsOut := by
  by_contra h
  have hwhole : ofLines x (ls.take k ++ ls.drop k) = ofLines x (ls.take k) := ofLines_append h
  rw [List.take_append_drop] at hwhole
  have hle : (ofLines x (ls.take k)).linesRead ≤ (ls.take k).length := linesRead_le
  rw [← hwhole, List.length_take] at hle
  omega

theorem line_eq_linesRead (h : (ofLines x ls).outcome = .error (.format L cause))
    (hempty : cause ≠ .emptyInput) : L = (ofLines x ls).linesRead := by
  match ls with
  | [] =>
    cases h
    exact absurd rfl hempty
  | none :: _ => cases h
  | some first :: ls =>
    by_cases hheader : IsHeader first
    · rw [ofLines_of_isHeader hheader] at h ⊢
      exact line_eq_of_readCounts h
    · rw [ofLines_of_not_isHeader hheader] at h ⊢
      cases h
      rfl

theorem line_eq_length (h : (ofLines x ls).outcome = .error (.format L .unexpectedEnd)) :
    L = ls.length := by
  match ls with
  | [] => cases h
  | none :: _ => cases h
  | some first :: ls =>
    by_cases hheader : IsHeader first
    · rw [ofLines_of_isHeader hheader] at h
      exact line_eq_of_unexpectedEnd h
    · rw [ofLines_of_not_isHeader hheader] at h
      cases h

/-! ## 6. Files as bytes -/

/-- The lines of a file, none of them decoded. -/
def fileLines (bytes : ByteArray) : List (List UInt8) := lines 10 bytes.data.toList

/-- The two files have the same first lines, up to the line number `k`. -/
def SameFirstLines (k : ℕ) (bytes other : ByteArray) : Prop :=
  (fileLines other).take k = (fileLines bytes).take k

/-- The file is empty or ends with a newline. -/
def Terminated (bytes : ByteArray) : Prop := ∀ b ∈ bytes.data.toList.getLast?, b = 10

instance : DecidablePred Terminated := fun bytes =>
  inferInstanceAs (Decidable (∀ b ∈ bytes.data.toList.getLast?, b = 10))

theorem fileLines_append {bytes : ByteArray} (h : Terminated bytes) (rest : ByteArray) :
    fileLines (bytes ++ rest) = fileLines bytes ++ fileLines rest := by
  rw [fileLines, ByteArray.data_append, Array.toList_append, lines_append_of_getLast? h]
  rfl

/-- **Bytes behind the last newline** are no part of the lines before it. -/
theorem sameFirstLines_append {bytes : ByteArray} (h : Terminated bytes) {k : ℕ}
    (hk : k ≤ (fileLines bytes).length) (rest : ByteArray) :
    SameFirstLines k bytes (bytes ++ rest) := by
  rw [SameFirstLines, fileLines_append h, List.take_append_of_le_length hk]

theorem ofBytes_eq_of_sameFirstLines {bytes other : ByteArray} (h : ¬ (ofBytes x bytes).RunsOut)
    (hsame : SameFirstLines (ofBytes x bytes).linesRead bytes other) :
    ofBytes x other = ofBytes x bytes := by
  refine ofLines_eq_of_take h ?_
  have hdecoded := congrArg (List.map decode) hsame
  rwa [List.map_take, List.map_take] at hdecoded

/-! ## 7. The main result -/

/-- **A file is settled by the lines that are read.**

* If it has a forest, then every file with the same lines up to the last that was read has the same
  forest and adds the same to the lexicon.
* If it is refused for a line, and not because it has too few, then so is every file with the same
  lines up to that one, for the same reason, and it adds the same to the lexicon.
* If it has too few lines, the failure has the number of its lines.
* No more lines are read than it has.
* And no fewer lines would do: a file that has only some of the lines that were read has too few. -/
theorem settled_by_lines_read (x : Lexicon) (bytes : ByteArray) :
    (∀ f, (ofBytes x bytes).outcome = .ok f →
      ∀ other, SameFirstLines (ofBytes x bytes).linesRead bytes other →
        (ofBytes x other).outcome = .ok f ∧
          (ofBytes x other).lexicon = (ofBytes x bytes).lexicon) ∧
    (∀ L cause, (ofBytes x bytes).outcome = .error (.format L cause) →
      cause ≠ .unexpectedEnd → cause ≠ .emptyInput →
      ∀ other, SameFirstLines L bytes other →
        (ofBytes x other).outcome = .error (.format L cause) ∧
          (ofBytes x other).lexicon = (ofBytes x bytes).lexicon) ∧
    (∀ L, (ofBytes x bytes).outcome = .error (.format L .unexpectedEnd) →
      L = (fileLines bytes).length) ∧
    (ofBytes x bytes).linesRead ≤ (fileLines bytes).length ∧
    ∀ k < (ofBytes x bytes).linesRead, ∀ other, fileLines other = (fileLines bytes).take k →
      (ofBytes x other).RunsOut := by
  refine ⟨fun f hf other hsame => ?_, fun L cause hL hend hempty other hsame => ?_,
    fun L hL => ?_, ?_, fun k hk other hlines => ?_⟩
  · have hsettled : ¬ (ofBytes x bytes).RunsOut := by
      rintro ⟨number, cause, herror, -⟩
      rw [hf] at herror
      cases herror
    rw [ofBytes_eq_of_sameFirstLines hsettled hsame]
    exact ⟨hf, rfl⟩
  · have hsettled : ¬ (ofBytes x bytes).RunsOut := by
      rintro ⟨number, cause', herror, hcause⟩
      rw [hL] at herror
      cases herror
      exact hcause.elim hend hempty
    rw [line_eq_linesRead hL hempty] at hsame
    rw [ofBytes_eq_of_sameFirstLines hsettled hsame]
    exact ⟨hL, rfl⟩
  · rw [line_eq_length hL, decodedLines, List.length_map]
    rfl
  · have hle : (ofBytes x bytes).linesRead ≤ (decodedLines bytes).length := linesRead_le
    rwa [decodedLines, List.length_map] at hle
  · have hout : (ofLines x ((decodedLines bytes).take k)).RunsOut := runsOut_take hk
    have hother : decodedLines other = (decodedLines bytes).take k :=
      (congrArg (List.map decode) hlines).trans List.map_take
    rwa [← hother] at hout

/-- A file that declares as many vertices as there can be, and has a wrong line. -/
def hugeFile : String := "# target ||| features\n18446744073709551615 1\nmany\n"

/-- Whatever follows, the small file has its forest, and the wrong line of the huge one is found. -/
theorem settled_by_lines_read_files :
    (∃ f, ∀ rest, (ofBytes .empty (smallFile.toUTF8 ++ rest)).outcome = .ok f) ∧
    ∀ rest, (ofBytes .empty (hugeFile.toUTF8 ++ rest)).outcome =
      .error (.format 3 (.badEdgeCount "many")) := by
  constructor
  · obtain ⟨f, hf⟩ : ∃ f, (ofBytes .empty smallFile.toUTF8).outcome = .ok f := by
      refine failure?_eq_none_iff.mp ?_
      decide +kernel
    obtain ⟨haccepted, -, -, hle, -⟩ := settled_by_lines_read .empty smallFile.toUTF8
    refine ⟨f, fun rest => (haccepted f hf _ (sameFirstLines_append ?_ hle rest)).1⟩
    decide +kernel
  · have hhuge : (ofBytes .empty hugeFile.toUTF8).outcome =
        .error (.format 3 (.badEdgeCount "many")) := by
      refine failure?_eq_some_iff.mp ?_
      decide +kernel
    obtain ⟨-, hrefused, -⟩ := settled_by_lines_read .empty hugeFile.toUTF8
    refine fun rest => (hrefused 3 _ hhuge nofun nofun _ (sameFirstLines_append ?_ ?_ rest)).1
    · decide +kernel
    · decide +kernel

end ForestReading

end ForestRescoring
