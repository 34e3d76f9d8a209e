/-
# What a weights file says

Each line of a weights file is silent, gives a number to a name or has a fault, and which of them is said
here by its layout (`WeightLine.silent_or_gives_or_faulty`).  A row of lines is then read in one of two
ways.  If all can be used, each name has what is given to it last (`addWeightLines_of_usable`); if one
has a fault, the first that has one is the failure, with its number (`addWeightLines_of_faulty`).

Both hold whatever weights there are before and whichever number the first line has.  So they say what
becomes of two files when one is put behind the other.
-/
import Mathlib
import ForestRescoring.FeatureVector.Weights
import ForestRescoring.Proofs.Outcome
import ForestRescoring.Proofs.Text.Layout
import ForestRescoring.Proofs.Text.Lines

namespace ForestRescoring

open Text

/-! ## 1. Lines -/

/-- What is wrong with a line. -/
inductive LineFault where
  /-- It does not have a name and a number; `text` is the line without the blanks around. -/
  | malformed (text : String)
  /-- The number is none, or is not finite. -/
  | invalidValue (name value : String)

namespace LineFault

/-- The failure of a file with this fault in a line. -/
def onLine (number : ℕ) : LineFault → WeightsError
  | .malformed text => .malformed number text
  | .invalidValue name value => .invalidValue number name value

/-- The words for the fault, whichever line it is in. -/
def message : LineFault → String
  | .malformed text => "expected 'name value', got '" ++ text ++ "'"
  | .invalidValue name value => "invalid weight '" ++ value ++ "' for " ++ name

theorem message_onLine (fault : LineFault) (number : ℕ) :
    (fault.onLine number).message = "line " ++ toString number ++ ": " ++ fault.message := by
  cases fault with
  | malformed text =>
    calc ((malformed text).onLine number).message
        = "line " ++ toString number ++ (": " ++ "expected 'name value', got '") ++ text ++ "'" := rfl
      _ = "line " ++ toString number ++ ": " ++ ("expected 'name value', got '" ++ text ++ "'") := by
        simp only [String.append_assoc]
  | invalidValue name value =>
    calc ((invalidValue name value).onLine number).message
        = "line " ++ toString number ++ (": " ++ "invalid weight '") ++ value ++ "' for " ++ name := rfl
      _ = "line " ++ toString number ++ ": " ++ ("invalid weight '" ++ value ++ "' for " ++ name) := by
        simp only [String.append_assoc]

theorem onLine_inj {fault other : LineFault} {number k : ℕ}
    (h : fault.onLine number = other.onLine k) : fault = other ∧ number = k := by
  cases fault <;> cases other <;> cases h <;> exact ⟨rfl, rfl⟩

end LineFault

namespace WeightLine

/-- The line has no characters but blanks, or the first other one is `#`. -/
def Silent (line : String) : Prop :=
  ∃ text, Trimmed line.toList text ∧ (text = [] ∨ text.head? = some '#')

/-- Between blanks, the line has a word, which does not begin with `#`, some blanks and another word. -/
structure HasFields (line name value : String) : Prop where
  name_isWord : IsWord name.toList
  value_isWord : IsWord value.toList
  laidOut : ∃ gap, Trimmed line.toList (name.toList ++ gap ++ value.toList) ∧ gap ≠ [] ∧ Blanks gap
  head : name.toList.head? ≠ some '#'

/-- The line has a name and a finite number. -/
def Gives (line name : String) (x : Float) : Prop :=
  ∃ value, HasFields line name value ∧ Decimal.finite? value.toList = some x

/-- The line says nothing, or gives a number to a name. -/
def Usable (line : String) : Prop := Silent line ∨ ∃ name x, Gives line name x

/-- The line has a fault. -/
inductive Faulty (line : String) : LineFault → Prop
  | malformed {text : String} (hsilent : ¬ Silent line)
      (hfields : ∀ name value, ¬ HasFields line name value)
      (htext : Trimmed line.toList text.toList) : Faulty line (.malformed text)
  | invalidValue {name value : String} (hfields : HasFields line name value)
      (hvalue : Decimal.finite? value.toList = none) : Faulty line (.invalidValue name value)

variable {line name value : String} {number : ℕ}

theorem silent_iff :
    Silent line ↔ trim line.toList = [] ∨ (trim line.toList).head? = some '#' := by
  constructor
  · rintro ⟨text, htext, h⟩
    rwa [trim_eq_iff.mpr htext]
  · exact fun h => ⟨_, trim_eq_iff.mp rfl, h⟩

theorem hasFields_iff : HasFields line name value ↔
    ¬ Silent line ∧ words (trim line.toList) = [name.toList, value.toList] := by
  have hbare : Bare (trim line.toList) := (trim_eq_iff.mp rfl).bare
  rw [words_eq_pair_iff hbare, silent_iff]
  constructor
  · rintro ⟨hname, hvalue, ⟨gap, htrimmed, hgap⟩, hhead⟩
    have htrim := trim_eq_iff.mpr htrimmed
    obtain ⟨c, rest, hc⟩ := List.exists_cons_of_ne_nil hname.ne_nil
    refine ⟨?_, hname, hvalue, gap, htrim, hgap⟩
    rw [htrim, hc]
    rw [hc] at hhead
    rintro (h | h)
    · cases h
    · exact hhead h
  · rintro ⟨hspeaks, hname, hvalue, gap, htrim, hgap⟩
    refine ⟨hname, hvalue, ⟨gap, trim_eq_iff.mp htrim, hgap⟩, fun hhead => hspeaks (.inr ?_)⟩
    rw [htrim, List.append_assoc, List.head?_append, hhead]
    rfl

/-- **A line says nothing, gives a number to a name, or has a fault.** -/
theorem silent_or_gives_or_faulty (line : String) :
    Silent line ∨ (∃ name x, Gives line name x) ∨ ∃ fault, Faulty line fault := by
  by_cases hsilent : Silent line
  · exact .inl hsilent
  by_cases hfields : ∃ name value, HasFields line name value
  · obtain ⟨name, value, hfields⟩ := hfields
    cases hvalue : Decimal.finite? value.toList with
    | some x => exact .inr (.inl ⟨name, x, value, hfields, hvalue⟩)
    | none => exact .inr (.inr ⟨_, .invalidValue hfields hvalue⟩)
  · have htext : Trimmed line.toList (String.ofList (trim line.toList)).toList := by
      rw [String.toList_ofList]
      exact trim_eq_iff.mp rfl
    exact .inr (.inr ⟨_, .malformed hsilent (fun name value h => hfields ⟨name, value, h⟩) htext⟩)

open FeatureVector

theorem weightOfLine_of_silent (h : Silent line) : weightOfLine number line = .ok none :=
  if_pos (silent_iff.mp h)

theorem weightOfLine_of_hasFields (h : HasFields line name value) :
    weightOfLine number line = (Decimal.finite? value.toList).elim
      (.error (.invalidValue number name value)) fun x => .ok (some (name, x)) := by
  obtain ⟨hspeaks, hwords⟩ := hasFields_iff.mp h
  rw [weightOfLine, if_neg fun hsilent => hspeaks (silent_iff.mpr hsilent), hwords]
  cases hvalue : Decimal.finite? value.toList with
  | some x => simp [hvalue]
  | none => simp [hvalue]

theorem weightOfLine_of_gives {x : Float} (h : Gives line name x) :
    weightOfLine number line = .ok (some (name, x)) := by
  obtain ⟨value, hfields, hvalue⟩ := h
  rw [weightOfLine_of_hasFields hfields, hvalue, Option.elim_some]

theorem weightOfLine_of_faulty {fault : LineFault} (h : Faulty line fault) :
    weightOfLine number line = .error (fault.onLine number) := by
  cases h with
  | @malformed text hsilent hfields htext =>
    have hwords : ∀ a b, words (trim line.toList) ≠ [a, b] := by
      intro a b h
      refine hfields (String.ofList a) (String.ofList b) (hasFields_iff.mpr ⟨hsilent, ?_⟩)
      rw [String.toList_ofList, String.toList_ofList, h]
    rw [weightOfLine, if_neg fun h => hsilent (silent_iff.mpr h)]
    split
    · next h => exact absurd h (hwords _ _)
    · rw [trim_eq_iff.mpr htext, String.ofList_toList]
      rfl
  | invalidValue hfields hvalue =>
    rw [weightOfLine_of_hasFields hfields, hvalue]
    rfl

/-- What a line gives to a name. -/
def given? (name line : String) : Option Float :=
  match weightOfLine 0 line with
  | .ok (some w) => if w.1 = name then some w.2 else none
  | _ => none

/-- What the last of some lines that gives anything to a name gives to it. -/
def lastGiven? (name : String) (ls : List String) : Option Float := ls.reverse.findSome? (given? name)

theorem given?_of_silent (h : Silent line) : given? name line = none := by
  rw [given?, weightOfLine_of_silent h]

theorem given?_of_gives {other : String} {x : Float} (h : Gives line other x) :
    given? name line = if other = name then some x else none := by
  rw [given?, weightOfLine_of_gives h]

theorem given?_eq_some_iff {x : Float} : given? name line = some x ↔ Gives line name x := by
  constructor
  · intro h
    rcases silent_or_gives_or_faulty line with hsilent | ⟨other, y, hgives⟩ | ⟨fault, hfault⟩
    · rw [given?_of_silent hsilent] at h
      cases h
    · rw [given?_of_gives hgives] at h
      obtain ⟨rfl, hx⟩ := Option.ite_none_right_eq_some.mp h
      cases hx
      exact hgives
    · rw [given?, weightOfLine_of_faulty hfault] at h
      cases h
  · intro h
    rw [given?_of_gives h, if_pos rfl]

theorem given?_eq_none_iff : given? name line = none ↔ ∀ x, ¬ Gives line name x := by
  rw [Option.eq_none_iff_forall_ne_some]
  exact forall_congr' fun x => not_congr given?_eq_some_iff

variable {ls : List String}

theorem lastGiven?_eq_some_iff {x : Float} : lastGiven? name ls = some x ↔
    ∃ front l back, ls = front ++ l :: back ∧ Gives l name x ∧ ∀ k ∈ back, ∀ y, ¬ Gives k name y := by
  rw [lastGiven?, List.findSome?_eq_some_iff]
  constructor
  · rintro ⟨back, l, front, hsplit, hl, hback⟩
    refine ⟨front.reverse, l, back.reverse, ?_, given?_eq_some_iff.mp hl, fun k hk =>
      given?_eq_none_iff.mp (hback k (List.mem_reverse.mp hk))⟩
    rw [← List.reverse_reverse ls, hsplit]
    simp
  · rintro ⟨front, l, back, rfl, hl, hback⟩
    refine ⟨back.reverse, l, front.reverse, by simp, given?_eq_some_iff.mpr hl, fun k hk =>
      given?_eq_none_iff.mpr (hback k (List.mem_reverse.mp hk))⟩

theorem isSome_lastGiven?_iff :
    (lastGiven? name ls).isSome = true ↔ ∃ l ∈ ls, ∃ x, Gives l name x := by
  rw [lastGiven?, List.findSome?_isSome_iff]
  simp only [List.mem_reverse, Option.isSome_iff_exists, given?_eq_some_iff]

theorem lastGiven?_cons (l : String) (ls : List String) :
    lastGiven? name (l :: ls) = (lastGiven? name ls).or (given? name l) := by
  rw [lastGiven?, List.reverse_cons, List.findSome?_append, List.findSome?_singleton]
  rfl

end WeightLine

/-! ## 2. Files -/

namespace FeatureVector

open WeightLine

variable {v : FeatureVector Float} {number : ℕ} {l : String} {ls front back : List String}

theorem addWeightLines_cons_of_silent (h : Silent l) :
    v.addWeightLines number (l :: ls) = v.addWeightLines (number + 1) ls := by
  rw [addWeightLines, weightOfLine_of_silent h]

theorem addWeightLines_cons_of_gives {name : String} {x : Float} (h : Gives l name x) :
    v.addWeightLines number (l :: ls) = (v.set name x).addWeightLines (number + 1) ls := by
  rw [addWeightLines, weightOfLine_of_gives h]

/-- **Lines that can be used give their names new numbers**, each the last one that is given to it. -/
theorem addWeightLines_of_usable (v : FeatureVector Float) (number : ℕ) (h : ∀ l ∈ ls, Usable l) :
    ∃ u, v.addWeightLines number ls = .ok u ∧
      ∀ name, u.get? name = (lastGiven? name ls).or (v.get? name) := by
  induction ls generalizing v number with
  | nil => exact ⟨v, rfl, fun name => rfl⟩
  | cons l ls ih =>
    obtain ⟨hl, hls⟩ := List.forall_mem_cons.mp h
    rcases hl with hsilent | ⟨other, x, hgives⟩
    · obtain ⟨u, hu, hget⟩ := ih v (number + 1) hls
      refine ⟨u, (addWeightLines_cons_of_silent hsilent).trans hu, fun name => ?_⟩
      rw [hget, lastGiven?_cons, given?_of_silent hsilent, Option.or_none]
    · obtain ⟨u, hu, hget⟩ := ih (v.set other x) (number + 1) hls
      refine ⟨u, (addWeightLines_cons_of_gives hgives).trans hu, fun name => ?_⟩
      rw [hget, lastGiven?_cons, given?_of_gives hgives, Option.or_assoc, get?_set]
      by_cases hname : name = other
      · rw [if_pos hname, if_pos hname.symm]
        rfl
      · rw [if_neg hname, if_neg (Ne.symm hname)]
        rfl

/-- **The first line with a fault is the failure**, with its number. -/
theorem addWeightLines_of_faulty {fault : LineFault} (hfront : ∀ k ∈ front, Usable k)
    (hl : Faulty l fault) : v.addWeightLines number (front ++ l :: back) =
      .error (fault.onLine (number + front.length)) := by
  induction front generalizing v number with
  | nil =>
    rw [List.nil_append, addWeightLines, weightOfLine_of_faulty hl]
    rfl
  | cons k front ih =>
    obtain ⟨hk, hfront⟩ := List.forall_mem_cons.mp hfront
    have hnumber : number + (front.length + 1) = number + 1 + front.length := by omega
    rw [List.cons_append, List.length_cons, hnumber]
    rcases hk with hsilent | ⟨other, x, hgives⟩
    · rw [addWeightLines_cons_of_silent hsilent, ih hfront]
    · rw [addWeightLines_cons_of_gives hgives, ih hfront]

/-- All lines can be used, or there is a first one with a fault. -/
theorem usable_or_faulty (ls : List String) :
    (∀ l ∈ ls, Usable l) ∨ ∃ front l back fault, ls = front ++ l :: back ∧
      (∀ k ∈ front, Usable k) ∧ Faulty l fault := by
  induction ls with
  | nil => exact .inl fun l hl => by cases hl
  | cons l ls ih =>
    have hl : Usable l ∨ ∃ fault, Faulty l fault := by
      rw [Usable, or_assoc]
      exact silent_or_gives_or_faulty l
    rcases hl with husable | ⟨fault, hfault⟩
    · rcases ih with hls | ⟨front, k, back, fault, rfl, hfront, hk⟩
      · exact .inl (List.forall_mem_cons.mpr ⟨husable, hls⟩)
      · exact .inr ⟨l :: front, k, back, fault, rfl, List.forall_mem_cons.mpr ⟨husable, hfront⟩, hk⟩
    · exact .inr ⟨[], l, ls, fault, rfl, fun k hk => (List.not_mem_nil hk).elim, hfault⟩

theorem exists_addWeightLines_iff :
    (∃ u, v.addWeightLines number ls = .ok u) ↔ ∀ l ∈ ls, Usable l := by
  constructor
  · rintro ⟨u, hu⟩
    refine (usable_or_faulty ls).resolve_right ?_
    rintro ⟨front, l, back, fault, rfl, hfront, hl⟩
    rw [addWeightLines_of_faulty hfront hl] at hu
    cases hu
  · intro h
    obtain ⟨u, hu, -⟩ := addWeightLines_of_usable v number h
    exact ⟨u, hu⟩

theorem get?_of_addWeightLines {u : FeatureVector Float} (h : v.addWeightLines number ls = .ok u)
    (name : String) : u.get? name = (lastGiven? name ls).or (v.get? name) := by
  obtain ⟨u', hu', hget⟩ := addWeightLines_of_usable v number
    (exists_addWeightLines_iff.mp ⟨u, h⟩)
  cases h.symm.trans hu'
  exact hget name

theorem addWeightLines_eq_error_iff {e : WeightsError} :
    v.addWeightLines number ls = .error e ↔ ∃ front l back fault, ls = front ++ l :: back ∧
      (∀ k ∈ front, Usable k) ∧ Faulty l fault ∧ e = fault.onLine (number + front.length) := by
  constructor
  · intro h
    rcases usable_or_faulty ls with husable | ⟨front, l, back, fault, rfl, hfront, hl⟩
    · obtain ⟨u, hu⟩ := exists_addWeightLines_iff.mpr husable
      cases h.symm.trans hu
    · rw [addWeightLines_of_faulty hfront hl] at h
      cases h
      exact ⟨front, l, back, fault, rfl, hfront, hl, rfl⟩
  · rintro ⟨front, l, back, fault, rfl, hfront, hl, rfl⟩
    exact addWeightLines_of_faulty hfront hl

/-! ## 3. Texts -/

variable {t u : String} {v w : FeatureVector Float}

theorem get?_of_ofText (h : ofText t = .ok v) (name : String) :
    v.get? name = lastGiven? name (linesOf t) := by
  rw [get?_of_addWeightLines h, get?_empty, Option.or_none]

theorem ofText_eq_error_iff {e : WeightsError} :
    ofText t = .error e ↔ ∃ front l back fault, linesOf t = front ++ l :: back ∧
      (∀ k ∈ front, Usable k) ∧ Faulty l fault ∧ e = fault.onLine (front.length + 1) := by
  rw [ofText, addWeightLines_eq_error_iff]
  simp only [Nat.add_comm 1]

theorem silent_empty : Silent "" := silent_iff.mpr (.inl rfl)

/-- A newline at the end spoils no line. -/
theorem usable_terminated (h : ∀ l ∈ linesOf t, Usable l) : ∀ l ∈ linesOf (t ++ "\n"), Usable l := by
  rcases linesOf_terminated t with hlines | hlines
  · rwa [hlines]
  · rw [hlines]
    intro l hl
    rcases List.mem_append.mp hl with hl | hl
    · exact h l hl
    · rw [List.mem_singleton.mp hl]
      exact .inl silent_empty

theorem lastGiven?_append (name : String) (ls ms : List String) :
    lastGiven? name (ls ++ ms) = (lastGiven? name ms).or (lastGiven? name ls) := by
  rw [lastGiven?, List.reverse_append, List.findSome?_append]
  rfl

/-- A newline at the end gives nothing to any name. -/
theorem lastGiven?_terminated (name t : String) :
    lastGiven? name (linesOf (t ++ "\n")) = lastGiven? name (linesOf t) := by
  rcases linesOf_terminated t with hlines | hlines
  · rw [hlines]
  · rw [hlines, lastGiven?_append, lastGiven?_cons, given?_of_silent silent_empty]
    rfl

/-- **Of two texts with a newline between them**, the weights are those of the first with those of the
second in their places. -/
theorem exists_ofText_joined (hv : ofText t = .ok v) (hw : ofText u = .ok w) :
    ∃ both, ofText (t ++ "\n" ++ u) = .ok both ∧
      ∀ name, both.get? name = (w.get? name).or (v.get? name) := by
  have ht := usable_terminated (exists_addWeightLines_iff.mp ⟨v, hv⟩)
  have hu := exists_addWeightLines_iff.mp ⟨w, hw⟩
  have hboth : ∀ l ∈ linesOf (t ++ "\n" ++ u), Usable l := by
    rw [linesOf_joined]
    exact List.forall_mem_append.mpr ⟨ht, hu⟩
  obtain ⟨both, hboth⟩ : ∃ both, ofText (t ++ "\n" ++ u) = .ok both :=
    exists_addWeightLines_iff.mpr hboth
  refine ⟨both, hboth, fun name => ?_⟩
  rw [get?_of_ofText hboth, linesOf_joined, lastGiven?_append, lastGiven?_terminated,
    get?_of_ofText hv, get?_of_ofText hw]

/-- **A fault of the second text is one of both**, on a line that is further on by the newlines in front. -/
theorem ofText_joined_eq_error {fault : LineFault} {number : ℕ} (hv : ofText t = .ok v)
    (hu : ofText u = .error (fault.onLine number)) : ofText (t ++ "\n" ++ u) =
      .error (fault.onLine (number + 1 + t.toList.count '\n')) := by
  have ht := usable_terminated (exists_addWeightLines_iff.mp ⟨v, hv⟩)
  obtain ⟨front, l, back, other, hlines, hfront, hl, he⟩ := ofText_eq_error_iff.mp hu
  obtain ⟨rfl, rfl⟩ := LineFault.onLine_inj he
  have hnumber : front.length + 1 + 1 + t.toList.count '\n' =
      (linesOf (t ++ "\n") ++ front).length + 1 := by
    rw [List.length_append, length_linesOf_terminated]
    omega
  have hjoined : linesOf (t ++ "\n" ++ u) = (linesOf (t ++ "\n") ++ front) ++ l :: back := by
    rw [linesOf_joined, hlines, List.append_assoc]
  rw [hnumber]
  exact ofText_eq_error_iff.mpr
    ⟨_, l, back, fault, hjoined, List.forall_mem_append.mpr ⟨ht, hfront⟩, hl, rfl⟩

/-- **The weights of a text are what its lines say.**  Every line of a text that has weights is silent or
gives a finite number to a name.  Each name that is given one has it, the last if there are several, and no
other name has any.  Any other text is a failure, for the fault of the first line that has one.  The words
for it are those for the fault behind the number of the line, where all lines count, from one on.

Of two texts with a newline between them, the weights are those of the first with those of the second in
their places.  If only the second is a failure, both together are one for the same fault, on a line
that is further on by the newlines of the first text and the one between. -/
theorem weights_of_lines (t : String) :
    ((∃ v, ofText t = .ok v) ↔ ∀ l ∈ linesOf t, Usable l) ∧
    (∀ v, ofText t = .ok v → ∀ name,
      ((v.get? name).isSome = true ↔ ∃ l ∈ linesOf t, ∃ x, Gives l name x) ∧
      ∀ x, v.get? name = some x ↔ ∃ front l back, linesOf t = front ++ l :: back ∧
        Gives l name x ∧ ∀ k ∈ back, ∀ y, ¬ Gives k name y) ∧
    (∀ e, ofText t = .error e ↔ ∃ front l back fault, linesOf t = front ++ l :: back ∧
      (∀ k ∈ front, Usable k) ∧ Faulty l fault ∧ e = fault.onLine (front.length + 1)) ∧
    (∀ (fault : LineFault) (number : ℕ), (fault.onLine number).message =
      "line " ++ toString number ++ ": " ++ fault.message) ∧
    (∀ u v w, ofText t = .ok v → ofText u = .ok w → ∃ both, ofText (t ++ "\n" ++ u) = .ok both ∧
      ∀ name, both.get? name = (w.get? name).or (v.get? name)) ∧
    ∀ (u : String) (v) (fault : LineFault) (number : ℕ), ofText t = .ok v →
      ofText u = .error (fault.onLine number) →
      ofText (t ++ "\n" ++ u) = .error (fault.onLine (number + 1 + t.toList.count '\n')) := by
  refine ⟨exists_addWeightLines_iff, fun v hv name => ?_, fun e => ofText_eq_error_iff,
    LineFault.message_onLine, fun u v w hv hw => exists_ofText_joined hv hw,
    fun u v fault number hv hu => ofText_joined_eq_error hv hu⟩
  rw [get?_of_ofText hv]
  exact ⟨isSome_lastGiven?_iff, fun x => lastGiven?_eq_some_iff⟩

end FeatureVector

namespace Sample

/-- A file with a comment, an empty line and two numbers for `lm`. -/
def repeatedName : String := "# model\nlm 0.5\n\nlm 2\n"

/-- A file with a third number for `lm`. -/
def nameAgain : String := " lm\t-1\nwp 3"

/-- A file without a number on its second line. -/
def unnumbered : String := "wp 1\n lm \nwp x\n"

end Sample

/-- Behind the first file, the number of the second file is the one that counts, and the fault of the third
is five lines further on. -/
theorem FeatureVector.weights_of_lines_behind :
    ∃ v w both, ofText Sample.repeatedName = .ok v ∧ v.get? "lm" = some 2.0 ∧
      ofText Sample.nameAgain = .ok w ∧ ofText (Sample.repeatedName ++ "\n" ++ Sample.nameAgain) = .ok both ∧
      both.get? "lm" = some (-1.0) ∧ ofText Sample.unnumbered = .error (.malformed 2 "lm") ∧
      ofText (Sample.repeatedName ++ "\n" ++ Sample.unnumbered) = .error (.malformed 7 "lm") := by
  have hfirst : (ofText Sample.repeatedName).toOption.bind (·.get? "lm") = some 2.0 := by decide +kernel
  have hsecond : (ofText Sample.nameAgain).toOption.bind (·.get? "lm") = some (-1.0) := by decide +kernel
  have hfault : ofText Sample.unnumbered = .error (.malformed 2 "lm") := by rfl
  obtain ⟨v, hv, hgiven⟩ := Option.bind_eq_some_iff.mp hfirst
  obtain ⟨w, hw, hlast⟩ := Option.bind_eq_some_iff.mp hsecond
  have hv : ofText Sample.repeatedName = .ok v := toOption_eq_some_iff.mp hv
  have hw : ofText Sample.nameAgain = .ok w := toOption_eq_some_iff.mp hw
  obtain ⟨-, -, -, -, hjoined, hbehind⟩ := weights_of_lines Sample.repeatedName
  obtain ⟨both, hboth, hget⟩ := hjoined _ v w hv hw
  refine ⟨v, w, both, hv, hgiven, hw, hboth, ?_, hfault,
    hbehind _ v (.malformed "lm") 2 hv hfault⟩
  rw [hget, hlast]
  rfl

end ForestRescoring
