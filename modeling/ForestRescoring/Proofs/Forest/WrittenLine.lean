/-
# Reading an edge back

The line of a proper edge is read as that edge.  Its words are found again because none of them holds
a blank; its fields, because no token and no feature is a field separator; a gap, because no token is
in brackets; a feature's name, because its value holds no equals sign, whatever the name holds.

Main statement: reading the line succeeds with an edge that is what is written and with its
coverage, and enters the tokens from left to right (`EdgeLine.read_line`).
-/
import Mathlib
import ForestRescoring.Proofs.Decimal.Characters
import ForestRescoring.Proofs.Forest.Outline
import ForestRescoring.Proofs.Lexicon.Growth

namespace ForestRescoring

open Text

/-! ## 1. Descriptions and lexicons -/

theorem WrittenSlot.Describes.grow {x y : Lexicon} {s : WrittenSlot} {slot : Slot}
    (h : s.Describes x slot) (hg : x.Grows y) : s.Describes y slot := by
  cases s with
  | word t =>
    cases slot with
    | word w => exact hg w t h
    | gap c => exact h
  | gap c =>
    cases slot with
    | word w => exact h
    | gap d => exact h

theorem WrittenEdge.Describes.grow {x y : Lexicon} {w : WrittenEdge} {e : Edge Float}
    (h : w.Describes x e) (hg : x.Grows y) : w.Describes y e where
  slots := h.slots.imp fun _ _ hs => hs.grow hg
  children := h.children
  features := h.features

/-- Slots that are what is written have the children that are written. -/
theorem WrittenSlot.filterMap_child? {x : Lexicon} {row : List WrittenSlot} {slots : List Slot}
    (h : List.Forall₂ (WrittenSlot.Describes x) row slots) :
    slots.filterMap Slot.child? = row.filterMap WrittenSlot.child? := by
  induction h with
  | nil => rfl
  | @cons s slot row slots hs _ ih =>
    cases s with
    | word t =>
      cases slot with
      | word w => exact ih
      | gap c => exact hs.elim
    | gap c =>
      cases slot with
      | word w => exact hs.elim
      | gap d =>
        cases hs
        exact congrArg (c :: ·) ih

namespace EdgeLine

/-! ## 2. Fields -/

/-- A row without a separator is one field. -/
theorem fields_of_notMem {ts : List (List Char)} (h : fieldSeparator ∉ ts) : fields ts = [ts] := by
  induction ts with
  | nil => rfl
  | cons t ts ih =>
    simp only [List.mem_cons, not_or] at h
    rw [fields, if_neg (Ne.symm h.1), ih h.2]
    rfl

/-- The first separator ends the first field. -/
theorem fields_append_separator {ts : List (List Char)} (h : fieldSeparator ∉ ts)
    (us : List (List Char)) : fields (ts ++ fieldSeparator :: us) = ts :: fields us := by
  induction ts with
  | nil => simp [fields]
  | cons t ts ih =>
    simp only [List.mem_cons, not_or] at h
    rw [List.cons_append, fields, if_neg (Ne.symm h.1), ih h.2]
    rfl

/-! ## 3. Slots -/

theorem bracketed?_brackets (inner : List Char) :
    bracketed? ('[' :: inner ++ [']']) = some inner := by
  simp [bracketed?]

/-- A word that is not in brackets is no gap. -/
theorem bracketed?_eq_none {t : List Char} (h : ¬ WrittenSlot.InBrackets t) :
    bracketed? t = none := by
  unfold bracketed?
  split
  · next rest =>
    split
    · next hlast =>
      obtain ⟨inner, rfl⟩ := List.getLast?_eq_some_iff.mp hlast
      exact absurd ⟨inner, rfl⟩ h
    · rfl
  · rfl

variable {head : VertexId} {x : Lexicon}

/-- **Slots are read back**, and their tokens entered. -/
theorem readSlots_text (hhead : head ≤ countBound) {row : List WrittenSlot}
    (h : ∀ s ∈ row, s.Proper head) :
    ∃ slots, readSlots head x (row.map WrittenSlot.text) =
        (.ok slots, (x.internAll (row.filterMap WrittenSlot.token?)).2) ∧
      List.Forall₂ (WrittenSlot.Describes (x.internAll (row.filterMap WrittenSlot.token?)).2)
        row slots := by
  induction row generalizing x with
  | nil => exact ⟨[], rfl, .nil⟩
  | cons s row ih =>
    have hrow : ∀ s ∈ row, s.Proper head := fun s hs => h s (by simp [hs])
    cases s with
    | word t =>
      obtain ⟨-, -, hbrackets⟩ := h _ List.mem_cons_self
      obtain ⟨slots, hread, hslots⟩ := ih (x := (x.intern t).2) hrow
      refine ⟨.word (x.intern t).1 :: slots, ?_, .cons ?_ hslots⟩
      · simp only [List.map_cons, WrittenSlot.text, readSlots, bracketed?_eq_none hbrackets,
          String.ofList_toList, hread]
        rfl
      · exact (x.intern t).2.grows_internAll _ _ _ (x.word?_intern t)
    | gap c =>
      have hc : c < head := h _ List.mem_cons_self
      have hdigits : digits? (numeral c) = some c := digits?_numeral (Nat.lt_of_lt_of_le hc hhead)
      obtain ⟨slots, hread, hslots⟩ := ih (x := x) hrow
      refine ⟨.gap c :: slots, ?_, .cons rfl hslots⟩
      simp only [List.map_cons, WrittenSlot.text, readSlots, bracketed?_brackets, gap, hdigits,
        if_pos hc, hread]
      rfl

/-! ## 4. Features -/

/-- A value without an equals sign stands behind the last one. -/
theorem splitLastEquals_append (name : List Char) {value : List Char} (h : '=' ∉ value) :
    splitLastEquals (name ++ '=' :: value) = some (name, value) := by
  have hne : ∀ c ∈ value.reverse, (c != '=') = true := by
    intro c hc
    have : c ≠ '=' := fun e => h (e ▸ List.mem_reverse.mp hc)
    simpa using this
  have hreverse : (name ++ '=' :: value).reverse = value.reverse ++ '=' :: name.reverse := by simp
  rw [splitLastEquals, hreverse, List.dropWhile_append_of_pos hne,
    List.takeWhile_append_of_pos hne]
  simp

theorem readFeature_text {p : String × String} {value : Float}
    (h : Decimal.finite? p.2.toList = some value) :
    readFeature (WrittenEdge.featureText p) = .ok (p.1, value) := by
  have hequals : '=' ∉ p.2.toList := fun hmem =>
    (Decimal.not_blank_of_isDecimalChar (Decimal.isDecimalChar_of_finite? h hmem)).2 rfl
  simp [readFeature, WrittenEdge.featureText, splitLastEquals_append _ hequals, h]

/-- **Features are read back**: to those that are there, each name adds its own value. -/
theorem readFeatures_text {ps : List (String × String)} {v : FeatureVector Float}
    (hnames : (ps.map Prod.fst).Nodup)
    (hfinite : ∀ p ∈ ps, (Decimal.finite? p.2.toList).isSome = true) :
    ∃ u, readFeatures v (ps.map WrittenEdge.featureText) = .ok u ∧
      ∀ name value, u.get? name = some value ↔
        (∃ spelling, (name, spelling) ∈ ps ∧ Decimal.finite? spelling.toList = some value) ∨
          (name ∉ ps.map Prod.fst ∧ v.get? name = some value) := by
  induction ps generalizing v with
  | nil => exact ⟨v, rfl, by simp⟩
  | cons p ps ih =>
    obtain ⟨name, spelling⟩ := p
    rw [List.map_cons, List.nodup_cons] at hnames
    obtain ⟨hnew, hnames⟩ := hnames
    obtain ⟨number, hnumber⟩ := Option.isSome_iff_exists.mp (hfinite (name, spelling) (by simp))
    obtain ⟨u, hread, hget⟩ := ih (v := v.set name number) hnames
      fun p hp => hfinite p (by simp [hp])
    refine ⟨u, by simp [readFeatures, readFeature_text hnumber, hread], fun other value => ?_⟩
    have hother : ∀ spelling', (name, spelling') ∉ ps := fun spelling' hmem =>
      hnew (List.mem_map.mpr ⟨_, hmem, rfl⟩)
    rw [hget, FeatureVector.get?_set]
    by_cases he : other = name
    · subst he
      have hnone : other ∉ ps.map Prod.fst := hnew
      simp [hother, hnone, hnumber]
    · simp [he]

/-! ## 5. The whole line -/

theorem readCoverage_numeral (line : List Char) {n : ℕ} (h : n < countBound) :
    readCoverage line [numeral n] = .ok n := by
  simp [readCoverage, count?_numeral h]

end EdgeLine

namespace WrittenEdge

variable {head : ℕ} {w : WrittenEdge}

theorem isWord_text {s : WrittenSlot} (h : s.Proper head) : IsWord s.text := by
  cases s with
  | word t => exact h.1
  | gap c =>
    refine ⟨by simp [WrittenSlot.text], fun d hd => ?_⟩
    simp only [WrittenSlot.text, List.cons_append, List.mem_cons, List.mem_append, List.not_mem_nil,
      or_false] at hd
    rcases hd with rfl | hd | rfl
    · decide
    · exact (isWord_numeral c).unbroken d hd
    · decide

theorem isWord_featureText {p : String × String} {value : Float}
    (hname : Unbroken p.1.toList)
    (hvalue : Decimal.finite? p.2.toList = some value) : IsWord (featureText p) := by
  refine ⟨by simp [featureText], fun c hc => ?_⟩
  simp only [featureText, List.mem_append, List.mem_cons] at hc
  rcases hc with hc | rfl | hc
  · exact hname c hc
  · decide
  · exact (Decimal.not_blank_of_isDecimalChar (Decimal.isDecimalChar_of_finite? hvalue hc)).1

theorem isWord_separator : IsWord EdgeLine.fieldSeparator := by
  refine ⟨by simp [EdgeLine.fieldSeparator], fun c hc => ?_⟩
  have hbar : c = '|' := by simpa [EdgeLine.fieldSeparator] using hc
  rw [hbar]
  decide

/-- The words of a proper edge are words. -/
theorem Proper.isWord (h : w.Proper head) : ∀ t ∈ w.words, IsWord t := by
  intro t ht
  simp only [words, List.mem_append, List.mem_map, List.mem_cons, List.not_mem_nil,
    or_false] at ht
  rcases ht with ⟨s, hs, rfl⟩ | rfl | ⟨p, hp, rfl⟩ | rfl | rfl
  · exact isWord_text (h.slots s hs)
  · exact isWord_separator
  · obtain ⟨value, hvalue⟩ := Option.isSome_iff_exists.mp (h.finite p hp)
    exact isWord_featureText (h.unbroken p hp) hvalue
  · exact isWord_separator
  · exact isWord_numeral _

/-- No token and no gap is a field separator. -/
theorem Proper.separator_notMem_text (h : w.Proper head) :
    EdgeLine.fieldSeparator ∉ w.slots.map WrittenSlot.text := by
  intro hmem
  obtain ⟨s, hs, heq⟩ := List.mem_map.mp hmem
  cases s with
  | word t => exact (h.slots _ hs).2.1 heq
  | gap c => simp [WrittenSlot.text, EdgeLine.fieldSeparator] at heq

/-- A feature has an equals sign. -/
theorem separator_notMem_featureText (ps : List (String × String)) :
    EdgeLine.fieldSeparator ∉ ps.map featureText := by
  intro hmem
  obtain ⟨p, -, heq⟩ := List.mem_map.mp hmem
  have hequals : '=' ∈ featureText p := by simp [featureText]
  rw [heq] at hequals
  revert hequals
  decide

end WrittenEdge

/-- **An edge is read back.** -/
theorem EdgeLine.read_line {head : ℕ} (hhead : head ≤ countBound) {w : WrittenEdge}
    (h : w.Proper head) (x : Lexicon) :
    ∃ e, EdgeLine.read head x w.line = (.ok (e, w.covered), (x.internAll w.tokens).2) ∧
      w.Describes (x.internAll w.tokens).2 e := by
  have hcovered : EdgeLine.fieldSeparator ∉ [numeral w.covered] := by
    intro hmem
    have hbar : '|' ∈ numeral w.covered := by
      rw [← List.mem_singleton.mp hmem]
      decide
    exact absurd (isDigit_of_mem_numeral hbar) (by decide)
  have hfields : EdgeLine.threeFields? (EdgeLine.fields (Text.words w.line)) = some
      (w.slots.map WrittenSlot.text, w.features.map WrittenEdge.featureText,
        [numeral w.covered]) := by
    rw [WrittenEdge.line, words_spaced h.isWord, WrittenEdge.words,
      fields_append_separator h.separator_notMem_text,
      fields_append_separator (WrittenEdge.separator_notMem_featureText _),
      fields_of_notMem hcovered]
    rfl
  obtain ⟨slots, hslots, hdescribes⟩ := EdgeLine.readSlots_text (x := x) hhead h.slots
  obtain ⟨v, hv, hget⟩ := EdgeLine.readFeatures_text (v := .empty) h.names h.finite
  refine ⟨.ofSlots slots v, ?_, ?_, ?_, ?_⟩
  · simp only [EdgeLine.read, hfields, hslots, hv, readCoverage_numeral _ h.covered]
    rfl
  · rwa [Edge.slots_ofSlots]
  · rw [Edge.children_ofSlots]
    exact WrittenSlot.filterMap_child? hdescribes
  · intro name value
    simp [hget]

end ForestRescoring
