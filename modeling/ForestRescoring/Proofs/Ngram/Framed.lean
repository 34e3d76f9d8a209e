/-
# Sentence boundaries in a text

Boundaries are no words of a text: what is counted is its content, the row without them.  A text
whose boundaries stand in front of all its content and behind all of it is framed, as a whole
sentence is, and so is every part of a framed text (`Framed.part`).

Framed texts are what the scorer counts right, for the sake of two facts.  Behind a row that has
content, a part of the text is content and then boundaries (`Framed.content_then_boundaries`);
in front of a row that has content, it is boundaries and then content
(`Framed.boundaries_then_content`).
-/
import Mathlib
import ForestRescoring.Lexicon

namespace ForestRescoring

/-- The words of a row that are no boundaries. -/
def content (ws : List WordId) : List WordId := ws.filter fun w => !w.isBoundary

@[simp] theorem content_nil : content [] = [] := rfl

@[simp] theorem content_append (a b : List WordId) : content (a ++ b) = content a ++ content b :=
  List.filter_append a b

/-- A boundary is dropped. -/
theorem content_cons_of_boundary {w : WordId} (h : w.isBoundary = true) (ws : List WordId) :
    content (w :: ws) = content ws := by
  simp [content, h]

/-- Any other word is kept. -/
theorem content_cons_of_word {w : WordId} (h : ¬ w.isBoundary = true) (ws : List WordId) :
    content (w :: ws) = w :: content ws := by
  simp [content, h]

/-- Boundaries are dropped once. -/
theorem content_content (ws : List WordId) : content (content ws) = content ws := by
  simp [content]

/-- A row without content holds boundaries only. -/
theorem content_eq_nil_iff {ws : List WordId} :
    content ws = [] ↔ ∀ w ∈ ws, w.isBoundary = true := by
  simp [content]

/-- A row that is its own content holds no boundary. -/
theorem content_eq_self_iff {ws : List WordId} :
    content ws = ws ↔ ∀ w ∈ ws, ¬ w.isBoundary = true := by
  simp [content]

/-- A row up to its first boundary, and the rest. -/
theorem exists_first_boundary (ws : List WordId) :
    content ws = ws ∨ ∃ l s r, ws = l ++ s :: r ∧ content l = l ∧ s.isBoundary = true := by
  induction ws with
  | nil => exact Or.inl rfl
  | cons w ws ih =>
    by_cases hw : w.isBoundary = true
    · exact Or.inr ⟨[], w, ws, rfl, rfl, hw⟩
    · rcases ih with ih | ⟨l, s, r, hws, hl, hs⟩
      · exact Or.inl (by rw [content_cons_of_word hw, ih])
      · exact Or.inr ⟨w :: l, s, r, by rw [hws, List.cons_append],
          by rw [content_cons_of_word hw, hl], hs⟩

/-- A row up to its last boundary, and the rest. -/
theorem exists_last_boundary (ws : List WordId) :
    content ws = ws ∨ ∃ l s r, ws = l ++ s :: r ∧ content r = r ∧ s.isBoundary = true := by
  induction ws with
  | nil => exact Or.inl rfl
  | cons w ws ih =>
    rcases ih with ih | ⟨l, s, r, hws, hr, hs⟩
    · by_cases hw : w.isBoundary = true
      · exact Or.inr ⟨[], w, ws, rfl, ih, hw⟩
      · exact Or.inl (by rw [content_cons_of_word hw, ih])
    · exact Or.inr ⟨w :: l, s, r, by rw [hws, List.cons_append], hr, hs⟩

/-- No boundary of the text has content on both sides: boundaries are found in front of the content
and behind it, but not within. -/
def Framed (ws : List WordId) : Prop :=
  ∀ l s r, ws = l ++ s :: r → s.isBoundary = true → content l = [] ∨ content r = []

/-- Only the places of the boundaries have to be looked at. -/
theorem framed_iff {ws : List WordId} :
    Framed ws ↔ ∀ i (h : i < ws.length), ws[i].isBoundary = true →
      content (ws.take i) = [] ∨ content (ws.drop (i + 1)) = [] := by
  constructor
  · intro hf i hi hs
    refine hf _ ws[i] _ ?_ hs
    rw [List.getElem_cons_drop, List.take_append_drop]
  · rintro h l s r rfl hs
    have hboth := h l.length (by simp) (by simpa using hs)
    simpa using hboth

instance : DecidablePred Framed := fun _ => decidable_of_iff _ framed_iff.symm

namespace Framed

/-- **Parts of framed texts are framed.** -/
theorem part {p q t : List WordId} (h : Framed (p ++ q ++ t)) : Framed q := by
  intro l s r hq hs
  have hall : p ++ q ++ t = (p ++ l) ++ s :: (r ++ t) := by simp [hq]
  rcases h (p ++ l) s (r ++ t) hall hs with hl | hr
  · exact Or.inl (List.append_eq_nil_iff.mp (content_append p l ▸ hl)).2
  · exact Or.inr (List.append_eq_nil_iff.mp (content_append r t ▸ hr)).1

/-- A part in front is framed. -/
theorem left {p q : List WordId} (h : Framed (p ++ q)) : Framed p :=
  part (p := []) (t := q) (by simpa using h)

/-- A part behind is framed. -/
theorem right {p q : List WordId} (h : Framed (p ++ q)) : Framed q :=
  part (p := p) (t := []) (by simpa using h)

/-- **Behind content comes content, and then boundaries.** -/
theorem content_then_boundaries {p q : List WordId} (h : Framed (p ++ q)) (hp : content p ≠ []) :
    ∃ l b, q = l ++ b ∧ content l = l ∧ content b = [] := by
  rcases exists_first_boundary q with hq | ⟨l, s, r, hq, hl, hs⟩
  · exact ⟨q, [], (List.append_nil q).symm, hq, rfl⟩
  · refine ⟨l, s :: r, hq, hl, ?_⟩
    have hall : p ++ q = (p ++ l) ++ s :: r := by rw [hq, List.append_assoc]
    rcases h (p ++ l) s r hall hs with hpl | hr
    · exact absurd (List.append_eq_nil_iff.mp (content_append p l ▸ hpl)).1 hp
    · rw [content_cons_of_boundary hs, hr]

/-- **In front of content there are boundaries, and then content.** -/
theorem boundaries_then_content {q t : List WordId} (h : Framed (q ++ t)) (ht : content t ≠ []) :
    ∃ a l, q = a ++ l ∧ content a = [] ∧ content l = l := by
  rcases exists_last_boundary q with hq | ⟨a, s, l, hq, hl, hs⟩
  · exact ⟨[], q, rfl, rfl, hq⟩
  · refine ⟨a ++ [s], l, by simp [hq], ?_, hl⟩
    have hall : q ++ t = a ++ s :: (l ++ t) := by rw [hq, List.append_assoc, List.cons_append]
    rcases h a s (l ++ t) hall hs with ha | hlt
    · rw [content_append, ha, content_cons_of_boundary hs, content_nil, List.append_nil]
    · exact absurd (List.append_eq_nil_iff.mp (content_append l t ▸ hlt)).2 ht

end Framed

end ForestRescoring
