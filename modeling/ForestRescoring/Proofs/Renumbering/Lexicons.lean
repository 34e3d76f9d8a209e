/-
# From one lexicon to another

Two lexicons that have grown from one share its numbers, and number what came later each in its own
way.  Then a word of the one becomes the word of the other that has the same token
(`Lexicon.renumbering`).  This keeps words apart, and the numbers of the common beginning stay as they
are; so where the references were read at the beginning, neither they nor the boundaries notice
(`Lexicon.renumbering_spec`).

Forests that say the same in the two lexicons are one forest under two numberings
(`Forest.Alike.eq_renumber`), and a row of words of the one is written like the new row in the other
(`Lexicon.render_renumbering`).
-/
import Mathlib
import ForestRescoring.Proofs.Lexicon.Spelling
import ForestRescoring.Proofs.Lexicon.Stability
import ForestRescoring.Proofs.Renumbering.Reading
import ForestRescoring.Proofs.Renumbering.Search

namespace ForestRescoring

/-! ## 1. Words that stay as they are -/

/-- All n-grams that the references have are made of words with numbers below `n`. -/
def SentenceReferences.Within (references : SentenceReferences) (n : ℕ) : Prop :=
  ∀ g : Ngram, references.count g ≠ .zero → ∀ w ∈ g, w.index < n

section

variable {ρ : WordId → WordId} {n : ℕ} (hinj : Function.Injective ρ)
  (hfix : ∀ w : WordId, w.index < n → ρ w = w)

include hinj hfix

/-- No other word takes a number that stays. -/
theorem index_lt_iff_of_fixed (w : WordId) : (ρ w).index < n ↔ w.index < n := by
  constructor
  · intro h
    have hw : ρ w = w := hinj (hfix (ρ w) h)
    rwa [hw] at h
  · intro h
    rwa [hfix w h]

theorem eq_iff_of_fixed {v : WordId} (hv : v.index < n) (w : WordId) : ρ w = v ↔ w = v := by
  constructor
  · intro h
    exact hinj (h.trans (hfix v hv).symm)
  · rintro rfl
    exact hfix w hv

/-- **References and boundaries do not notice** what becomes of words behind their own. -/
theorem renumbering_of_fixed {references : SentenceReferences} (h2 : 2 ≤ n)
    (hwithin : references.Within n) : Renumbering references ρ where
  injective := hinj
  isBoundary := by
    intro w
    have hstart : (.sentenceStart : WordId).index < n := Nat.lt_of_lt_of_le Nat.zero_lt_two h2
    have hend : (.sentenceEnd : WordId).index < n := Nat.lt_of_lt_of_le Nat.one_lt_two h2
    rw [Bool.eq_iff_iff, WordId.isBoundary, WordId.isBoundary, Bool.or_eq_true, Bool.or_eq_true,
      beq_iff_eq, beq_iff_eq, beq_iff_eq, beq_iff_eq, eq_iff_of_fixed hinj hfix hstart,
      eq_iff_of_fixed hinj hfix hend]
  count := by
    intro g
    by_cases hg : ∀ w ∈ g, w.index < n
    · have hsame : g.map ρ = g :=
        (List.map_congr_left fun w hw => hfix w (hg w hw)).trans (List.map_id' g)
      rw [hsame]
    · have hnone : references.count g = .zero := by
        by_contra hsome
        exact hg (hwithin g hsome)
      rw [hnone]
      by_contra hsome
      refine hg fun w hw => ?_
      rw [← index_lt_iff_of_fixed hinj hfix]
      exact hwithin _ hsome (ρ w) (List.mem_map_of_mem hw)

end

/-! ## 2. Two lexicons -/

namespace Lexicon

variable {base x y : Lexicon} {w v : WordId} {t : String}

/-- The word of `y` that has the token of a word of `x`.  Where there is none, a number that `y` does
not use. -/
def renumbering (x y : Lexicon) (w : WordId) : WordId :=
  match (x.word? w).bind y.idOf? with
  | some v => v
  | none => ⟨y.size + w.index⟩

theorem renumbering_eq (hw : x.word? w = some t) (hv : y.word? v = some t) :
    x.renumbering y w = v := by
  rw [renumbering, hw, Option.bind_some, idOf?_eq_some_iff.mpr hv]

/-- The word has a token, and becomes a word with this token. -/
def Carries (x y : Lexicon) (w : WordId) : Prop :=
  ∃ t, x.word? w = some t ∧ y.word? (x.renumbering y w) = some t

/-- A word is carried over, or becomes a word that is not in use. -/
theorem carries_or (x y : Lexicon) (w : WordId) :
    x.Carries y w ∨ x.renumbering y w = ⟨y.size + w.index⟩ := by
  unfold Carries renumbering
  cases h : (x.word? w).bind y.idOf? with
  | none => exact .inr rfl
  | some v =>
    obtain ⟨t, hw, hv⟩ := Option.bind_eq_some_iff.mp h
    exact .inl ⟨t, hw, idOf?_eq_some_iff.mp hv⟩

theorem Carries.lt_size (h : x.Carries y w) : (x.renumbering y w).index < y.size := by
  obtain ⟨t, -, ht⟩ := h
  exact exists_word?_iff.mp ⟨t, ht⟩

/-- **No two words become one.** -/
theorem renumbering_injective (x y : Lexicon) : Function.Injective (x.renumbering y) := by
  intro w v h
  rcases x.carries_or y w with hw | hw
  · rcases x.carries_or y v with hv | hv
    · obtain ⟨t, hwt, ht⟩ := hw
      obtain ⟨t', hvt, ht'⟩ := hv
      rw [h, ht'] at ht
      cases ht
      exact eq_of_word?_eq hwt hvt
    · have hlt := hw.lt_size
      rw [h, hv] at hlt
      exact absurd hlt (Nat.not_lt.mpr (Nat.le_add_right _ _))
  · rcases x.carries_or y v with hv | hv
    · have hlt := hv.lt_size
      rw [← h, hw] at hlt
      exact absurd hlt (Nat.not_lt.mpr (Nat.le_add_right _ _))
    · rw [hw, hv] at h
      exact congrArg WordId.mk (Nat.add_left_cancel (congrArg WordId.index h))

/-- Words of a common beginning stay as they are. -/
theorem renumbering_of_grows (hx : base.Grows x) (hy : base.Grows y) (hw : w.index < base.size) :
    x.renumbering y w = w := by
  obtain ⟨t, ht⟩ := exists_word?_iff.mpr hw
  exact renumbering_eq (hx w t ht) (hy w t ht)

/-- **Nobody notices** if the boundaries and the words of the references were there at the
beginning. -/
theorem renumbering_spec (hx : base.Grows x) (hy : base.Grows y) (h2 : 2 ≤ base.size)
    {references : SentenceReferences} (hwithin : references.Within base.size) :
    Renumbering references (x.renumbering y) :=
  renumbering_of_fixed (renumbering_injective x y) (fun _ => renumbering_of_grows hx hy) h2 hwithin

/-- A lexicon that began with two boundaries has two words at least. -/
theorem two_le_size {a b : String} (h : a ≠ b) (hg : (withBoundaries a b).Grows x) :
    2 ≤ x.size :=
  exists_word?_iff.mp ⟨b, hg _ _ (word?_sentenceEnd h)⟩

/-- **Rows are written alike.** -/
theorem render_renumbering {ws : List WordId} (h : ∀ w ∈ ws, x.Carries y w) :
    y.render (ws.map (x.renumbering y)) = x.render ws := by
  rw [render, render, List.map_map]
  refine congrArg (" ".intercalate ·) (List.map_congr_left fun w hw => ?_)
  obtain ⟨t, ht, ht'⟩ := h w hw
  rw [Function.comp_apply, wordText, wordText, ht, ht', Option.getD_some, Option.getD_some]

end Lexicon

/-! ## 3. Forests that say the same -/

variable {K : Type} {x y : Lexicon}

theorem Slot.Alike.eq_renumber {s s' : Slot} (h : Slot.Alike x y s s') :
    s' = s.renumber (x.renumbering y) := by
  cases h with
  | word hw hv => rw [renumber, Lexicon.renumbering_eq hw hv]
  | gap c => rfl

theorem Slot.Alike.carries {w : WordId} {s' : Slot} (h : Slot.Alike x y (.word w) s') :
    x.Carries y w := by
  cases h with
  | word hw hv => exact ⟨_, hw, by rw [Lexicon.renumbering_eq hw hv, hv]⟩

theorem Edge.Alike.eq_renumber {e e' : Edge K} (h : Edge.Alike x y e e') :
    e' = e.renumber (x.renumbering y) := by
  have hslots : e'.slots = e.slots.map (Slot.renumber (x.renumbering y)) := by
    rw [← List.map_id e'.slots]
    exact map_eq_of_forall₂ h.slots fun s s' hs => hs.eq_renumber
  refine Edge.eq_of_slots_eq ?_ ?_
  · rw [slots_renumber, hslots]
  · rw [features_renumber, h.features]

variable {f g : Forest K}

/-- **Forests that say the same differ in their numbers only.** -/
theorem Forest.Alike.eq_renumber (h : Forest.Alike x y f g) :
    g = f.renumber (x.renumbering y) := by
  have hedges : g.edges = f.edges.map (Edge.renumber (x.renumbering y)) := by
    apply Array.ext'
    rw [Array.toList_map, ← List.map_id g.edges.toList]
    exact map_eq_of_forall₂ h.edges fun e e' he => he.eq_renumber
  rw [renumber, ← hedges, ← h.vertexCapacity, ← h.edgeCapacity, ← h.vertices]

/-- The words of a forest are carried over. -/
theorem Forest.Alike.carries (h : Forest.Alike x y f g) {id : EdgeId} {e : Edge K}
    (he : f.edge? id = some e) {w : WordId} (hw : .word w ∈ e.slots) : x.Carries y w := by
  have hmem : e ∈ f.edges.toList := Array.mem_toList_iff.mpr (Array.mem_of_getElem? he)
  obtain ⟨e', -, halike⟩ := exists_mem_of_forall₂ h.edges.flip hmem
  obtain ⟨s', -, hs⟩ := exists_mem_of_forall₂ halike.slots.flip hw
  exact hs.carries

end ForestRescoring
