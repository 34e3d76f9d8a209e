/-
# Parts of an n-gram

Where an n-gram stands, each part of it stands too: its beginning in the same place, and its end so
many places further on.  A part is found once for each place of the whole, so it stands in at least as
many places (`occurrences_le_of_part`).  An n-gram of more than four words is counted nowhere, so the
same holds of what is counted (`count_ngrams_le_of_part`).

The references keep the larger of two counts for one purpose, and their sum for the other.  Both grow
with the counts, so a part of an n-gram has at least the counts of the whole, however the references
were loaded (`References.Loaded.count_le_of_part`).
-/
import Mathlib
import ForestRescoring.Proofs.Ngram.Occurrences
import ForestRescoring.Proofs.References.Loading

namespace ForestRescoring

/-! ## 1. Places of a part -/

variable {g h : Ngram}

/-- The beginning of an n-gram stands where it does. -/
theorem occurrences_le_of_front (hp : h <+: g) (ws : List WordId) :
    occurrences g ws ≤ occurrences h ws := by
  refine List.countP_mono_left fun i _ hg => ?_
  rw [List.isPrefixOf_iff_prefix] at hg ⊢
  exact hp.trans hg

/-- What follows the first word of an n-gram stands one place further on, which is never the first
place of the row.  So if it stands there too, that is one place more. -/
theorem occurrences_cons_add_le (hne : h ≠ []) (w : WordId) (ws : List WordId) :
    occurrences (w :: h) ws + (if h <+: ws then 1 else 0) ≤ occurrences h ws := by
  induction ws with
  | nil =>
    rw [occurrences_nil, if_neg fun hp => hne (List.prefix_nil.mp hp)]
    exact Nat.zero_le _
  | cons v ws ih =>
    have hnext : (if w :: h <+: v :: ws then 1 else 0) ≤ if h <+: ws then 1 else 0 := by
      by_cases hp : w :: h <+: v :: ws
      · rw [if_pos hp, if_pos (List.cons_prefix_cons.mp hp).2]
      · rw [if_neg hp]
        exact Nat.zero_le _
    rw [occurrences_cons, occurrences_cons]
    omega

/-- The end of an n-gram stands in as many places. -/
theorem occurrences_le_of_end (hne : h ≠ []) (hs : h <:+ g) (ws : List WordId) :
    occurrences g ws ≤ occurrences h ws := by
  obtain ⟨front, rfl⟩ := hs
  induction front with
  | nil => exact Nat.le_refl _
  | cons w front ih =>
    have hrest : front ++ h ≠ [] := List.append_ne_nil_of_right_ne_nil front hne
    have hcons := occurrences_cons_add_le hrest w ws
    rw [List.cons_append]
    omega

/-- **A part of an n-gram stands in as many places**, be it its beginning, its end or between. -/
theorem occurrences_le_of_part (hne : h ≠ []) (hi : h <:+: g) (ws : List WordId) :
    occurrences g ws ≤ occurrences h ws := by
  obtain ⟨front, back, rfl⟩ := hi
  calc occurrences (front ++ h ++ back) ws
      ≤ occurrences (front ++ h) ws := occurrences_le_of_front (List.prefix_append _ _) ws
    _ ≤ occurrences h ws := occurrences_le_of_end hne (List.suffix_append _ _) ws

/-- **A part of an n-gram is counted as often.**  What is too long is not counted at all. -/
theorem count_ngrams_le_of_part (hne : h ≠ []) (hi : h <:+: g) (ws : List WordId) :
    (ngrams ws).count g ≤ (ngrams ws).count h := by
  by_cases hlong : g.length ≤ maxOrder
  · have hh : 1 ≤ h.length := List.length_pos_of_ne_nil hne
    have hle : h.length ≤ g.length := hi.length_le
    rw [count_ngrams (hh.trans hle) hlong, count_ngrams hh (hle.trans hlong)]
    exact occurrences_le_of_part hne hi ws
  · have hnone : g ∉ ngrams ws := fun hg => hlong (length_of_mem_ngramsFrom hg).2
    rw [List.count_eq_zero_of_not_mem hnone]
    exact Nat.zero_le _

/-! ## 2. The main result -/

/-- Both counts are at most the others. -/
structure ReferenceCount.AtMost (b c : ReferenceCount) : Prop where
  clipped : b.clipped ≤ c.clipped
  total : b.total ≤ c.total

/-- One more reference with no fewer occurrences. -/
theorem ReferenceCount.AtMost.add {b c : ReferenceCount} (hbc : b.AtMost c) {m n : ℕ} (hmn : m ≤ n) :
    (b.add m).AtMost (c.add n) :=
  ⟨max_le_max hbc.clipped hmn, Nat.add_le_add hbc.total hmn⟩

namespace References

variable {r : References}

/-- **A part of an n-gram has at least its counts**, in any sentence and however the references were
loaded: it has matches where the n-gram has, clipped or in total. -/
theorem Loaded.count_le_of_part (hr : r.Loaded) (hne : h ≠ []) (hi : h <:+: g) (id : ℕ) :
    ((r.sentence id).count g).clipped ≤ ((r.sentence id).count h).clipped ∧
      ((r.sentence id).count g).total ≤ ((r.sentence id).count h).total := by
  suffices hle : ((r.sentence id).count g).AtMost ((r.sentence id).count h) from
    ⟨hle.clipped, hle.total⟩
  induction hr with
  | empty => exact ⟨Nat.le_refl 0, Nat.le_refl 0⟩
  | @addLines r _ x ls ih =>
    rw [sentence_addLines]
    cases (internLines x ls).1[id]? with
    | none => exact ih
    | some ws =>
      show (((r.sentence id).add ws).count g).AtMost (((r.sentence id).add ws).count h)
      rw [SentenceReferences.count_add, SentenceReferences.count_add]
      exact ih.add (count_ngrams_le_of_part hne hi ws)

/-- Two texts with places that overlap; the second has fewer lines.  The words `a` and `b` get the
numbers behind the boundaries. -/
def ragged : References :=
  (ofTexts (.withBoundaries "<s>" "</s>") ["a b a b a\nc", "b a\n"]).1

/-- In the first sentence, `a b a` stands in two places of one line, and `b a` in two of that and one of
the other.  So the clipped counts are equal and the totals are not. -/
theorem count_le_of_part_ragged :
    ([⟨3⟩, ⟨2⟩] : Ngram) <:+: [⟨2⟩, ⟨3⟩, ⟨2⟩] ∧
    (((ragged.sentence 0).count [⟨2⟩, ⟨3⟩, ⟨2⟩]).clipped ≤
        ((ragged.sentence 0).count [⟨3⟩, ⟨2⟩]).clipped ∧
      ((ragged.sentence 0).count [⟨2⟩, ⟨3⟩, ⟨2⟩]).total ≤
        ((ragged.sentence 0).count [⟨3⟩, ⟨2⟩]).total) ∧
    (ragged.sentence 0).count [⟨2⟩, ⟨3⟩, ⟨2⟩] = ⟨2, 2⟩ ∧
    (ragged.sentence 0).count [⟨3⟩, ⟨2⟩] = ⟨2, 3⟩ := by
  have hragged : ragged.Loaded := Loaded.ofTexts _ _
  have hi : ([⟨3⟩, ⟨2⟩] : Ngram) <:+: [⟨2⟩, ⟨3⟩, ⟨2⟩] := ⟨[⟨2⟩], [], rfl⟩
  refine ⟨hi, hragged.count_le_of_part (List.cons_ne_nil _ _) hi 0, ?_, ?_⟩
  · decide +kernel
  · decide +kernel

end References

end ForestRescoring
