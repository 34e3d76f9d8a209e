/-
# What statistics count

Statistics are made from a tally of n-grams, entry by entry.  For the n-grams of one length they
say how many there are in all (`total_ofCounts`), and how many match: each n-gram as often as it
occurs, but at most as often as its limit allows (`matched_ofCounts`).

Of two rows of n-grams together at most as many match as of each by itself (`matching_append_le`):
a limit that is used up by the first is used once more by the second.
-/
import Mathlib
import ForestRescoring.Ngram.Statistics

namespace ForestRescoring

open scoped List

/-! ## 1. Tallies as sums -/

/-- The n-grams of a length that are in a list. -/
def ofOrder (n : ℕ) (gs : List Ngram) : Finset Ngram := gs.toFinset.filter fun g => g.length = n

theorem mem_ofOrder {n : ℕ} {gs : List Ngram} {g : Ngram} :
    g ∈ ofOrder n gs ↔ g ∈ gs ∧ g.length = n := by
  rw [ofOrder, Finset.mem_filter, List.mem_toFinset]

/-- How many of the n-grams of a length match, where `limit` many of each may. -/
def matching (limit : Ngram → ℕ) (n : ℕ) (gs : List Ngram) : ℕ :=
  ∑ g ∈ ofOrder n gs, min (gs.count g) (limit g)

/-- N-grams that do not occur may be added to the sum. -/
theorem matching_eq_sum {n : ℕ} {gs : List Ngram} {S : Finset Ngram} (limit : Ngram → ℕ)
    (hS : ofOrder n gs ⊆ S) (hn : ∀ g ∈ S, g.length = n) :
    matching limit n gs = ∑ g ∈ S, min (gs.count g) (limit g) := by
  refine Finset.sum_subset hS fun g hg hnot => ?_
  have hnone : g ∉ gs := fun hmem => hnot (mem_ofOrder.mpr ⟨hmem, hn g hg⟩)
  rw [List.count_eq_zero_of_not_mem hnone, Nat.zero_min]

/-- Those of the n-grams of a length that have a property, counted n-gram by n-gram. -/
theorem countP_eq_sum (n : ℕ) (p : Ngram → Prop) [DecidablePred p] (gs : List Ngram) :
    gs.countP (fun g => g.length = n ∧ p g) =
      ∑ g ∈ ofOrder n gs, if p g then gs.count g else 0 := by
  rw [← Finset.sum_filter, List.countP_eq_length_filter, ← List.sum_toFinset_count_eq_length]
  have hset : (gs.filter fun g => g.length = n ∧ p g).toFinset = (ofOrder n gs).filter p := by
    ext g
    simp [ofOrder, and_assoc]
  rw [hset]
  refine Finset.sum_congr rfl fun g hg => ?_
  rw [Finset.mem_filter, mem_ofOrder] at hg
  have hcount : (gs.filter fun g => g.length = n ∧ p g).count g = gs.count g :=
    List.count_filter (p := fun g => g.length = n ∧ p g) (decide_eq_true ⟨hg.1.2, hg.2⟩)
  -- the library's lemma compares n-grams by their decidable equality
  rw [← hcount]
  convert rfl

/-! ## 2. Entries of a tally -/

namespace NgramCounts

/-- The keys of a tally are all different. -/
theorem nodup_keys (counts : NgramCounts) : (counts.toList.map Prod.fst).Nodup := by
  refine List.pairwise_map.mpr (counts.distinct_keys_toList.imp ?_)
  intro a b hab heq
  exact hab (Std.LawfulEqCmp.compare_eq_iff_eq.mpr heq)

/-- An entry of the tally of a list says how often its key is in the list. -/
theorem eq_count_of_mem {gs : List Ngram} {g : Ngram × ℕ} (h : g ∈ (ofList gs).toList) :
    g.2 = gs.count g.1 := by
  have hget : (ofList gs)[g.1]? = some g.2 :=
    Std.ExtTreeMap.mem_toList_iff_getElem?_eq_some.mp h
  rw [← count_ofList, count, Std.ExtTreeMap.getD_eq_getD_getElem?, hget, Option.getD_some]

/-- What is in a list has an entry in its tally. -/
theorem mem_keys_of_mem {gs : List Ngram} {g : Ngram} (h : g ∈ gs) :
    g ∈ (ofList gs).toList.map Prod.fst := by
  have hpos : 0 < (ofList gs).count g := by
    rw [count_ofList]
    exact List.count_pos_iff.mpr h
  rw [count, Std.ExtTreeMap.getD_eq_getD_getElem?] at hpos
  cases hget : (ofList gs)[g]? with
  | none =>
    rw [hget] at hpos
    exact absurd hpos (Nat.lt_irrefl 0)
  | some k =>
    exact List.mem_map.mpr ⟨(g, k), Std.ExtTreeMap.mem_toList_iff_getElem?_eq_some.mpr hget, rfl⟩

/-- **A sum over the entries of a tally is a sum over n-grams.**  The entries of one length, each
with a number that is zero where the n-gram does not occur. -/
theorem sum_entries (n : ℕ) (gs : List Ngram) (f : Ngram → ℕ → ℕ) (hf : ∀ g, f g 0 = 0) :
    (((ofList gs).toList.filter fun g => g.1.length = n).map fun g => f g.1 g.2).sum =
      ∑ g ∈ ofOrder n gs, f g (gs.count g) := by
  have hvals : (((ofList gs).toList.filter fun g => g.1.length = n).map fun g => f g.1 g.2) =
      ((((ofList gs).toList.filter fun g => g.1.length = n).map Prod.fst).map
        fun g => f g (gs.count g)) := by
    rw [List.map_map]
    refine List.map_congr_left fun g hg => ?_
    rw [Function.comp_apply, ← eq_count_of_mem (List.mem_of_mem_filter hg)]
  have hnodup : (((ofList gs).toList.filter fun g => g.1.length = n).map Prod.fst).Nodup :=
    (nodup_keys _).sublist (List.filter_sublist.map _)
  rw [hvals, ← List.sum_toFinset _ hnodup]
  refine (Finset.sum_subset ?_ ?_).symm
  · intro g hg
    obtain ⟨hmem, hlen⟩ := mem_ofOrder.mp hg
    obtain ⟨entry, hentry, rfl⟩ := List.mem_map.mp (mem_keys_of_mem hmem)
    rw [List.mem_toFinset]
    exact List.mem_map.mpr ⟨entry, List.mem_filter.mpr ⟨hentry, decide_eq_true hlen⟩, rfl⟩
  · intro g hg hnot
    obtain ⟨entry, hentry, rfl⟩ := List.mem_map.mp (List.mem_toFinset.mp hg)
    have hlen : entry.1.length = n := by simpa using (List.mem_filter.mp hentry).2
    have hnone : entry.1 ∉ gs := fun hmem => hnot (mem_ofOrder.mpr ⟨hmem, hlen⟩)
    rw [List.count_eq_zero_of_not_mem hnone, hf]

end NgramCounts

/-! ## 3. Statistics of a tally -/

namespace Statistics

theorem matched_add (s t : Statistics) (n : ℕ) :
    (s + t).matched n = s.matched n + t.matched n := by
  rw [matched, tally_add]
  rfl

theorem total_add (s t : Statistics) (n : ℕ) : (s + t).total n = s.total n + t.total n := by
  rw [total, tally_add]
  rfl

theorem matched_zero (n : ℕ) : zero.matched n = 0 := by
  match n with
  | 0 | 1 | 2 | 3 | 4 | _ + 5 => rfl

theorem total_zero (n : ℕ) : zero.total n = 0 := by
  match n with
  | 0 | 1 | 2 | 3 | 4 | _ + 5 => rfl

/-- There are n-grams of one to four words only. -/
theorem tally_eq_zero {n : ℕ} (h : ¬ (1 ≤ n ∧ n ≤ maxOrder)) (s : Statistics) :
    s.tally n = .zero := by
  match n with
  | 0 | _ + 5 => rfl
  | 1 | 2 | 3 | 4 => exact absurd (by decide) h

theorem total_eq_zero {n : ℕ} (h : ¬ (1 ≤ n ∧ n ≤ maxOrder)) (s : Statistics) :
    s.total n = 0 := by
  rw [total, tally_eq_zero h]
  rfl

/-- The tallies are those of the n-grams of one to four words. -/
theorem mem_tallies {s : Statistics} {t : Tally} :
    t ∈ s.tallies ↔ ∃ n, (1 ≤ n ∧ n ≤ maxOrder) ∧ s.tally n = t := by
  constructor
  · intro h
    simp only [tallies, List.mem_cons, List.not_mem_nil, or_false] at h
    rcases h with rfl | rfl | rfl | rfl
    · exact ⟨1, by decide, rfl⟩
    · exact ⟨2, by decide, rfl⟩
    · exact ⟨3, by decide, rfl⟩
    · exact ⟨4, by decide, rfl⟩
  · rintro ⟨n, hn, rfl⟩
    match n with
    | 1 | 2 | 3 | 4 => simp [tallies, tally]
    | 0 | _ + 5 => exact absurd hn (by simp [maxOrder])

/-- The eight numbers are those of the tallies. -/
theorem mem_toList {s : Statistics} {k : ℕ} :
    k ∈ s.toList ↔ ∃ t ∈ s.tallies, k = t.matched ∨ k = t.total := by
  simp [toList]

/-- Machine words hold statistics if they hold each tally. -/
theorem fits_iff {s : Statistics} :
    s.Fits ↔ ∀ n, s.matched n < Text.countBound ∧ s.total n < Text.countBound := by
  constructor
  · intro h n
    by_cases hn : 1 ≤ n ∧ n ≤ maxOrder
    · have hmem : s.tally n ∈ s.tallies := mem_tallies.mpr ⟨n, hn, rfl⟩
      exact ⟨h _ (mem_toList.mpr ⟨_, hmem, .inl rfl⟩), h _ (mem_toList.mpr ⟨_, hmem, .inr rfl⟩)⟩
    · have hbound : 0 < Text.countBound := Nat.pow_pos (by decide)
      rw [matched, total, tally_eq_zero hn]
      exact ⟨hbound, hbound⟩
  · intro h k hk
    obtain ⟨t, ht, hk⟩ := mem_toList.mp hk
    obtain ⟨n, -, rfl⟩ := mem_tallies.mp ht
    rcases hk with rfl | rfl
    · exact (h n).1
    · exact (h n).2

/-- Statistics that fit with others added fit alone. -/
theorem Fits.of_add {s t : Statistics} (h : (s + t).Fits) : s.Fits := by
  rw [fits_iff] at h ⊢
  intro n
  obtain ⟨hmatched, htotal⟩ := h n
  rw [matched_add] at hmatched
  rw [total_add] at htotal
  exact ⟨Nat.lt_of_le_of_lt (Nat.le_add_right _ _) hmatched,
    Nat.lt_of_le_of_lt (Nat.le_add_right _ _) htotal⟩

/-- Statistics that fit with a tally recorded fitted before. -/
theorem Fits.of_record {s : Statistics} {t : Tally} {order : ℕ} (h : (s.record t order).Fits) :
    s.Fits := by
  rw [fits_iff] at h ⊢
  intro n
  obtain ⟨hmatched, htotal⟩ := h n
  have hle : s.matched n ≤ (s.record t order).matched n ∧ s.total n ≤ (s.record t order).total n := by
    unfold matched total
    by_cases hn : n = order
    · subst hn
      by_cases horder : 1 ≤ n ∧ n ≤ maxOrder
      · rw [tally_record_self horder.1 horder.2]
        exact ⟨Nat.le_add_right _ _, Nat.le_add_right _ _⟩
      · rw [tally_eq_zero horder]
        exact ⟨Nat.zero_le _, Nat.zero_le _⟩
    · rw [tally_record_of_ne hn]
      exact ⟨Nat.le_refl _, Nat.le_refl _⟩
  exact ⟨Nat.lt_of_le_of_lt hle.1 hmatched, Nat.lt_of_le_of_lt hle.2 htotal⟩

/-- Statistics are equal if all eight numbers are. -/
theorem eq_of_matched_eq_of_total_eq {s t : Statistics}
    (hm : ∀ n, 1 ≤ n → n ≤ maxOrder → s.matched n = t.matched n)
    (ht : ∀ n, 1 ≤ n → n ≤ maxOrder → s.total n = t.total n) : s = t := by
  have htally : ∀ n, 1 ≤ n → n ≤ maxOrder → s.tally n = t.tally n := by
    intro n h1 h4
    have hmatched := hm n h1 h4
    have htotal := ht n h1 h4
    unfold matched at hmatched
    unfold total at htotal
    cases hs : s.tally n
    cases ht : t.tally n
    rw [hs, ht] at hmatched htotal
    exact congrArg₂ Tally.mk hmatched htotal
  exact Statistics.ext (htally 1 (by decide) (by decide)) (htally 2 (by decide) (by decide))
    (htally 3 (by decide) (by decide)) (htally 4 (by decide) (by decide))

variable {n : ℕ} (h1 : 1 ≤ n) (h4 : n ≤ maxOrder) (limit : Ngram → ℕ)

include h1 h4

/-- Recording entries adds those of each length to the tally of that length. -/
theorem tally_foldl_record (entries : List (Ngram × ℕ)) (s : Statistics) :
    (entries.foldl (fun s g => s.record ⟨min g.2 (limit g.1), g.2⟩ g.1.length) s).tally n =
      s.tally n + ⟨((entries.filter fun g => g.1.length = n).map fun g => min g.2 (limit g.1)).sum,
        ((entries.filter fun g => g.1.length = n).map fun g => g.2).sum⟩ := by
  induction entries generalizing s with
  | nil => rfl
  | cons g entries ih =>
    rw [List.foldl_cons, ih]
    by_cases h : g.1.length = n
    · rw [List.filter_cons_of_pos (by simpa using h), h, tally_record_self h1 h4]
      show Tally.mk _ _ = Tally.mk _ _
      simp only [List.map_cons, List.sum_cons, Tally.mk.injEq]
      exact ⟨Nat.add_assoc _ _ _, Nat.add_assoc _ _ _⟩
    · rw [List.filter_cons_of_neg (by simpa using h), tally_record_of_ne (Ne.symm h)]

/-- **The total is the number of n-grams of the length.** -/
theorem total_ofCounts (gs : List Ngram) :
    (ofCounts limit (.ofList gs)).total n = gs.countP fun g => g.length = n := by
  have hsum := NgramCounts.sum_entries n gs (fun _ k => k) fun _ => rfl
  have hcount := countP_eq_sum n (fun _ => True) gs
  simp only [and_true, if_true] at hcount
  rw [total, ofCounts, ofEntries, tally_foldl_record h1 h4]
  show zero.total n + _ = _
  rw [total_zero, Nat.zero_add, hsum, hcount]

/-- **The matched n-grams are those within the limit.** -/
theorem matched_ofCounts (gs : List Ngram) :
    (ofCounts limit (.ofList gs)).matched n = matching limit n gs := by
  have hsum := NgramCounts.sum_entries n gs (fun g k => min k (limit g)) fun _ => Nat.zero_min _
  rw [matched, ofCounts, ofEntries, tally_foldl_record h1 h4]
  show zero.matched n + _ = _
  rw [matched_zero, Nat.zero_add, hsum, matching]

end Statistics

/-! ## 4. Matching in parts -/

variable {limit limit' : Ngram → ℕ} {n : ℕ}

/-- Matching does not depend on the order. -/
theorem matching_perm {a b : List Ngram} (h : a ~ b) : matching limit n a = matching limit n b := by
  have hset : ofOrder n a = ofOrder n b := by
    rw [ofOrder, ofOrder, List.toFinset_eq_of_perm _ _ h]
  rw [matching, matching, hset]
  exact Finset.sum_congr rfl fun g _ => by rw [h.count_eq]

/-- Nor do statistics. -/
theorem Statistics.ofCounts_perm {a b : List Ngram} (h : a ~ b) :
    ofCounts limit (.ofList a) = ofCounts limit (.ofList b) := by
  refine eq_of_matched_eq_of_total_eq (fun n h1 h4 => ?_) fun n h1 h4 => ?_
  · rw [matched_ofCounts h1 h4, matched_ofCounts h1 h4, matching_perm h]
  · rw [total_ofCounts h1 h4, total_ofCounts h1 h4, h.countP_eq]

/-- The wider the limits, the more matches. -/
theorem matching_mono (h : ∀ g, limit g ≤ limit' g) (gs : List Ngram) :
    matching limit n gs ≤ matching limit' n gs :=
  Finset.sum_le_sum fun g _ => min_le_min_left _ (h g)

/-- **Parts match more than the whole.**  Each part has the limit to itself. -/
theorem matching_append_le (a b : List Ngram) :
    matching limit n (a ++ b) ≤ matching limit n a + matching limit n b := by
  have hlen : ∀ g ∈ ofOrder n (a ++ b), g.length = n := fun g hg => (mem_ofOrder.mp hg).2
  have ha : ofOrder n a ⊆ ofOrder n (a ++ b) := fun g hg =>
    mem_ofOrder.mpr ⟨List.mem_append_left _ (mem_ofOrder.mp hg).1, (mem_ofOrder.mp hg).2⟩
  have hb : ofOrder n b ⊆ ofOrder n (a ++ b) := fun g hg =>
    mem_ofOrder.mpr ⟨List.mem_append_right _ (mem_ofOrder.mp hg).1, (mem_ofOrder.mp hg).2⟩
  rw [matching_eq_sum limit ha hlen, matching_eq_sum limit hb hlen, ← Finset.sum_add_distrib]
  refine Finset.sum_le_sum fun g _ => ?_
  rw [List.count_append]
  omega

/-- Any number of parts match more than the whole. -/
theorem matching_flatMap_le {α : Type} (l : List α) (parts : α → List Ngram) :
    matching limit n (l.flatMap parts) ≤ (l.map fun x => matching limit n (parts x)).sum := by
  induction l with
  | nil => exact Nat.le_refl _
  | cons x l ih =>
    rw [List.flatMap_cons, List.map_cons, List.sum_cons]
    exact (matching_append_le _ _).trans (Nat.add_le_add_left ih _)

/-- No more match than occur with a limit that is not zero. -/
theorem matching_le_countP (limit : Ngram → ℕ) (n : ℕ) (gs : List Ngram) :
    matching limit n gs ≤ gs.countP fun g => g.length = n ∧ limit g ≠ 0 := by
  rw [countP_eq_sum, matching]
  refine Finset.sum_le_sum fun g _ => ?_
  by_cases h : limit g = 0
  · rw [if_neg (not_not.mpr h), h, Nat.min_zero]
  · rw [if_pos h]
    exact Nat.min_le_left _ _

/-- Statistics have no more matches than n-grams, of any length. -/
theorem Statistics.matched_le_total_ofCounts (limit : Ngram → ℕ) (gs : List Ngram) (n : ℕ) :
    (ofCounts limit (.ofList gs)).matched n ≤ (ofCounts limit (.ofList gs)).total n := by
  by_cases h : 1 ≤ n ∧ n ≤ maxOrder
  · obtain ⟨h1, h4⟩ := h
    rw [matched_ofCounts h1 h4, total_ofCounts h1 h4]
    refine (matching_le_countP limit n gs).trans (List.countP_mono_left fun g _ hg => ?_)
    exact decide_eq_true (of_decide_eq_true hg).1
  · match n with
    | 0 | _ + 5 => exact Nat.le_refl 0
    | 1 | 2 | 3 | 4 => exact absurd (by decide) h

/-- Where every n-gram has a limit that lets all its occurrences match, or a limit of zero under
another count too, all that can match does. -/
theorem matching_eq_countP {gs : List Ngram} (hle : ∀ g, limit g ≤ limit' g)
    (h : ∀ g ∈ gs, g.length = n → limit' g = 0 ∨ gs.count g ≤ limit g) :
    matching limit n gs = gs.countP fun g => g.length = n ∧ limit' g ≠ 0 := by
  rw [countP_eq_sum, matching]
  refine Finset.sum_congr rfl fun g hg => ?_
  obtain ⟨hmem, hlen⟩ := mem_ofOrder.mp hg
  rcases h g hmem hlen with hzero | hall
  · have hlimit : limit g = 0 := Nat.le_zero.mp (hzero ▸ hle g)
    rw [if_neg (not_not.mpr hzero), hlimit, Nat.min_zero]
  · have hpos : limit' g ≠ 0 := by
      have hocc : 0 < gs.count g := List.count_pos_iff.mpr hmem
      have hlimit := hle g
      omega
    rw [if_pos hpos, Nat.min_eq_left hall]

end ForestRescoring
