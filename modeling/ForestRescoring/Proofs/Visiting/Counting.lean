/-
# Counts in any order

The map of the counts of a text has an entry for each n-gram, and what is made of the map goes through
the entries one by one.  In which order is nobody's business: a map may show its entries in a new order
every time.

Such a procedure is written here with a visit: the map gives any of the orders of its entries
(`NgramCounts.visits`), and the procedure has a set of outcomes, one for each choice.  Where the order
does not matter, the set has one element.  That is so for statistics, as the tallies of a length are
added up (`Statistics.ofCountsIn_eq`), and for the index of references, as an entry of the index takes
the largest count and the sum (`SentenceReferences.addIn_eq`, `References.mergeIn_eq`).
-/
import Mathlib
import ForestRescoring.Proofs.Ngram.Matching
import ForestRescoring.References

namespace ForestRescoring

open scoped List

/-! ## 1. Visits -/

namespace NgramCounts

variable {counts : NgramCounts} {α : Type}

/-- The orders in which the entries of a map may be visited, each entry once. -/
def visits (counts : NgramCounts) : SetM (List (Ngram × ℕ)) :=
  ({entries | entries ~ counts.toList} : Set (List (Ngram × ℕ)))

/-- **What every order makes the same has one outcome.** -/
theorem visits_bind {make : List (Ngram × ℕ) → α} (h : ∀ a b, a ~ b → make a = make b) :
    (counts.visits >>= fun entries => pure (make entries)) = pure (make counts.toList) := by
  show (⋃ entries ∈ {entries | entries ~ counts.toList}, ({make entries} : Set α)) =
    {make counts.toList}
  ext made
  simp only [Set.mem_iUnion, Set.mem_ofPred_eq, Set.mem_singleton_iff, exists_prop]
  constructor
  · rintro ⟨entries, hperm, rfl⟩
    exact h _ _ hperm
  · rintro rfl
    exact ⟨counts.toList, List.Perm.refl _, rfl⟩

end NgramCounts

/-! ## 2. Statistics -/

namespace Statistics

variable {a b : List (Ngram × ℕ)}

/-- The order of the entries does not matter. -/
theorem ofEntries_perm (limit : Ngram → ℕ) (h : a ~ b) :
    ofEntries limit a = ofEntries limit b := by
  have htally : ∀ n, 1 ≤ n → n ≤ maxOrder →
      (ofEntries limit a).tally n = (ofEntries limit b).tally n := by
    intro n h1 h4
    have hlength := h.filter fun g => g.1.length = n
    rw [ofEntries, ofEntries, tally_foldl_record h1 h4, tally_foldl_record h1 h4,
      (hlength.map fun g => min g.2 (limit g.1)).sum_eq, (hlength.map fun g => g.2).sum_eq]
  exact Statistics.ext (htally 1 (by decide) (by decide)) (htally 2 (by decide) (by decide))
    (htally 3 (by decide) (by decide)) (htally 4 (by decide) (by decide))

/-- The statistics of counted n-grams, visited in any order. -/
def ofCountsIn (limit : Ngram → ℕ) (counts : NgramCounts) : SetM Statistics := do
  let entries ← counts.visits
  return ofEntries limit entries

theorem ofCountsIn_eq (limit : Ngram → ℕ) (counts : NgramCounts) :
    ofCountsIn limit counts = pure (ofCounts limit counts) :=
  NgramCounts.visits_bind fun _ _ => ofEntries_perm limit

end Statistics

/-! ## 3. References -/

theorem ReferenceCount.add_right_comm (c : ReferenceCount) (m n : ℕ) :
    (c.add m).add n = (c.add n).add m := by
  simp [add, max_right_comm, Nat.add_right_comm]

namespace SentenceReferences

variable {a b : List (Ngram × ℕ)}

/-- **Two entries may change places.**  If they are for one n-gram, it gets both counts; otherwise
neither sees the other. -/
theorem addEntries_swap (index : Std.ExtTreeMap Ngram ReferenceCount) (g h : Ngram × ℕ) :
    addEntries index [g, h] = addEntries index [h, g] := by
  ext k c
  simp only [addEntries, List.foldl_cons, List.foldl_nil, Std.ExtTreeMap.getElem?_alter,
    Std.LawfulEqCmp.compare_eq_iff_eq]
  by_cases hsame : g.1 = h.1
  · rw [hsame]
    by_cases hk : h.1 = k
    · simp [hk, ReferenceCount.add_right_comm]
    · simp [hk]
  · by_cases hg : g.1 = k
    · have hh : h.1 ≠ k := fun hh => hsame (hg.trans hh.symm)
      simp [hg, hh]
    · simp [hg, hsame]

/-- The order of the entries does not matter. -/
theorem addEntries_perm (index : Std.ExtTreeMap Ngram ReferenceCount) (h : a ~ b) :
    addEntries index a = addEntries index b :=
  h.foldl_eq' (fun g _ g' _ index => addEntries_swap index g g') index

/-- One more reference, whose n-grams are visited in any order. -/
def addIn (s : SentenceReferences) (ws : List WordId) : SetM SentenceReferences := do
  let entries ← (countNgrams ws).visits
  return { s.add ws with counts := addEntries s.counts entries }

theorem addIn_eq (s : SentenceReferences) (ws : List WordId) : s.addIn ws = pure (s.add ws) := by
  refine NgramCounts.visits_bind fun a b h => ?_
  rw [addEntries_perm _ h]

/-- The statistics of a complete text, whose n-grams are visited in any order. -/
def statisticsIn (s : SentenceReferences) (ws : List WordId) : SetM Statistics :=
  Statistics.ofCountsIn (fun g => (s.count g).clipped) (countNgrams (ws.filter fun w => !w.isBoundary))

theorem statisticsIn_eq (s : SentenceReferences) (ws : List WordId) :
    s.statisticsIn ws = pure (s.statistics ws) := Statistics.ofCountsIn_eq _ _

end SentenceReferences

namespace References

/-- Adds a line to each sentence in turn, each in any order. -/
def mergeIn : List SentenceReferences → List (List WordId) → SetM (List SentenceReferences)
  | ss, [] => pure ss
  | [], ws :: rest => do
    let s ← SentenceReferences.empty.addIn ws
    let ss ← mergeIn [] rest
    return s :: ss
  | s :: ss, ws :: rest => do
    let s ← s.addIn ws
    let ss ← mergeIn ss rest
    return s :: ss

theorem mergeIn_eq (ss : List SentenceReferences) (rows : List (List WordId)) :
    mergeIn ss rows = pure (merge ss rows) := by
  induction ss, rows using merge.induct with
  | case1 ss => simp [mergeIn, merge]
  | case2 ws rest ih => simp [mergeIn, merge, ih, SentenceReferences.addIn_eq]
  | case3 s ss ws rest ih => simp [mergeIn, merge, ih, SentenceReferences.addIn_eq]

/-- The references that several texts give, line by line, the n-grams of each in any order. -/
def addTextsIn (r : References) (x : Lexicon) : List String → SetM (References × Lexicon)
  | [] => pure (r, x)
  | t :: ts => do
    let read := internLines x (Text.linesOf t)
    let ss ← mergeIn r.sentences read.1
    addTextsIn ⟨ss⟩ read.2 ts

theorem addTextsIn_eq (r : References) (x : Lexicon) (texts : List String) :
    r.addTextsIn x texts = pure (r.addTexts x texts) := by
  induction texts generalizing r x with
  | nil => rfl
  | cons t ts ih => simp [addTextsIn, addTexts, addLines, ih, mergeIn_eq]

end References

end ForestRescoring
