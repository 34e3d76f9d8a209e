/-
# Scores that cannot be compared

Features and weights of a file are finite, and still a score may be none: a product may overflow to
infinity, another one to minus infinity, and the sum of both is NaN.  Such a score is at least as good
as nothing, and nothing is at least as good as it.

A vertex keeps the best of its edges so far, and the next one takes its place if it is at least as
good.  So an edge whose score is NaN never takes the place of another, and never leaves its own.  Behind
the first edge it is passed over, as if it were not there (`Search.winner_cons_of_comparable`).  As the
first edge it wins, whatever follows (`Search.winner_cons_of_not_comparable`).  Whether the edge of a
vertex has a score is hence decided by the first one alone (`Forest.chosen_of_first`), and the order of
the edges matters (`Forest.first_wins_by_overflow`).
-/
import Mathlib
import ForestRescoring.FeatureVector.Weights
import ForestRescoring.Proofs.Search.Chosen
import ForestRescoring.Proofs.Search.Offences

namespace ForestRescoring

namespace Search

/-! ## 1. Winners -/

section Winners

variable {K : Type} [Scalar K] [Scalar.Ordered K] {α : Type} {score : α → K} {b c d : α}

/-- An alternative is at least as good as another only if both can be compared. -/
theorem prefer_of_not_comparable
    (h : ¬ (Scalar.Comparable (score d) ∧ Scalar.Comparable (score b))) :
    prefer score (some b) d = some b := by
  rw [prefer, if_neg]
  intro hge
  exact h (Scalar.Ordered.comparable_of_atLeast hge)

/-- **What cannot be compared stays the best**, once it is. -/
theorem foldl_prefer_of_not_comparable (hb : ¬ Scalar.Comparable (score b)) (cs : List α) :
    cs.foldl (prefer score) (some b) = some b := by
  induction cs with
  | nil => rfl
  | cons d cs ih =>
    rw [List.foldl_cons, prefer_of_not_comparable fun h => hb h.2]
    exact ih

/-- **What cannot be compared is passed over**, where the best so far can be. -/
theorem foldl_prefer_filter (hb : Scalar.Comparable (score b)) (cs : List α) :
    cs.foldl (prefer score) (some b) =
      (cs.filter fun c => Scalar.Comparable (score c)).foldl (prefer score) (some b) := by
  induction cs generalizing b with
  | nil => rfl
  | cons d cs ih =>
    by_cases hd : Scalar.Comparable (score d)
    · rw [List.filter_cons_of_pos (by simpa using hd), List.foldl_cons, List.foldl_cons, prefer]
      split
      · exact ih hd
      · exact ih hb
    · rw [List.filter_cons_of_neg (by simpa using hd), List.foldl_cons,
        prefer_of_not_comparable fun h => hd h.1]
      exact ih hb

theorem winner_cons_of_not_comparable (hc : ¬ Scalar.Comparable (score c)) (cs : List α) :
    winner score (c :: cs) = some c := foldl_prefer_of_not_comparable hc cs

theorem winner_cons_of_comparable (hc : Scalar.Comparable (score c)) (cs : List α) :
    winner score (c :: cs) = winner score ((c :: cs).filter fun d => Scalar.Comparable (score d)) := by
  rw [List.filter_cons_of_pos (by simpa using hc)]
  exact foldl_prefer_filter hc cs

end Winners

/-- **The first alternative decides** whether the winner has a score.  If it has none it wins, and
otherwise the winner is the last of the best among those that have one. -/
theorem winner_of_first {α : Type} {score : α → Float} {c won : α} {cs : List α}
    (h : winner score (c :: cs) = some won) :
    (score won).isNaN = (score c).isNaN ∧ ((score c).isNaN = true → won = c) ∧
      ((score c).isNaN = false →
        IsLastBest score ((c :: cs).filter fun d => !(score d).isNaN) won) := by
  by_cases hc : Scalar.Comparable (score c)
  · have hnumber : (score c).isNaN = false := (Binary.isNaN_eq_false_iff _).mpr hc
    have hkept : (fun d => decide (Scalar.Comparable (score d))) = fun d => !(score d).isNaN := by
      funext d
      rw [Bool.eq_iff_iff, decide_eq_true_iff, Bool.not_eq_true', Binary.isNaN_eq_false_iff]
    rw [winner_cons_of_comparable hc, hkept] at h
    have hwon : (score won).isNaN = false :=
      (Bool.not_eq_true' _).mp (List.mem_filter.mp (mem_of_winner_eq h)).2
    refine ⟨hwon.trans hnumber.symm, fun hnan => absurd (hnan.symm.trans hnumber) (by decide),
      fun _ => isLastBest_of_winner_eq (fun d hd => ?_) h⟩
    exact (Binary.isNaN_eq_false_iff _).mp ((Bool.not_eq_true' _).mp (List.mem_filter.mp hd).2)
  · have hnan : (score c).isNaN = true := by
      rw [← Bool.not_eq_false]
      exact fun hnumber => hc ((Binary.isNaN_eq_false_iff _).mp hnumber)
    rw [winner_cons_of_not_comparable hc] at h
    cases h
    exact ⟨rfl, fun _ => rfl, fun hnumber => absurd (hnan.symm.trans hnumber) (by decide)⟩

end Search

/-! ## 2. The main result -/

/-- **The first edge decides**, without a BLEU term.  In a forest that was read from a file, with any
weights, the edges of a vertex that is no leaf are rated by their own scores and those of their
children in the table, and the table has one of them.

* If the score of the first edge is NaN, the table has that edge.
* Otherwise it has the last of the best among the edges whose score is not NaN.

So the table has a score other than NaN if and only if the first edge has one. -/
theorem Forest.chosen_of_first {x : Lexicon} {bytes : ByteArray} {f : Forest Float}
    (hf : (ForestReading.ofBytes x bytes).outcome = .ok f) {o : Objective Float}
    (hzero : Scalar.isZero o.bleuWeight = true) (references : SentenceReferences) :
    ∃ s : Search.Sweep f, Search.sweep o references f = .ok s ∧
      ∀ v y, f.vertex? v = some y → y.incoming ≠ [] →
        ∃ (first : Search.Rating Float) (rest : List (Search.Rating Float))
          (won : Search.Rating Float),
          List.Forall₂ (fun id r => Search.rate o s y id = some r) y.incoming (first :: rest) ∧
          (∀ r ∈ first :: rest, r.score = Search.edgeScore o.weights s.table.score r.edge) ∧
          won ∈ first :: rest ∧
          s.table.chosen v = some won.id ∧ s.table.score v = won.score ∧
          won.score.isNaN = first.score.isNaN ∧
          (first.score.isNaN = true → won = first) ∧
          (first.score.isNaN = false → Search.IsLastBest Search.Rating.score
            ((first :: rest).filter fun r => !r.score.isNaN) won) := by
  have hup : f.BottomUp := (ForestReading.ofLines_eq_ok_iff.mp ⟨hf, rfl⟩).bottomUp
  obtain ⟨s, hs⟩ : ∃ s, Search.sweep o references f = .ok s :=
    (Search.exists_sweep_iff fun h => h.1 hzero).mpr hup
  obtain ⟨hw, hsize⟩ := Search.swept_of_sweep_eq_ok hs
  have hnone : s.scorer = none := by
    have hscores := hw.scores
    rwa [Search.Scores, if_pos hzero] at hscores
  refine ⟨s, hs, fun v y hy hne => ?_⟩
  obtain ⟨ratings, won, hrated, hwon, hedge, hscore⟩ :=
    (hw.settled_vertex hsize hy).exists_winner hne
  have hscores : ∀ r ∈ ratings, r.score = Search.edgeScore o.weights s.table.score r.edge := by
    intro r hr
    obtain ⟨id, -, hrate⟩ := exists_mem_of_forall₂ hrated hr
    obtain ⟨-, -, hrates⟩ := Search.rate_eq_some_iff.mp hrate
    rw [hnone] at hrates
    exact hrates.1
  have hmem := Search.mem_of_winner_eq hwon
  obtain ⟨first, rest, rfl⟩ := List.exists_cons_of_ne_nil (List.ne_nil_of_mem hmem)
  exact ⟨first, rest, won, hrated, hscores, hmem, hedge, hscore, Search.winner_of_first hwon⟩

/-! ## 3. Two large features -/

namespace Sample

/-- An edge with two large features and an edge without any. -/
def largeFirst : String := "# target ||| features\n1 2\n2\na ||| x=1e200 y=1e200\nb\n"

/-- The same edges in the other order. -/
def largeLast : String := "# target ||| features\n1 2\n2\nb\na ||| x=1e200 y=1e200\n"

/-- Two large weights, one of them negative. -/
def opposed : String := "x 1e200\ny -1e200\n"

/-- The weights of a text without a BLEU term. -/
def modelOnly (weights : String) : Objective Float :=
  ⟨(FeatureVector.ofText weights).toOption.getD .empty, 0.0, 0.01⟩

/-- What the search of a file finds at its first vertex: the vertex, the edge that it chooses, and for
each edge whether its score is NaN. -/
def firstVertex (file : String) (o : Objective Float) :
    Option (Vertex × Option EdgeId × List (Option Bool)) :=
  (ForestReading.ofBytes .empty file.toUTF8).outcome.toOption.bind fun f =>
    (Search.sweep o .empty f).toOption.bind fun s => (f.vertex? 0).map fun x =>
      (x, s.table.chosen 0, x.incoming.map fun id => (Search.rate o s x id).map (·.score.isNaN))

theorem firstVertex_eq_some_iff {file : String} {o : Objective Float} {x : Vertex}
    {chosen : Option EdgeId} {large : List (Option Bool)} :
    firstVertex file o = some (x, chosen, large) ↔ ∃ f s,
      (ForestReading.ofBytes .empty file.toUTF8).outcome = .ok f ∧
      Search.sweep o .empty f = .ok s ∧ f.vertex? 0 = some x ∧ s.table.chosen 0 = chosen ∧
      x.incoming.map (fun id => (Search.rate o s x id).map (·.score.isNaN)) = large := by
  rw [firstVertex, Option.bind_eq_some_iff]
  simp only [Option.bind_eq_some_iff, Option.map_eq_some_iff, toOption_eq_some_iff, Prod.mk.injEq]
  constructor
  · rintro ⟨f, hf, s, hs, y, hy, rfl, hchosen, hlarge⟩
    exact ⟨f, s, hf, hs, hy, hchosen, hlarge⟩
  · rintro ⟨f, s, hf, hs, hy, hchosen, hlarge⟩
    exact ⟨f, hf, s, hs, x, hy, rfl, hchosen, hlarge⟩

end Sample

/-- Where the large edge comes last it is passed over. -/
theorem Forest.chosen_of_first_largeLast :
    ∃ f s won, (ForestReading.ofBytes .empty Sample.largeLast.toUTF8).outcome = .ok f ∧
      Scalar.isZero (Sample.modelOnly Sample.opposed).bleuWeight = true ∧
      Search.sweep (Sample.modelOnly Sample.opposed) .empty f = .ok s ∧
      [0, 1].map (fun id => (Search.rate (Sample.modelOnly Sample.opposed) s ⟨[0, 1], 0⟩ id).map
        (·.score.isNaN)) = [some false, some true] ∧
      s.table.chosen 0 = some 0 ∧ s.table.score 0 = won ∧ won.isNaN = false := by
  obtain ⟨f, s, hf, hs, hy, hchosen, hlarge⟩ := Sample.firstVertex_eq_some_iff.mp
    (show Sample.firstVertex Sample.largeLast (Sample.modelOnly Sample.opposed) =
      some (⟨[0, 1], 0⟩, some 0, [some false, some true]) by decide +kernel)
  have hzero : Scalar.isZero (Sample.modelOnly Sample.opposed).bleuWeight = true := by
    decide +kernel
  obtain ⟨s', hs', hvertices⟩ := Forest.chosen_of_first hf hzero .empty
  cases hs.symm.trans hs'
  obtain ⟨first, rest, won, hrated, -, -, -, hscore, hsame, -⟩ :=
    hvertices 0 ⟨[0, 1], 0⟩ hy (List.cons_ne_nil _ _)
  refine ⟨f, s, won.score, hf, hzero, hs, hlarge, hchosen, hscore, hsame.trans ?_⟩
  obtain ⟨hfirst, -⟩ := List.forall₂_cons.mp hrated
  simpa [hfirst] using (List.cons.inj hlarge).1

/-- **The large edge wins where it comes first**, though the other one has a score. -/
theorem Forest.first_wins_by_overflow :
    ∃ f weights s large other,
      (ForestReading.ofBytes .empty Sample.largeFirst.toUTF8).outcome = .ok f ∧
      FeatureVector.ofText Sample.opposed = .ok weights ∧
      Search.sweep ⟨weights, 0.0, 0.01⟩ .empty f = .ok s ∧
      f.vertex? 0 = some ⟨[0, 1], 0⟩ ∧
      Search.rate ⟨weights, 0.0, 0.01⟩ s ⟨[0, 1], 0⟩ 0 = some large ∧
      Search.rate ⟨weights, 0.0, 0.01⟩ s ⟨[0, 1], 0⟩ 1 = some other ∧
      other.score.isNaN = false ∧ s.table.chosen 0 = some large.id ∧ large.score.isNaN = true := by
  obtain ⟨f, s, hf, hs, hy, hchosen, hlarge⟩ := Sample.firstVertex_eq_some_iff.mp
    (show Sample.firstVertex Sample.largeFirst (Sample.modelOnly Sample.opposed) =
      some (⟨[0, 1], 0⟩, some 0, [some true, some false]) by decide +kernel)
  have hweights : (FeatureVector.ofText Sample.opposed).toOption.isSome = true := by decide +kernel
  obtain ⟨weights, hw⟩ := Option.isSome_iff_exists.mp hweights
  rw [Sample.modelOnly, hw] at hs hlarge
  obtain ⟨hfirst, hrest⟩ := List.cons.inj hlarge
  obtain ⟨large, hl, hnan⟩ := Option.map_eq_some_iff.mp hfirst
  obtain ⟨other, ho, hnumber⟩ := Option.map_eq_some_iff.mp (List.cons.inj hrest).1
  obtain ⟨hid, -⟩ := Search.rate_eq_some_iff.mp hl
  exact ⟨f, weights, s, large, other, hf, toOption_eq_some_iff.mp hw, hs, hy, hl, ho, hnumber,
    hchosen.trans (congrArg some hid.symm), hnan⟩

end ForestRescoring
