/-
# The search in any order

A search counts the n-grams of every edge that it scores, and those of the text that it finds, and
goes through the entries of each count.  Here the maps of counts may show their entries in any order,
each of them in a new one.  A search then is a set of outcomes: what it finds or why it fails, for each
choice of the orders.

Two computations are the same if each step is.  The only steps with a choice are the two that make
statistics, and these have one outcome (`Statistics.ofCountsIn_eq`).  So the set of outcomes of each
procedure is the one outcome of the procedure that visits entries in the order of the n-grams, from
the score of an edge up to the best derivation (`Forest.bestIn_eq`).

Main statement: `Forest.best_in_any_order`.
-/
import Mathlib
import ForestRescoring.Proofs.Visiting.Counting
import ForestRescoring.Search

namespace ForestRescoring

open scoped List

/-! ## 1. Steps without a choice -/

section Lift

variable {m n : Type → Type} [Monad m] [Monad n] [MonadLiftT m n] [LawfulMonadLiftT m n] {α β : Type}

theorem mapM_liftM [LawfulMonad m] [LawfulMonad n] (f : α → m β) (as : List α) :
    as.mapM (fun a => (liftM (f a) : n β)) = liftM (as.mapM f) := by
  induction as with
  | nil => simp
  | cons a as ih => simp [ih]

theorem foldlM_liftM (f : β → α → m β) (as : List α) (b : β) :
    as.foldlM (fun b a => (liftM (f b a) : n β)) b = liftM (as.foldlM f b) := by
  induction as generalizing b with
  | nil => simp
  | cons a as ih => simp [ih]

end Lift

/-- What a computation that may fail comes to, when maps of counts are visited in any order. -/
abbrev Outcomes := ExceptT SearchError SetM

variable {K : Type} [Scalar K]

/-! ## 2. Scores -/

/-- The score of an edge, whose n-grams are visited in any order. -/
def Scorer.scoreIn (s : Scorer K) (e : Edge K) (covered : ℕ) : Outcomes (K × Statistics) := do
  let counts ← s.edgeNgrams e
  let own ← Statistics.ofCountsIn (fun g => (s.references.count g).total) counts
  let statistics ← s.gather Statistics.add? Summary.statistics own e.children
  let length ← s.targetLength e
  return (bleu s.smoothing (s.effectiveReference covered) statistics length, statistics)

theorem Scorer.scoreIn_eq (s : Scorer K) (e : Edge K) (covered : ℕ) :
    s.scoreIn e covered = liftM (s.score e covered) := by
  simp [scoreIn, score, Statistics.ofCountsIn_eq]

/-! ## 3. The sweep -/

namespace Search

variable {f : Forest K}

/-- How good an edge is at a vertex, where its n-grams are visited in any order. -/
def candidateIn (o : Objective K) (s : Sweep f) (v : Vertex) (id : EdgeId) :
    Outcomes (Candidate s) :=
  match he : f.edge? id with
  | none => throw (.unknownEdge id)
  | some e =>
    match hscore : modelScore o s e with
    | .error x => throw x
    | .ok score =>
      have visited := Sweep.lt_of_addScores hscore
      match s.scorer with
      | none => return ⟨id, e, score, .zero, he, visited⟩
      | some scorer => do
        let found ← scorer.scoreIn e v.sourceCovered
        return ⟨id, e, score + o.bleuWeight * found.1, found.2, he, visited⟩

section Cases

variable {o : Objective K} {s : Sweep f} {v : Vertex} {id : EdgeId} {e : Edge K}

theorem candidate_of_unknown (h : f.edge? id = none) :
    candidate o s v id = .error (.unknownEdge id) := by
  unfold candidate
  split
  · rfl
  · next e he => cases h.symm.trans he

theorem candidate_of_error {x : SearchError} (he : f.edge? id = some e)
    (hscore : modelScore o s e = .error x) : candidate o s v id = .error x := by
  unfold candidate
  split
  · next hnone => cases he.symm.trans hnone
  · next e' he' =>
    cases he.symm.trans he'
    split
    · next y herror =>
      cases hscore.symm.trans herror
      rfl
    · next total htotal => cases hscore.symm.trans htotal

theorem candidate_of_score {score : K} (he : f.edge? id = some e)
    (hscore : modelScore o s e = .ok score) :
    candidate o s v id = match s.scorer with
      | none => .ok ⟨id, e, score, .zero, he, Sweep.lt_of_addScores hscore⟩
      | some scorer => do
        let found ← scorer.score e v.sourceCovered
        return ⟨id, e, score + o.bleuWeight * found.1, found.2, he,
          Sweep.lt_of_addScores hscore⟩ := by
  unfold candidate
  split
  · next hnone => cases he.symm.trans hnone
  · next e' he' =>
    cases he.symm.trans he'
    split
    · next y herror => cases hscore.symm.trans herror
    · next total htotal =>
      cases hscore.symm.trans htotal
      rfl

end Cases

theorem candidateIn_eq (o : Objective K) (s : Sweep f) (v : Vertex) (id : EdgeId) :
    candidateIn o s v id = liftM (candidate o s v id) := by
  fun_cases candidateIn o s v id with
  | case1 hnone =>
    rw [candidate_of_unknown hnone]
    rfl
  | case2 e he x herror =>
    rw [candidate_of_error he herror]
    rfl
  | case3 e he score hscore visited hnone =>
    rw [candidate_of_score he hscore, hnone]
    rfl
  | case4 e he score hscore visited scorer hsome =>
    rw [candidate_of_score he hscore, hsome]
    simp [Scorer.scoreIn_eq]

/-- Visits the next vertex. -/
def visitIn (o : Objective K) (s : Sweep f) (v : Vertex) : Outcomes (Sweep f) := do
  let candidates ← v.incoming.mapM (candidateIn o s v)
  match winner Candidate.score candidates with
  | none => visitLeaf s
  | some c => settle s c

theorem visitIn_eq (o : Objective K) (s : Sweep f) (v : Vertex) :
    visitIn o s v = liftM (visit o s v) := by
  have hcandidates : v.incoming.mapM (candidateIn o s v) =
      (liftM (v.incoming.mapM (candidate o s v)) : Outcomes _) := by
    rw [← mapM_liftM]
    exact congrArg (v.incoming.mapM ·) (funext (candidateIn_eq o s v))
  rw [visitIn, visit, hcandidates, liftM_bind]
  refine bind_congr fun candidates => ?_
  cases winner Candidate.score candidates with
  | none => rfl
  | some c => rfl

/-- Visits all vertices. -/
def sweepIn (o : Objective K) (references : SentenceReferences) (f : Forest K) :
    Outcomes (Sweep f) :=
  f.vertices.toList.foldlM (visitIn o) (.start o references f)

theorem sweepIn_eq (o : Objective K) (references : SentenceReferences) (f : Forest K) :
    sweepIn o references f = liftM (sweep o references f) := by
  rw [sweepIn, sweep, ← foldlM_liftM]
  exact congrArg (fun step => f.vertices.toList.foldlM step (.start o references f))
    (funext fun s => funext (visitIn_eq o s))

end Search

/-! ## 4. The main result -/

/-- The best derivation of the root, where all counts are visited in any order. -/
def Forest.bestIn (f : Forest K) (o : Objective K) (references : SentenceReferences) :
    Outcomes (Decoding K) :=
  match f.root? with
  | none => throw .emptyForest
  | some root => do
    let s ← Search.sweepIn o references f
    let walked ← s.table.expand (.start root)
    let text := walked.text.toList
    let statistics ← references.statisticsIn text
    return ⟨text, s.table.score root, walked.features, statistics⟩

theorem Forest.bestIn_eq (f : Forest K) (o : Objective K) (references : SentenceReferences) :
    f.bestIn o references = liftM (f.best o references) := by
  rw [bestIn, best]
  cases f.root? with
  | none => rfl
  | some root => simp [Search.sweepIn_eq, SentenceReferences.statisticsIn_eq]

/-- A computation without a choice has one outcome. -/
theorem run_liftM {α : Type} (x : Except SearchError α) :
    (liftM x : Outcomes α).run.run = {x} := rfl

/-- **No order of visits shows.**

* Two orders of the entries of a map give the same statistics, whatever may match, and the same counts
  in an index of references.
* So each of the following has one outcome when maps of counts are visited in any order: the
  statistics of the n-grams that an edge adds, those of a row of words, the references behind one line
  for each sentence and behind any texts, the score of an edge, and the best derivation of a forest
  with its text, score, features and statistics, or the failure of the search.  It is the outcome that
  visits in the order of the n-grams have. -/
theorem Forest.best_in_any_order (r : References) (x : Lexicon) (id : ℕ) :
    (∀ counts : NgramCounts, ∀ a ∈ counts.visits.run, ∀ b ∈ counts.visits.run,
      (∀ limit, Statistics.ofEntries limit a = Statistics.ofEntries limit b) ∧
      ∀ index, SentenceReferences.addEntries index a = SentenceReferences.addEntries index b) ∧
    (∀ counts, (Statistics.ofCountsIn (fun g => ((r.sentence id).count g).total) counts).run =
      {Statistics.ofCounts (fun g => ((r.sentence id).count g).total) counts}) ∧
    (∀ ws, ((r.sentence id).statisticsIn ws).run = {(r.sentence id).statistics ws}) ∧
    (∀ rows, (References.mergeIn r.sentences rows).run = {References.merge r.sentences rows}) ∧
    (∀ texts, (r.addTextsIn x texts).run = {r.addTexts x texts}) ∧
    (∀ (s : Scorer K) (e : Edge K) (covered : ℕ),
      (s.scoreIn e covered).run.run = {s.score e covered}) ∧
    ∀ (f : Forest K) (o : Objective K),
      (f.bestIn o (r.sentence id)).run.run = {f.best o (r.sentence id)} := by
  refine ⟨fun counts a ha b hb => ?_, fun counts => ?_, fun ws => ?_, fun rows => ?_, fun texts => ?_,
    fun s e covered => ?_, fun f o => ?_⟩
  · have hab : a ~ b := List.Perm.trans ha (List.Perm.symm hb)
    exact ⟨fun limit => Statistics.ofEntries_perm limit hab,
      fun index => SentenceReferences.addEntries_perm index hab⟩
  · rw [Statistics.ofCountsIn_eq]
    rfl
  · rw [SentenceReferences.statisticsIn_eq]
    rfl
  · rw [References.mergeIn_eq]
    rfl
  · rw [References.addTextsIn_eq]
    rfl
  · rw [Scorer.scoreIn_eq, run_liftM]
  · rw [Forest.bestIn_eq, run_liftM]

end ForestRescoring
