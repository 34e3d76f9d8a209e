/-
# Scoring under other numbers

A scorer that holds summaries with other numbers gives the same answers: contexts are the contexts
under the new numbers, new n-grams are the new n-grams under them, and the BLEU and the statistics of
an edge, in which words appear no more, are equal (`Scorer.score_renumber`).  It fails where the other
scorer fails, and for the same reason.

So each function of the scorer has one equation here: what it gives for renumbered arguments is what
it gave, renumbered.  Fixing a vertex is no exception (`Scorer.fixEdge_renumber`).
-/
import Mathlib
import ForestRescoring.Scorer
import ForestRescoring.Proofs.Renumbering.Counting

namespace ForestRescoring

variable {K : Type} {ρ : WordId → WordId}

/-! ## 1. Edges and summaries -/

/-- A slot with another number for its word. -/
def Slot.renumber (ρ : WordId → WordId) : Slot → Slot
  | .word w => .word (ρ w)
  | .gap c => .gap c

@[simp] theorem Slot.child?_renumber (ρ : WordId → WordId) (slot : Slot) :
    (slot.renumber ρ).child? = slot.child? := by
  cases slot with
  | word w => rfl
  | gap c => rfl

/-- An edge with other numbers for its words. -/
def Edge.renumber (ρ : WordId → WordId) (e : Edge K) : Edge K :=
  .ofSlots (e.slots.map (Slot.renumber ρ)) e.features

@[simp] theorem Edge.slots_renumber (ρ : WordId → WordId) (e : Edge K) :
    (e.renumber ρ).slots = e.slots.map (Slot.renumber ρ) := slots_ofSlots _ _

@[simp] theorem Edge.features_renumber (ρ : WordId → WordId) (e : Edge K) :
    (e.renumber ρ).features = e.features := features_ofSlots _ _

@[simp] theorem Edge.children_renumber (ρ : WordId → WordId) (e : Edge K) :
    (e.renumber ρ).children = e.children := by
  rw [← filterMap_child?_slots, ← filterMap_child?_slots, slots_renumber, List.filterMap_map]
  exact List.filterMap_congr fun slot _ => slot.child?_renumber ρ

@[simp] theorem Edge.literalCount_renumber (ρ : WordId → WordId) (e : Edge K) :
    (e.renumber ρ).literalCount = e.literalCount := by
  rw [literalCount, literalCount, slots_renumber, List.countP_map]
  refine List.countP_congr fun slot _ => ?_
  rw [Function.comp_apply, slot.child?_renumber]

/-- A summary with other numbers. -/
def Summary.renumber (ρ : WordId → WordId) (found : Summary) : Summary :=
  ⟨found.left.map ρ, found.right.map ρ, found.statistics, found.length⟩

/-- A scorer with other numbers in its summaries. -/
def Scorer.renumber (ρ : WordId → WordId) (s : Scorer K) : Scorer K :=
  { s with summaries := s.summaries.map (Option.map (Summary.renumber ρ)) }

namespace Scorer

/-! ## 2. Reading summaries -/

theorem summary_renumber (ρ : WordId → WordId) (s : Scorer K) (v : VertexId) :
    (s.renumber ρ).summary v = (s.summary v).map (Summary.renumber ρ) := by
  unfold summary renumber
  rw [Array.getElem?_map]
  cases s.summaries[v]? with
  | none => rfl
  | some place =>
    cases place with
    | none => rfl
    | some found => rfl

/-- A context is found word by word. -/
theorem context_renumber {side : Summary → List WordId}
    (hside : ∀ found : Summary, side (found.renumber ρ) = (side found).map ρ) (s : Scorer K)
    (room : ℕ) (slots : List Slot) :
    (s.renumber ρ).context side room (slots.map (Slot.renumber ρ)) =
      (s.context side room slots).map (List.map ρ) := by
  induction slots generalizing room with
  | nil => rfl
  | cons slot slots ih =>
    by_cases h0 : room = 0
    · subst h0
      cases slot with
      | word w => rfl
      | gap c => rfl
    · cases slot with
      | word w =>
        rw [List.map_cons, Slot.renumber, context, context, if_neg h0, if_neg h0]
        simp only [ih]
        cases s.context side (room - 1) slots with
        | error cause => rfl
        | ok later => rfl
      | gap c =>
        rw [List.map_cons, Slot.renumber, context, context, if_neg h0, if_neg h0]
        simp only [summary_renumber]
        cases s.summary c with
        | error cause => rfl
        | ok inner =>
          simp only [Except.map, bind, Except.bind, hside, ← List.map_take, List.length_map, ih]
          cases s.context side (room - ((side inner).take room).length) slots with
          | error cause => rfl
          | ok later => exact congrArg Except.ok List.map_append.symm

theorem leftContext_renumber (ρ : WordId → WordId) (s : Scorer K) (e : Edge K) :
    (s.renumber ρ).leftContext (e.renumber ρ) = (s.leftContext e).map (List.map ρ) := by
  rw [leftContext, leftContext, Edge.slots_renumber]
  exact context_renumber (fun _ => rfl) s contextSize e.slots

theorem rightContext_renumber (ρ : WordId → WordId) (s : Scorer K) (e : Edge K) :
    (s.renumber ρ).rightContext (e.renumber ρ) = (s.rightContext e).map (List.map ρ) := by
  have hside : ∀ found : Summary, (found.renumber ρ).right.reverse = found.right.reverse.map ρ :=
    fun found => List.map_reverse.symm
  rw [rightContext, rightContext, Edge.slots_renumber, ← List.map_reverse, context_renumber hside]
  cases s.context (fun inner => inner.right.reverse) contextSize e.slots.reverse with
  | error cause => rfl
  | ok backwards => exact congrArg Except.ok List.map_reverse.symm

/-- What children bring has nothing to do with the numbers, unless it is words. -/
theorem gather_renumber {α : Type} (add? : α → α → Option α) (part : Summary → α)
    (hpart : ∀ found : Summary, part (found.renumber ρ) = part found) (s : Scorer K) (total : α)
    (children : List VertexId) :
    (s.renumber ρ).gather add? part total children = s.gather add? part total children := by
  induction children generalizing total with
  | nil => rfl
  | cons c children ih =>
    rw [gather, gather, summary_renumber]
    cases s.summary c with
    | error cause => rfl
    | ok inner =>
      simp only [Except.map, bind, Except.bind, hpart]
      cases add? total (part inner) with
      | none => rfl
      | some sum => exact ih sum

theorem targetLength_renumber (ρ : WordId → WordId) (s : Scorer K) (e : Edge K) :
    (s.renumber ρ).targetLength (e.renumber ρ) = s.targetLength e := by
  rw [targetLength, targetLength, Edge.children_renumber, Edge.literalCount_renumber]
  exact gather_renumber _ _ (fun _ => rfl) s e.literalCount e.children

/-! ## 3. Writing summaries -/

/-- **A renumbered summary is written in the same place**, or refused for the same reason. -/
theorem fix_renumber (ρ : WordId → WordId) (s : Scorer K) (v : VertexId) (found : Summary) :
    (s.renumber ρ).fix v (found.renumber ρ) = (s.fix v found).map (renumber ρ) := by
  unfold fix
  have hplace : (s.renumber ρ).summaries[v]? =
      (s.summaries[v]?).map (Option.map (Summary.renumber ρ)) := Array.getElem?_map
  rw [hplace]
  cases s.summaries[v]? with
  | none => rfl
  | some place =>
    cases place with
    | some old => rfl
    | none =>
      simp only [renumber, Except.map, Option.map_some, Option.map_none, Array.map_setIfInBounds]

theorem fixEdge_renumber (ρ : WordId → WordId) (s : Scorer K) (v : VertexId) (e : Edge K)
    (statistics : Statistics) :
    (s.renumber ρ).fixEdge v (e.renumber ρ) statistics =
      (s.fixEdge v e statistics).map (renumber ρ) := by
  rw [fixEdge, fixEdge, leftContext_renumber, rightContext_renumber, targetLength_renumber]
  cases s.leftContext e with
  | error cause => rfl
  | ok left =>
    cases s.rightContext e with
    | error cause => rfl
    | ok right =>
      cases s.targetLength e with
      | error cause => rfl
      | ok length => exact fix_renumber ρ s v ⟨left, right, statistics, length⟩

theorem fixLeaf_renumber (ρ : WordId → WordId) (s : Scorer K) (v : VertexId) :
    (s.renumber ρ).fixLeaf v = (s.fixLeaf v).map (renumber ρ) := fix_renumber ρ s v .empty

/-! ## 4. New n-grams -/

section

variable (hb : ∀ w, (ρ w).isBoundary = w.isBoundary)

include hb

theorem seed_renumber (win : Window) (ws : List WordId) :
    seed (win.renumber ρ) (ws.map ρ) = (seed win ws).renumber ρ := by
  induction ws generalizing win with
  | nil => rfl
  | cons w ws ih =>
    simp only [seed, List.map_cons, List.foldl_cons, hb]
    by_cases hw : w.isBoundary = true
    · rw [if_pos hw, if_pos hw]
      exact ih win
    · rw [if_neg hw, if_neg hw, Window.push_renumber]
      exact ih (win.push w)

theorem crossing_renumber (win : Window) (place : ℕ) (ws : List WordId) :
    crossing (win.renumber ρ) place (ws.map ρ) =
      ((crossing win place ws).1.map (List.map ρ), (crossing win place ws).2.renumber ρ) := by
  induction ws generalizing win place with
  | nil => rfl
  | cons w ws ih =>
    rw [List.map_cons, crossing, crossing, hb]
    by_cases hw : w.isBoundary = true
    · rw [if_pos hw, if_pos hw, ih]
    · have hfilter : ((win.renumber ρ).closing (ρ w)).filter (fun g => place + 1 < g.length) =
          ((win.closing w).filter fun g => place + 1 < g.length).map (List.map ρ) := by
        rw [Window.closing_renumber, List.filter_map]
        refine congrArg (List.map (List.map ρ)) (List.filter_congr fun g _ => ?_)
        rw [Function.comp_apply, List.length_map]
      rw [if_neg hw, if_neg hw, Window.push_renumber, ih, hfilter, List.map_append]

/-- **What is new becomes what is new under the new numbers.** -/
theorem newNgrams_renumber (s : Scorer K) (win : Window) (slots : List Slot) :
    (s.renumber ρ).newNgrams (win.renumber ρ) (slots.map (Slot.renumber ρ)) =
      (s.newNgrams win slots).map (List.map (List.map ρ)) := by
  induction slots generalizing win with
  | nil => rfl
  | cons slot slots ih =>
    rw [List.map_cons]
    cases slot with
    | word w =>
      rw [Slot.renumber, newNgrams, newNgrams, hb]
      by_cases hw : w.isBoundary = true
      · rw [if_pos hw, if_pos hw, ih]
      · rw [if_neg hw, if_neg hw, Window.push_renumber, ih, Window.closing_renumber]
        cases s.newNgrams (win.push w) slots with
        | error cause => rfl
        | ok later => exact congrArg Except.ok List.map_append.symm
    | gap c =>
      rw [Slot.renumber, newNgrams, newNgrams, summary_renumber]
      cases s.summary c with
      | error cause => rfl
      | ok inner =>
        have hbehind : (if (inner.renumber ρ).left.length = contextSize then
              seed .fresh (inner.renumber ρ).right
            else (crossing (win.renumber ρ) 0 (inner.renumber ρ).left).2) =
            (if inner.left.length = contextSize then seed .fresh inner.right
              else (crossing win 0 inner.left).2).renumber ρ := by
          have hfull : (inner.renumber ρ).left.length = inner.left.length := List.length_map ρ
          have hseed := seed_renumber hb .fresh inner.right
          have hcross := crossing_renumber hb win 0 inner.left
          rw [hfull]
          split
          · exact hseed
          · exact congrArg Prod.snd hcross
        have hcrossed : (crossing (win.renumber ρ) 0 (inner.renumber ρ).left).1 =
            (crossing win 0 inner.left).1.map (List.map ρ) :=
          congrArg Prod.fst (crossing_renumber hb win 0 inner.left)
        simp only [Except.map, bind, Except.bind]
        rw [hbehind, hcrossed, ih]
        cases s.newNgrams (if inner.left.length = contextSize then seed .fresh inner.right
            else (crossing win 0 inner.left).2) slots with
        | error cause => rfl
        | ok later => exact congrArg Except.ok List.map_append.symm

end

/-! ## 5. Scores -/

variable [Scalar K]

/-- **The score of an edge does not show the numbers.** -/
theorem score_renumber {s : Scorer K} (h : Renumbering s.references ρ) (e : Edge K) (covered : ℕ) :
    (s.renumber ρ).score (e.renumber ρ) covered = s.score e covered := by
  have hstatistics : ∀ own, (s.renumber ρ).gather Statistics.add? Summary.statistics own e.children =
      s.gather Statistics.add? Summary.statistics own e.children :=
    fun own => gather_renumber _ _ (fun _ => rfl) s own e.children
  rw [score, score, edgeNgrams, edgeNgrams, Edge.slots_renumber, Edge.children_renumber,
    targetLength_renumber]
  have hnew := newNgrams_renumber h.isBoundary s .fresh e.slots
  rw [Window.renumber_fresh] at hnew
  rw [hnew]
  cases s.newNgrams .fresh e.slots with
  | error cause => rfl
  | ok gs =>
    have hown : Statistics.ofCounts (fun g => (s.references.count g).total)
        (.ofList (gs.map (List.map ρ))) =
        Statistics.ofCounts (fun g => (s.references.count g).total) (.ofList gs) :=
      Statistics.ofCounts_map h.injective (fun g => by rw [h.count]) gs
    simp only [Except.map, bind, Except.bind, pure, Except.pure, hstatistics]
    have hreferences : (s.renumber ρ).references = s.references := rfl
    rw [hreferences, hown]
    rfl

end Scorer

end ForestRescoring
