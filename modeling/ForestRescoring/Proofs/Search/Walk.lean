/-
# The walk writes the derivation

The walk from a vertex keeps nothing but a stack, and meets a vertex again each time it is used.
What it writes is the text of the derivation that follows the table, and what it adds up are the
features of that derivation (`Search.Table.turns_unfolds`).  It takes one turn for each word of the
derivation and one for each place where a vertex is used.

The proof goes along the derivation, which is a tree even where the forest shares vertices.
-/
import Mathlib
import ForestRescoring.Search
import ForestRescoring.Proofs.Outcome
import ForestRescoring.Proofs.Search.Assignment

namespace ForestRescoring

variable {K : Type}

/-! ## 1. The size of a derivation -/

mutual

/-- The number of words and vertices in a derivation, at all the places where they are used. -/
def Derivation.size : Derivation K → ℕ
  | .leaf => 1
  | .node _ _ target => target.size + 1

/-- The number of words and vertices in a target side. -/
def Target.size : Target K → ℕ
  | .done => 0
  | .word _ rest => rest.size + 1
  | .part inner rest => inner.size + rest.size

end

namespace Search

namespace Table

variable [Scalar K] {f : Forest K} {t : Table f} {x y z : Expansion K}

/-! ## 2. Turns -/

/-- A number of turns. -/
def turns (t : Table f) : ℕ → Expansion K → Except SearchError (Expansion K)
  | 0, x => .ok x
  | n + 1, x => do
    let y ← t.turn x
    t.turns n y

theorem turns_one (h : t.turn x = .ok y) : t.turns 1 x = .ok y := by
  rw [turns, h]
  rfl

/-- Turns after turns. -/
theorem turns_add {m n : ℕ} (h : t.turns m x = .ok y) : t.turns (m + n) x = t.turns n y := by
  induction m generalizing x with
  | zero =>
    cases h
    rw [Nat.zero_add]
  | succ m ih =>
    obtain ⟨z, hz, h⟩ := bind_eq_ok_iff.mp h
    rw [Nat.succ_add, turns, hz]
    exact ih h

/-- Where the walk is going does not change as it goes. -/
theorem expand_turn (h : t.turn x = .ok y) : t.expand x = t.expand y := by
  by_cases hx : x.stack = []
  · rw [turn, hx] at h
    cases h
    rfl
  · rw [expand, dif_neg hx]
    split
    · next hturn =>
      rw [h] at hturn
      cases hturn
    · next z hturn =>
      rw [h] at hturn
      cases hturn
      rfl

theorem expand_turns {n : ℕ} (h : t.turns n x = .ok y) : t.expand x = t.expand y := by
  induction n generalizing x with
  | zero =>
    cases h
    rfl
  | succ n ih =>
    obtain ⟨z, hz, h⟩ := bind_eq_ok_iff.mp h
    exact (expand_turn hz).trans (ih h)

/-! ## 3. A derivation, turn by turn -/

mutual

/-- **A vertex is written as its derivation**, and the rest of the stack is left as it is. -/
theorem turns_unfolds {v : VertexId} {d : Derivation K} (h : f.Unfolds t.chosen v d)
    (text : Array WordId) (features : FeatureVector K) (rest : List Slot) :
    t.turns d.size ⟨text, features, .gap v :: rest⟩ =
      .ok ⟨text ++ d.yield, d.addFeatures features, rest⟩ := by
  cases h with
  | leaf hv =>
    refine turns_one ?_
    simp [turn, hv, Derivation.yield, Derivation.addFeatures]
  | @node _ id e target hv he ht =>
    have hturn : t.turn ⟨text, features, .gap v :: rest⟩ =
        .ok ⟨text, features.add e.features, e.slots ++ rest⟩ := by
      simp only [turn, hv, he]
    rw [Derivation.size, Nat.add_comm, turns_add (turns_one hturn)]
    exact turns_unfoldsSlots ht text (features.add e.features) rest

/-- Slots are written as the target side that they unfold to. -/
theorem turns_unfoldsSlots {slots : List Slot} {target : Target K}
    (h : f.UnfoldsSlots t.chosen slots target) (text : Array WordId) (features : FeatureVector K)
    (rest : List Slot) :
    t.turns target.size ⟨text, features, slots ++ rest⟩ =
      .ok ⟨text ++ target.yield, target.addFeatures features, rest⟩ := by
  cases h with
  | done => simp [Target.size, turns, Target.yield, Target.addFeatures]
  | @word w slots after h =>
    have hturn : t.turn ⟨text, features, .word w :: (slots ++ rest)⟩ =
        .ok ⟨text.push w, features, slots ++ rest⟩ := rfl
    rw [Target.size, Nat.add_comm, List.cons_append, turns_add (turns_one hturn),
      turns_unfoldsSlots h]
    simp [Target.yield, Target.addFeatures]
  | @part c inner slots after hd h =>
    have hinner := turns_unfolds hd text features (slots ++ rest)
    have htext : text ++ inner.yield ++ after.yield = text ++ (inner.yield ++ after.yield) := by
      apply Array.ext'
      simp
    rw [Target.size, List.cons_append, turns_add hinner, turns_unfoldsSlots h, htext]
    rfl

end

/-- **The walk comes to its end** with the text and the features of the derivation that follows the
table. -/
theorem expand_unfolds {v : VertexId} {d : Derivation K} (h : f.Unfolds t.chosen v d) :
    t.expand (.start v) = .ok ⟨d.yield.toArray, d.features, []⟩ := by
  have hturns := turns_unfolds h #[] .empty []
  rw [Expansion.start, expand_turns hturns, expand, dif_pos rfl]
  simp [Derivation.features]

end Table

end Search

end ForestRescoring
