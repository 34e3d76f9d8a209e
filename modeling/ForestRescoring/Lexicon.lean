/-
# The lexicon

A lexicon numbers the tokens of a corpus.  A token gets the next number when it is met first and
keeps it; nothing is ever removed.  A lexicon is kept twice: as an array, in which the token with a
number stands at that position, and as a map in which a token is looked up.  Both are written when a
token is new, and never otherwise.

The two agree (`Lexicon.agree`), and this is what a new token has to preserve (`Lexicon.enter`).  So
looking up a token and looking up a number are inverse (`idOf?_eq_some_iff`), and no later token
disturbs an earlier one (`word?_intern_of_word?`).

Numbers 0 and 1 belong to the two sentence boundaries, which are entered first.  Should both
boundaries be the same token, it is entered once.
-/
import Std.Data.ExtTreeMap.Lemmas

namespace ForestRescoring

/-- The number of a token.  The program keeps it in 32 bits, so it has room for fewer than `2 ^ 32`
tokens; here numbers are not bounded. -/
structure WordId where
  index : Nat
  deriving DecidableEq, Repr

namespace WordId

/-- Words are ordered by their numbers. -/
instance : Ord WordId := ⟨compareOn WordId.index⟩

instance : Std.TransOrd WordId := inferInstanceAs (Std.TransCmp (compareOn WordId.index))

instance : Std.LawfulEqOrd WordId where
  eq_of_compare {a b} h := by
    cases a; cases b; exact congrArg WordId.mk (Nat.compare_eq_eq.1 h)

/-- The boundary in front of a sentence. -/
def sentenceStart : WordId := ⟨0⟩

/-- The boundary behind a sentence. -/
def sentenceEnd : WordId := ⟨1⟩

/-- The word is one of the two boundaries. -/
def isBoundary (w : WordId) : Bool := w == sentenceStart || w == sentenceEnd

/-- How a number is written where no token is known for it. -/
def label (w : WordId) : String := "#" ++ toString w.index

end WordId

/-- Numbered tokens, by number and by token. -/
structure Lexicon where
  /-- The token with a number stands at that position. -/
  tokens : Array String
  /-- The number of each token. -/
  ids : Std.ExtTreeMap String WordId
  agree : ∀ (token : String) (w : WordId), ids[token]? = some w ↔ tokens[w.index]? = some token

namespace Lexicon

/-- No tokens at all. -/
def empty : Lexicon where
  tokens := #[]
  ids := ∅
  agree := by simp

/-- The number of tokens. -/
def size (x : Lexicon) : Nat := x.tokens.size

/-- The number of a token, if it has one. -/
def idOf? (x : Lexicon) (token : String) : Option WordId := x.ids[token]?

/-- The token with a number. -/
def word? (x : Lexicon) (w : WordId) : Option String := x.tokens[w.index]?

/-- **Numbers and tokens are inverse.**  What the map has for a token is where the array has it. -/
theorem idOf?_eq_some_iff {x : Lexicon} {token : String} {w : WordId} :
    x.idOf? token = some w ↔ x.word? w = some token := x.agree token w

/-- Gives a new token the next number. -/
def enter (x : Lexicon) (token : String) (fresh : x.idOf? token = none) : Lexicon where
  tokens := x.tokens.push token
  ids := x.ids.insert token ⟨x.size⟩
  agree := by
    intro t w
    have hold := x.agree t w
    rw [Std.ExtTreeMap.getElem?_insert, Array.getElem?_push]
    by_cases ht : token = t
    · subst ht
      rw [if_pos Std.ReflCmp.compare_self]
      by_cases hw : w.index = x.tokens.size
      · rw [if_pos hw]
        exact iff_of_true (congrArg some (congrArg WordId.mk hw.symm)) rfl
      · rw [if_neg hw, ← hold, show x.ids[token]? = none from fresh]
        refine iff_of_false (fun h => hw ?_) (fun h => by cases h)
        cases h
        rfl
    · rw [if_neg fun h => ht (Std.LawfulEqCmp.eq_of_compare h), hold]
      by_cases hw : w.index = x.tokens.size
      · rw [if_pos hw, hw, Array.getElem?_eq_none (Nat.le_refl _)]
        exact iff_of_false (fun h => by cases h) fun h => ht (Option.some.inj h)
      · rw [if_neg hw]

/-- The number of a token, which it is given now if it had none. -/
def intern (x : Lexicon) (token : String) : WordId × Lexicon :=
  match h : x.idOf? token with
  | some w => (w, x)
  | none => (⟨x.size⟩, x.enter token h)

/-- The numbers of a row of tokens, entered from left to right. -/
def internAll (x : Lexicon) : List String → List WordId × Lexicon
  | [] => ([], x)
  | t :: ts =>
    let first := x.intern t
    let rest := first.2.internAll ts
    (first.1 :: rest.1, rest.2)

/-- A lexicon that holds only the two boundaries. -/
def withBoundaries (sentenceStart sentenceEnd : String) : Lexicon :=
  ((empty.intern sentenceStart).2.intern sentenceEnd).2

/-- The token with a number, or the number itself if there is none. -/
def wordText (x : Lexicon) (w : WordId) : String := (x.word? w).getD w.label

/-- The words with single spaces between them. -/
def render (x : Lexicon) (ws : List WordId) : String := " ".intercalate (ws.map x.wordText)

/-- A token that has a number keeps it, and the lexicon does not change. -/
theorem intern_of_idOf? {x : Lexicon} {token : String} {w : WordId} (h : x.idOf? token = some w) :
    x.intern token = (w, x) := by
  unfold intern
  split
  · next w' h' => rw [h] at h'; cases h'; rfl
  · next h' => rw [h] at h'; cases h'

/-- A new token goes to the end. -/
theorem tokens_intern_of_new {x : Lexicon} {token : String} (h : x.idOf? token = none) :
    (x.intern token).1 = ⟨x.size⟩ ∧ (x.intern token).2.tokens = x.tokens.push token := by
  unfold intern
  split
  · next w' h' => rw [h] at h'; cases h'
  · exact ⟨rfl, rfl⟩

/-- A token has the number that interning gives for it. -/
theorem word?_intern (x : Lexicon) (token : String) :
    (x.intern token).2.word? (x.intern token).1 = some token := by
  cases h : x.idOf? token with
  | some w => rw [intern_of_idOf? h]; exact idOf?_eq_some_iff.1 h
  | none =>
    obtain ⟨hw, ht⟩ := tokens_intern_of_new h
    rw [word?, hw, ht]
    exact Array.getElem?_push_size

/-- **Numbers are stable.**  Whatever is interned later, a number keeps its token. -/
theorem word?_intern_of_word? {x : Lexicon} {w : WordId} {t : String} (hw : x.word? w = some t)
    (token : String) : (x.intern token).2.word? w = some t := by
  cases h : x.idOf? token with
  | some v => rw [intern_of_idOf? h]; exact hw
  | none =>
    rw [word?, (tokens_intern_of_new h).2]
    obtain ⟨hlt, he⟩ := Array.getElem?_eq_some_iff.1 hw
    rw [Array.getElem?_push_lt hlt, he]

end Lexicon

end ForestRescoring
