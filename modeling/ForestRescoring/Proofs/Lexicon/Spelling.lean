/-
# Rows of words and their tokens

A row of words is written down by the tokens of the words (`Lexicon.Spells`).  Entering a row of
tokens gives words that spell it, and whatever is entered later, they still do.  A row has one
spelling, and in one lexicon a row of tokens is spelled by one row of words, so entering what is
spelled already gives the words back and adds nothing (`Lexicon.Spells.internAll_eq`).

Main statement: a row that spells tokens without blanks can be written with single spaces and read
back (`Lexicon.Spells.internAll_render`).
-/
import Mathlib
import ForestRescoring.Proofs.Lexicon.Growth
import ForestRescoring.Proofs.Outcome
import ForestRescoring.Proofs.Text.Written

namespace ForestRescoring.Lexicon

variable {x y : Lexicon} {ws us : List WordId} {ts : List String} {w v : WordId} {t : String}

/-! ## 1. Single words -/

/-- Two words with one token are one word. -/
theorem eq_of_word?_eq (hw : x.word? w = some t) (hv : x.word? v = some t) : w = v := by
  rw [← idOf?_eq_some_iff] at hw hv
  exact Option.some.inj (hw.symm.trans hv)

/-- The words with tokens are those with numbers below the size. -/
theorem exists_word?_iff : (∃ t, x.word? w = some t) ↔ w.index < x.size := by
  rw [word?, size]
  constructor
  · rintro ⟨t, ht⟩
    exact (Array.getElem?_eq_some_iff.mp ht).1
  · intro h
    exact ⟨_, Array.getElem?_eq_getElem h⟩

/-- The tokens with numbers are those that are stored. -/
theorem exists_idOf?_iff : (∃ w, x.idOf? t = some w) ↔ t ∈ x.tokens.toList := by
  rw [← Option.isSome_iff_exists, Option.isSome_iff_ne_none, ne_eq, idOf?_eq_none_iff, not_not]

theorem mem_of_word? (h : x.word? w = some t) : t ∈ x.tokens.toList :=
  exists_idOf?_iff.mp ⟨w, idOf?_eq_some_iff.mpr h⟩

/-- A token that has a number in a lexicon that grows has it there too. -/
theorem Grows.idOf? (h : x.Grows y) (hw : x.idOf? t = some w) : y.idOf? t = some w :=
  idOf?_eq_some_iff.mpr (h w t (idOf?_eq_some_iff.mp hw))

/-! ## 2. Rows -/

/-- The words have these tokens, in this order. -/
def Spells (x : Lexicon) (ws : List WordId) (ts : List String) : Prop :=
  List.Forall₂ (fun w t => x.word? w = some t) ws ts

theorem Spells.grow (h : x.Spells ws ts) (hg : x.Grows y) : y.Spells ws ts :=
  List.Forall₂.imp hg h

theorem Spells.length_eq (h : x.Spells ws ts) : ws.length = ts.length := List.Forall₂.length_eq h

/-- What is entered is spelled by the words that it gives. -/
theorem spells_internAll (x : Lexicon) (ts : List String) :
    (x.internAll ts).2.Spells (x.internAll ts).1 ts := by
  induction ts generalizing x with
  | nil => exact .nil
  | cons t ts ih =>
    exact .cons (grows_internAll _ ts _ _ (x.word?_intern t)) (ih (x.intern t).2)

/-- **What is spelled already adds nothing.** -/
theorem Spells.internAll_eq (h : x.Spells ws ts) : x.internAll ts = (ws, x) := by
  induction h with
  | nil => rfl
  | @cons w t ws ts hw _ ih => rw [internAll, intern_of_idOf? (idOf?_eq_some_iff.mpr hw), ih]

/-- One row of words spells a row of tokens. -/
theorem Spells.eq (h : x.Spells ws ts) (hu : x.Spells us ts) : ws = us :=
  congrArg Prod.fst (h.internAll_eq.symm.trans hu.internAll_eq)

/-- A row of words spells one row of tokens. -/
theorem Spells.tokens_eq {us : List String} (h : x.Spells ws ts) (hu : x.Spells ws us) : ts = us := by
  induction h generalizing us with
  | nil => exact (List.forall₂_nil_left_iff.mp hu).symm
  | cons hw _ ih =>
    obtain ⟨u, us, hfirst, hrest, rfl⟩ := List.forall₂_cons_left_iff.mp hu
    rw [Option.some.inj (hw.symm.trans hfirst), ih hrest]

/-- Every row of words with tokens spells something. -/
theorem exists_spells_iff : (∃ ts, x.Spells ws ts) ↔ ∀ w ∈ ws, w.index < x.size :=
  exists_forall₂_iff.trans (forall₂_congr fun _ _ => exists_word?_iff)

/-! ## 3. Writing and reading back -/

/-- A row of words is written as what it spells. -/
theorem Spells.render_eq (h : x.Spells ws ts) : x.render ws = " ".intercalate ts := by
  have htexts : ws.map x.wordText = ts := by
    have hid := map_eq_of_forall₂ (g := id) h fun w t hw => show t = x.wordText w by
      rw [wordText, hw, Option.getD_some]
    rw [← hid, List.map_id]
  rw [render, htexts]

/-- **A row of words is read back from what is written.** -/
theorem Spells.internAll_render (h : x.Spells ws ts) (hts : ∀ t ∈ ts, Text.IsWord t.toList) :
    x.internAll (Text.tokens (x.render ws)) = (ws, x) := by
  rw [h.render_eq, Text.tokens_intercalate hts, h.internAll_eq]

end ForestRescoring.Lexicon
