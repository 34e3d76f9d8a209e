/-
# Lexicons only grow

Readers enter tokens as they meet them.  Whatever they enter, the numbers given before keep their
tokens (`Lexicon.Grows`), so what was read early can still be looked up at the end.

Main statement: entering a row of tokens adds those that are new, each once and in the order in which
they are met first (`Lexicon.tokens_internAll`).
-/
import Mathlib
import ForestRescoring.Lexicon

namespace ForestRescoring.Lexicon

variable {x y z : Lexicon}

/-- Every number keeps its token. -/
def Grows (x y : Lexicon) : Prop := ∀ w t, x.word? w = some t → y.word? w = some t

theorem Grows.refl (x : Lexicon) : x.Grows x := fun _ _ h => h

theorem Grows.trans (hxy : x.Grows y) (hyz : y.Grows z) : x.Grows z :=
  fun w t h => hyz w t (hxy w t h)

theorem grows_intern (x : Lexicon) (token : String) : x.Grows (x.intern token).2 :=
  fun _ _ h => word?_intern_of_word? h token

theorem grows_internAll (x : Lexicon) (ts : List String) : x.Grows (x.internAll ts).2 := by
  induction ts generalizing x with
  | nil => exact .refl x
  | cons t ts ih => exact (x.grows_intern t).trans (ih _)

/-- Two rows are entered one after the other. -/
theorem internAll_append (x : Lexicon) (ts us : List String) :
    (x.internAll (ts ++ us)).2 = ((x.internAll ts).2.internAll us).2 := by
  induction ts generalizing x with
  | nil => rfl
  | cons t ts ih => exact ih _

/-- A token without a number is not there. -/
theorem idOf?_eq_none_iff {token : String} : x.idOf? token = none ↔ token ∉ x.tokens.toList := by
  rw [Option.eq_none_iff_forall_ne_some, List.mem_iff_getElem?, not_exists]
  constructor
  · intro h i hi
    rw [Array.getElem?_toList] at hi
    exact h ⟨i⟩ (idOf?_eq_some_iff.mpr hi)
  · intro h w hw
    have hi : x.tokens[w.index]? = some token := idOf?_eq_some_iff.mp hw
    rw [← Array.getElem?_toList] at hi
    exact h w.index hi

/-- **New tokens go to the end**, each once and in the order in which they are met. -/
theorem tokens_internAll (x : Lexicon) (ts : List String) :
    (x.internAll ts).2.tokens.toList =
      x.tokens.toList ++ (ts.filter fun t => t ∉ x.tokens.toList).eraseDups := by
  induction ts generalizing x with
  | nil => simp [internAll]
  | cons t ts ih =>
    show ((x.intern t).2.internAll ts).2.tokens.toList = _
    rw [ih]
    cases ht : x.idOf? t with
    | some w =>
      have hold : ¬ t ∉ x.tokens.toList := by
        rw [← idOf?_eq_none_iff, ht]
        exact fun h => by cases h
      rw [intern_of_idOf? ht, List.filter_cons_of_neg (by simpa using hold)]
    | none =>
      have hnew : t ∉ x.tokens.toList := idOf?_eq_none_iff.mp ht
      have htokens : (x.intern t).2.tokens.toList = x.tokens.toList ++ [t] := by
        rw [(tokens_intern_of_new ht).2, Array.toList_push]
      have hfilter : (ts.filter fun u => u ∉ x.tokens.toList ++ [t]) =
          (ts.filter fun u => u ∉ x.tokens.toList).filter fun u => !u == t := by
        rw [List.filter_filter]
        refine List.filter_congr fun u _ => ?_
        by_cases hu : u = t <;> simp [hu]
      rw [htokens, hfilter, List.filter_cons_of_pos (by simpa using hnew), List.eraseDups_cons,
        List.append_assoc]
      rfl

end ForestRescoring.Lexicon
