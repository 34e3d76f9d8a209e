/-
# What readers enter

Readers of forests and of references change a lexicon in one way only: they enter words of the lines
that they read.  This is so whether they accept what they read or stop at an error in the middle of
it, since what was entered in front of an error stays.

So what is to be known of a reader's effect on a lexicon is that it enters tokens (`Lexicon.Enters`),
and that these are words, without blanks and not empty: a reader gets them by cutting a line at its
blanks (`isToken_of_mem_tokens`).
-/
import Mathlib
import ForestRescoring.Forest.Reading
import ForestRescoring.References
import ForestRescoring.Settings.Basic
import ForestRescoring.Proofs.Lexicon.Growth
import ForestRescoring.Proofs.Text.Written

namespace ForestRescoring

open Text

/-! ## 1. Entering tokens of a kind -/

namespace Lexicon

/-- Tokens of one kind were entered, one after the other. -/
def Enters (kind : String → Prop) (x y : Lexicon) : Prop :=
  ∃ ts, (∀ t ∈ ts, kind t) ∧ (x.internAll ts).2 = y

variable {kind : String → Prop} {x y z : Lexicon} {ts : List String} {t : String}

theorem Enters.refl (kind : String → Prop) (x : Lexicon) : Enters kind x x :=
  ⟨[], List.forall_mem_nil kind, rfl⟩

theorem Enters.trans (hxy : Enters kind x y) (hyz : Enters kind y z) : Enters kind x z := by
  obtain ⟨ts, hts, rfl⟩ := hxy
  obtain ⟨us, hus, rfl⟩ := hyz
  exact ⟨ts ++ us, List.forall_mem_append.mpr ⟨hts, hus⟩, internAll_append x ts us⟩

theorem enters_internAll (x : Lexicon) (h : ∀ t ∈ ts, kind t) : Enters kind x (x.internAll ts).2 :=
  ⟨ts, h, rfl⟩

theorem enters_intern (x : Lexicon) (h : kind t) : Enters kind x (x.intern t).2 :=
  ⟨[t], List.forall_mem_singleton.mpr h, rfl⟩

theorem Enters.mono {wider : String → Prop} (h : Enters kind x y) (hk : ∀ t, kind t → wider t) :
    Enters wider x y := by
  obtain ⟨ts, hts, rfl⟩ := h
  exact ⟨ts, fun t ht => hk t (hts t ht), rfl⟩

theorem Enters.grows (h : Enters kind x y) : x.Grows y := by
  obtain ⟨ts, -, rfl⟩ := h
  exact x.grows_internAll ts

/-- **No other tokens come in.** -/
theorem Enters.forall_mem (h : Enters kind x y) (hx : ∀ t ∈ x.tokens.toList, kind t) :
    ∀ t ∈ y.tokens.toList, kind t := by
  obtain ⟨ts, hts, rfl⟩ := h
  intro t ht
  rw [tokens_internAll, List.mem_append, List.mem_eraseDups] at ht
  rcases ht with ht | ht
  · exact hx t ht
  · exact hts t (List.mem_of_mem_filter ht)

end Lexicon

/-! ## 2. Words of a line -/

/-- What can be a boundary is what can be a word. -/
theorem isToken_iff {t : String} : Settings.isToken t = true ↔ IsWord t.toList := by
  rw [isWord_iff]
  simp [Settings.isToken, Unbroken]

/-- A word that is entered as a token. -/
theorem isToken_ofList {w : List Char} (h : IsWord w) : Settings.isToken (String.ofList w) = true :=
  isToken_iff.mpr (by rwa [String.toList_ofList])

/-- **A line is cut into tokens.** -/
theorem isToken_of_mem_tokens {s t : String} (h : t ∈ tokens s) : Settings.isToken t = true := by
  obtain ⟨w, hw, rfl⟩ := List.mem_map.mp h
  exact isToken_ofList (isWord_of_mem_words hw)

/-! ## 3. Forests -/

/-- What readers of forests and of references do to a lexicon. -/
abbrev Lexicon.EntersWords : Lexicon → Lexicon → Prop :=
  Lexicon.Enters fun t => Settings.isToken t = true

open Lexicon

namespace EdgeLine

/-- Fields are made of the words of the line. -/
theorem mem_of_mem_fields {ws ts : List (List Char)} {t : List Char} (hts : ts ∈ fields ws)
    (ht : t ∈ ts) : t ∈ ws := by
  induction ws generalizing ts with
  | nil =>
    rw [fields, List.mem_singleton] at hts
    subst hts
    cases ht
  | cons w ws ih =>
    rw [fields] at hts
    split at hts
    · rcases List.mem_cons.mp hts with rfl | hts
      · cases ht
      · exact List.mem_cons_of_mem w (ih hts ht)
    · cases hf : fields ws with
      | nil =>
        rw [hf] at hts
        rw [List.mem_singleton.mp hts, List.mem_singleton] at ht
        exact ht ▸ List.mem_cons_self
      | cons first rest =>
        rw [hf] at hts ih
        rcases List.mem_cons.mp hts with rfl | hts
        · rcases List.mem_cons.mp ht with rfl | ht
          · exact List.mem_cons_self
          · exact List.mem_cons_of_mem w (ih List.mem_cons_self ht)
        · exact List.mem_cons_of_mem w (ih (List.mem_cons_of_mem first hts) ht)

/-- The target side is a field, or empty where there is none. -/
theorem mem_field_of_threeFields? {fs : List (List (List Char))}
    {target features coverage : List (List Char)} {t : List Char}
    (h : threeFields? fs = some (target, features, coverage)) (ht : t ∈ target) :
    ∃ ts ∈ fs, t ∈ ts := by
  unfold threeFields? at h
  split at h
  · cases h
    cases ht
  · cases h
    exact ⟨target, List.mem_cons_self, ht⟩
  · cases h
    exact ⟨target, List.mem_cons_self, ht⟩
  · cases h
    exact ⟨target, List.mem_cons_self, ht⟩
  · cases h

/-- Slots enter words of the target side, whether they are accepted or not. -/
theorem enters_readSlots {kind : String → Prop} (head : VertexId) (x : Lexicon)
    {ts : List (List Char)} (h : ∀ t ∈ ts, kind (String.ofList t)) :
    Enters kind x (readSlots head x ts).2 := by
  induction ts generalizing x with
  | nil => exact .refl kind x
  | cons t ts ih =>
    obtain ⟨ht, hts⟩ := List.forall_mem_cons.mp h
    unfold readSlots
    split
    · split
      · exact .refl kind x
      · exact ih x hts
    · exact (enters_intern x ht).trans (ih _ hts)

theorem grows_readSlots (head : VertexId) (x : Lexicon) (ts : List (List Char)) :
    x.Grows (readSlots head x ts).2 := by
  have h : Enters (fun _ => True) x (readSlots head x ts).2 :=
    enters_readSlots head x fun _ _ => trivial
  exact h.grows

theorem enters_read (head : VertexId) (x : Lexicon) (line : List Char) :
    x.EntersWords (read head x line).2 := by
  unfold read
  split
  · exact .refl _ x
  · next target features coverage hfields =>
    refine enters_readSlots head x fun t ht => ?_
    obtain ⟨ts, hts, ht⟩ := mem_field_of_threeFields? hfields ht
    exact isToken_ofList (isWord_of_mem_words (mem_of_mem_fields hts ht))

theorem grows_read (head : VertexId) (x : Lexicon) (line : List Char) :
    x.Grows (read head x line).2 := (enters_read head x line).grows

end EdgeLine

theorem Draft.enters_step (d : Draft) (x : Lexicon) (number : ℕ) (line : List Char) :
    x.EntersWords (d.step x number line).2 := by
  unfold step
  split
  · exact .refl _ x
  · dsimp only
    split
    · exact EdgeLine.enters_read _ x line
    · exact EdgeLine.enters_read _ x line

namespace ForestReading

theorem enters_readBody (total : ℕ) (d : Draft) (x : Lexicon) (number : ℕ)
    (ls : List NumberedLine) : x.EntersWords (readBody total d x number ls).lexicon := by
  induction ls generalizing d x number with
  | nil =>
    unfold readBody
    split
    · exact .refl _ x
    · exact .refl _ x
  | cons l ls ih =>
    obtain ⟨line, n⟩ := l
    unfold readBody
    split
    · exact .refl _ x
    · cases line with
      | none => exact .refl _ x
      | some text =>
        have hstep := d.enters_step x n (lineBody text)
        dsimp only
        split
        · exact hstep
        · exact hstep.trans (ih _ _ _)

theorem enters_ofLines (x : Lexicon) (lines : List (Option String)) :
    x.EntersWords (ofLines x lines).lexicon := by
  unfold ofLines
  split
  · exact .refl _ x
  · exact .refl _ x
  · dsimp only
    split
    · unfold readCounts
      split
      · exact .refl _ x
      · exact .refl _ x
      · split
        · exact .refl _ x
        · exact enters_readBody _ _ x _ _
    · exact .refl _ x

/-- **Reading a forest enters words**, whether there is a forest or not. -/
theorem enters_ofOpened (x : Lexicon) (opened : Opened) :
    x.EntersWords (ofOpened x opened).lexicon := by
  unfold ofOpened
  split
  · exact .refl _ x
  · exact enters_ofLines x _

end ForestReading

/-! ## 4. References -/

namespace References

theorem enters_internLines (x : Lexicon) (ls : List String) :
    x.EntersWords (internLines x ls).2 := by
  induction ls generalizing x with
  | nil => exact .refl _ x
  | cons l ls ih => exact (enters_internAll x fun t ht => isToken_of_mem_tokens ht).trans (ih _)

theorem enters_addLines (r : References) (x : Lexicon) (ls : List String) :
    x.EntersWords (r.addLines x ls).2 := enters_internLines x ls

theorem enters_addTexts (r : References) (x : Lexicon) (texts : List String) :
    x.EntersWords (r.addTexts x texts).2 := by
  induction texts generalizing r x with
  | nil => exact .refl _ x
  | cons t texts ih => exact (r.enters_addLines x _).trans (ih _ _)

/-- Adding a file enters the words of the lines in front of a failure. -/
theorem enters_addBytes (r : References) (x : Lexicon) (bytes : ByteArray) :
    x.EntersWords (r.addBytes x bytes).lexicon := r.enters_addLines x _

/-- The lexicon that is left of loading reference files, also where this fails: the words in front of
the failure have entered it. -/
def lexiconAfter (files : Files) (x : Lexicon) : List String → Lexicon
  | [] => x
  | path :: paths =>
    match (files path).bind Files.contents with
    | .error _ => x
    | .ok bytes =>
      let added := empty.addBytes x bytes
      match added.failure with
      | some _ => added.lexicon
      | none => lexiconAfter files added.lexicon paths

/-- The references that are there already have no part in what becomes of the lexicon, or in the
failure. -/
theorem addBytes_empty (r : References) (x : Lexicon) (bytes : ByteArray) :
    (empty.addBytes x bytes).failure = (r.addBytes x bytes).failure ∧
      (empty.addBytes x bytes).lexicon = (r.addBytes x bytes).lexicon := ⟨rfl, rfl⟩

/-- Where loading succeeds, the lexicon that it gives is the one that is left. -/
theorem lexiconAfter_eq {files : Files} {r s : References} {x y : Lexicon} {paths : List String}
    (h : addFiles files r x paths = .ok (s, y)) : lexiconAfter files x paths = y := by
  induction paths generalizing r x with
  | nil =>
    cases h
    rfl
  | cons path paths ih =>
    rw [addFiles] at h
    rw [lexiconAfter]
    cases hbytes : (files path).bind Files.contents with
    | error cause =>
      simp only [hbytes] at h
      cases h
    | ok bytes =>
      obtain ⟨hfailure, hlexicon⟩ := addBytes_empty r x bytes
      simp only [hbytes, hfailure, hlexicon] at h ⊢
      cases hcause : (r.addBytes x bytes).failure with
      | some cause =>
        simp only [hcause] at h
        cases h
      | none =>
        simp only [hcause] at h ⊢
        exact ih h

theorem enters_lexiconAfter (files : Files) (x : Lexicon) (paths : List String) :
    x.EntersWords (lexiconAfter files x paths) := by
  induction paths generalizing x with
  | nil => exact .refl _ x
  | cons path paths ih =>
    unfold lexiconAfter
    split
    · exact .refl _ x
    · next bytes _ =>
      have hadded := empty.enters_addBytes x bytes
      dsimp only
      split
      · exact hadded
      · exact hadded.trans (ih _)

/-- **Loading references enters words.** -/
theorem enters_load {files : Files} {x y : Lexicon} {paths : List String} {r : References}
    (h : load files x paths = .ok (r, y)) : x.EntersWords y :=
  lexiconAfter_eq h ▸ enters_lexiconAfter files x paths

end References

end ForestRescoring
