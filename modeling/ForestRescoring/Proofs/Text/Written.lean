/-
# Texts that are written

Data files are rows of words with single spaces between them, some of the words numerals, each row
with a newline behind it.  Here such a text is put together, and what is read from it is shown to be
what was written:

* `digits?_numeral`: a count, from its numeral;
* `words_spaced`: the words, from their row;
* `decodedLines_toUTF8`, `decodedLines_unlines`: the rows, from the bytes of the whole text.

The last ones need that the newline byte belongs to the newline character alone: all bytes of a
character that takes more than one byte have their highest bit set.
-/
import Mathlib
import ForestRescoring.Text.Blank
import ForestRescoring.Text.Lines
import ForestRescoring.Text.Numeral

namespace ForestRescoring.Text

/-! ## 1. Numerals -/

/-- The digits that write a number. -/
def numeral (n : ℕ) : List Char := Nat.toDigits 10 n

theorem numeral_ne_nil (n : ℕ) : numeral n ≠ [] := Nat.toDigits_ne_nil

theorem isDigit_of_mem_numeral {n : ℕ} {c : Char} (h : c ∈ numeral n) : c.isDigit = true :=
  Nat.isDigit_of_mem_toDigits (by norm_num) (by norm_num) h

/-- A count is read from its numeral. -/
theorem digits?_numeral {n : ℕ} (h : n < countBound) : digits? (numeral n) = some n := by
  have hvalue : digitsValue (numeral n) = n := Nat.ofDigitChars_ten_toDigits
  have hdigits : (numeral n).all Char.isDigit = true :=
    List.all_eq_true.mpr fun c hc => isDigit_of_mem_numeral hc
  simp [digits?, hvalue, hdigits, h, numeral_ne_nil]

/-- A plus sign is no digit, so a numeral is read as a count as it stands. -/
theorem count?_numeral {n : ℕ} (h : n < countBound) : count? (numeral n) = some n := by
  rw [← digits?_numeral h]
  unfold count?
  split
  · next ds hds =>
    have hplus := isDigit_of_mem_numeral (n := n) (c := '+') (by simp [hds])
    cases hplus
  · rfl

/-- Digits are the characters from `0` to `9`. -/
theorem isDigit_iff {c : Char} : c.isDigit = true ↔ 48 ≤ c.toNat ∧ c.toNat ≤ 57 := by
  rw [Char.isDigit, Bool.and_eq_true, decide_eq_true_eq, decide_eq_true_eq]
  exact Iff.rfl

theorem not_blank_of_isDigit {c : Char} (h : c.isDigit = true) : isBlank c = false := by
  rw [isDigit_iff] at h
  simp [isBlank, blankRanges]
  omega

/-! ## 2. Words -/

/-- The text holds no blank. -/
def Unbroken (t : List Char) : Prop := ∀ c ∈ t, isBlank c = false

-- Said of the list: the instance for all characters would go through each of them.
instance (t : List Char) : Decidable (Unbroken t) :=
  List.decidableBAll (fun c => isBlank c = false) t

/-- What can stand as a word: something without blanks. -/
@[mk_iff] structure IsWord (t : List Char) : Prop where
  ne_nil : t ≠ []
  unbroken : Unbroken t

instance (t : List Char) : Decidable (IsWord t) := decidable_of_iff _ (isWord_iff t).symm

theorem isWord_numeral (n : ℕ) : IsWord (numeral n) :=
  ⟨numeral_ne_nil n, fun _ hc => not_blank_of_isDigit (isDigit_of_mem_numeral hc)⟩

/-- Words with single spaces between them. -/
def spaced (ts : List (List Char)) : List Char := [' '].intercalate ts

variable {ts : List (List Char)} {t s : List Char}

/-- What stands between separators comes from the texts, or is part of a separator. -/
theorem mem_of_mem_intercalate {α : Type} {a : α} {separator : List α} {ls : List (List α)}
    (h : a ∈ separator.intercalate ls) : a ∈ separator ∨ ∃ l ∈ ls, a ∈ l := by
  induction ls with
  | nil => simp at h
  | cons l ls ih =>
    by_cases hls : ls = []
    · simp_all
    · simp only [List.intercalate_cons_of_ne_nil hls, List.mem_append] at h
      rcases h with (h | h) | h
      · exact .inr ⟨l, by simp, h⟩
      · exact .inl h
      · rcases ih h with h | ⟨m, hm, ha⟩
        · exact .inl h
        · exact .inr ⟨m, by simp [hm], ha⟩

/-- A row has the characters of its words, and spaces. -/
theorem eq_or_mem_of_mem_spaced {c : Char} (h : c ∈ spaced ts) : c = ' ' ∨ ∃ t ∈ ts, c ∈ t := by
  simpa using mem_of_mem_intercalate h

/-- Characters that are not blank join the run that is open behind them. -/
theorem runs_append_of_unbroken (h : Unbroken t) (s : List Char) :
    runs (t ++ s) = (t ++ (runs s).1, (runs s).2) := by
  induction t with
  | nil => rfl
  | cons c t ih =>
    rw [List.cons_append, runs_cons_of_not_blank (h c (by simp)), ih fun d hd => h d (by simp [hd])]
    rfl

/-- A blank ends the word in front of it. -/
theorem words_append_blank (h : IsWord t) {c : Char} (hc : isBlank c = true) (s : List Char) :
    words (t ++ c :: s) = t :: words s := by
  simp [words, runs_append_of_unbroken h.unbroken, runs_cons, extend, hc, close, h.ne_nil]

/-- **The words of a row are those it was made of.** -/
theorem words_spaced (h : ∀ t ∈ ts, IsWord t) : words (spaced ts) = ts := by
  induction ts with
  | nil => rfl
  | cons t ts ih =>
    have ht : IsWord t := h t (by simp)
    by_cases hts : ts = []
    · simp [spaced, hts, words_of_unbroken ht.ne_nil ht.unbroken]
    · have hrow : spaced (t :: ts) = t ++ ' ' :: spaced ts := by
        simp [spaced, List.intercalate_cons_of_ne_nil hts]
      rw [hrow, words_append_blank ht (by decide), ih fun u hu => h u (by simp [hu])]

theorem isWord_of_mem_words {w : List Char} (h : w ∈ words s) : IsWord w :=
  ⟨ne_nil_of_mem_words h, not_blank_of_mem_words h⟩

/-- Strings with single spaces between them are read as they are. -/
theorem tokens_intercalate {us : List String} (h : ∀ u ∈ us, IsWord u.toList) :
    tokens (" ".intercalate us) = us := by
  have hwords : words (" ".intercalate us).toList = us.map String.toList := by
    rw [String.toList_intercalate]
    exact words_spaced (by simpa using h)
  have hid : String.ofList ∘ String.toList = id := funext fun _ => String.ofList_toList
  rw [tokens, hwords, List.map_map, hid, List.map_id]

/-- A row holds no blank but spaces. -/
theorem eq_space_of_mem_spaced (h : ∀ t ∈ ts, IsWord t) {c : Char} (hc : c ∈ spaced ts)
    (hb : isBlank c = true) : c = ' ' := by
  rcases eq_or_mem_of_mem_spaced hc with hc | ⟨t, ht, hct⟩
  · exact hc
  · simp [(h t ht).unbroken c hct] at hb

/-- Nothing is dropped from the end of a text without characters to be dropped. -/
theorem dropTrailing_eq_self {p : Char → Bool} (h : ∀ c ∈ s, p c = false) :
    dropTrailing p s = s := by
  have hdrop : s.reverse.dropWhile p = s.reverse := by
    cases hs : s.reverse with
    | nil => rfl
    | cons c r =>
      have hc : c ∈ s := List.mem_reverse.mp (by simp [hs])
      simp [h c hc]
  rw [dropTrailing, hdrop, List.reverse_reverse]

/-- Trimming leaves a text without blanks as it is. -/
theorem trim_eq_self (h : Unbroken s) : trim s = s := by
  have hstart : trimStart s = s := by
    cases s with
    | nil => rfl
    | cons c s => simp [trimStart, h c (by simp)]
  rw [trim, hstart, trimEnd, dropTrailing_eq_self h]

/-! ## 3. Lines -/

/-- Lines with a newline behind each. -/
def unlines (ls : List (List Char)) : String := String.ofList (ls.flatMap (· ++ ['\n']))

/-- The bytes that encode a row of characters. -/
def encode (s : List Char) : List UInt8 := s.flatMap String.utf8EncodeChar

theorem toList_toUTF8 (s : List Char) : (String.ofList s).toUTF8.data.toList = encode s :=
  List.toList_data_toByteArray

/-- The bytes of a text encode it. -/
theorem decode_encode (s : List Char) : decode (encode s) = some (String.ofList s) := by
  have hbytes : (⟨(encode s).toArray⟩ : ByteArray) = (String.ofList s).toByteArray := by
    rw [← toList_toUTF8]
    rfl
  rw [decode, hbytes, String.fromUTF8?, dif_pos (String.ofList s).isValidUTF8]
  rfl

/-- A byte of a character is the character itself, or has its highest bit set. -/
theorem mem_utf8EncodeChar {c : Char} {b : UInt8} (h : b ∈ String.utf8EncodeChar c) :
    c.val.toNat ≤ 127 ∧ b = UInt8.ofNat c.val.toNat ∨ 128 ≤ b.toNat := by
  have hhigh : ∀ n, 128 ≤ n → n < 256 → 128 ≤ (UInt8.ofNat n).toNat := by
    intro n hn hlt
    simpa [Nat.mod_eq_of_lt hlt] using hn
  rw [String.utf8EncodeChar.eq_1] at h
  split_ifs at h with h1 h2 h3
  · exact .inl ⟨h1, by simpa using h⟩
  all_goals
    simp only [List.mem_cons, List.not_mem_nil, or_false] at h
    right
  · rcases h with rfl | rfl <;> exact hhigh _ (by omega) (by omega)
  · rcases h with rfl | rfl | rfl <;> exact hhigh _ (by omega) (by omega)
  · rcases h with rfl | rfl | rfl | rfl <;> exact hhigh _ (by omega) (by omega)

/-- **The newline byte belongs to the newline.** -/
theorem eq_newline_of_mem_utf8EncodeChar {c : Char} (h : 10 ∈ String.utf8EncodeChar c) :
    c = '\n' := by
  rcases mem_utf8EncodeChar h with ⟨hlow, hbyte⟩ | hhigh
  · have hvalue : c.val.toNat = 10 := by
      have hmod : 10 = c.val.toNat % 256 := congrArg UInt8.toNat hbyte
      omega
    exact Char.ext (UInt32.toNat_inj.mp hvalue)
  · simp at hhigh

/-- Elements in front of a text that end no line join its first line. -/
theorem lines_append {α : Type} [DecidableEq α] {newline : α} {l : List α} (h : newline ∉ l)
    (hne : l ≠ []) (s : List α) :
    lines newline (l ++ s) =
      (l ++ (lines newline s).headD []) :: (lines newline s).tail := by
  induction l with
  | nil => exact absurd rfl hne
  | cons a l ih =>
    obtain ⟨ha, hl⟩ := not_or.mp (List.mem_cons.not.mp h)
    rw [List.cons_append, lines_cons, if_neg (Ne.symm ha)]
    by_cases hnil : l = []
    · cases hs : lines newline s with
      | nil => simp [hnil, hs, consFirst]
      | cons k ks => simp [hnil, hs, consFirst]
    · rw [ih hl hnil]
      rfl

theorem encode_cons (c : Char) (s : List Char) :
    encode (c :: s) = String.utf8EncodeChar c ++ encode s := rfl

/-- **Lines of a text are lines of its bytes.** -/
theorem lines_encode (s : List Char) : lines 10 (encode s) = (lines '\n' s).map encode := by
  induction s with
  | nil => rfl
  | cons c s ih =>
    rw [encode_cons, lines_cons]
    by_cases hc : c = '\n'
    · have hbyte : String.utf8EncodeChar '\n' = [10] := rfl
      rw [if_pos hc, hc, hbyte, List.singleton_append, lines_cons, if_pos rfl, ih]
      rfl
    · have hbytes : (10 : UInt8) ∉ String.utf8EncodeChar c :=
        fun h => hc (eq_newline_of_mem_utf8EncodeChar h)
      rw [if_neg hc, lines_append hbytes String.utf8EncodeChar_ne_nil, ih]
      cases lines '\n' s with
      | nil => simp [consFirst, encode]
      | cons k ks => simp [consFirst, encode]

/-- **The bytes of a text have its lines**, each with a text of its own. -/
theorem decodedLines_toUTF8 (t : String) : decodedLines t.toUTF8 = (linesOf t).map some := by
  have hbytes : t.toUTF8.data.toList = encode t.toList := by
    rw [← toList_toUTF8, String.ofList_toList]
  rw [decodedLines, hbytes, lines_encode, linesOf, List.map_map, List.map_map]
  exact List.map_congr_left fun l _ => decode_encode l

/-- The lines of a text are those it was made of. -/
theorem lines_unlines {ls : List (List Char)} (h : ∀ l ∈ ls, '\n' ∉ l) :
    lines '\n' (ls.flatMap (· ++ ['\n'])) = ls := by
  induction ls with
  | nil => rfl
  | cons l ls ih =>
    obtain ⟨hl, hls⟩ := List.forall_mem_cons.mp h
    rw [List.flatMap_cons, List.append_assoc, List.singleton_append, lines_append_newline hl, ih hls]

/-- The lines of the bytes are those that the text was made of too. -/
theorem decodedLines_unlines {ls : List (List Char)} (h : ∀ l ∈ ls, '\n' ∉ l) :
    decodedLines (unlines ls).toUTF8 = ls.map fun l => some (String.ofList l) := by
  rw [decodedLines_toUTF8, linesOf, unlines, String.toList_ofList, lines_unlines h, List.map_map]
  rfl

end ForestRescoring.Text
