/-
# N-grams that boundaries hide

Where the boundaries in the texts of children are out of the way, an edge adds the n-grams that its
text has beyond those of the children (`Scorer.newNgrams_perm`).  Where they are not, it adds fewer
(`Scorer.clearSlots_of_length_le`), so the condition is exact.

The argument compares lengths.  The window is never longer than it should be, and the place of a word
never smaller, as it counts boundaries.  So along the slots each word, and each word of a left
context, closes at most as many n-grams as it should, and what is missing at one of them is not made
up for at another.  Where nothing is missing in the end, nothing was at any gap.
-/
import Mathlib
import ForestRescoring.Proofs.Outcome
import ForestRescoring.Proofs.Scoring.NewNgrams

namespace ForestRescoring

/-! ## 1. Lengths -/

namespace Window

variable {win : Window}

/-- There is one suffix of each length. -/
theorem length_filter_suffixes {α : Type} (s : List α) (n : ℕ) :
    ((suffixes s).filter fun t => n < t.length).length = s.length - n := by
  induction s with
  | nil => simp [suffixes]
  | cons a s ih =>
    rw [suffixes, List.filter_append, List.length_append, ih]
    by_cases h : n < (a :: s).length
    · rw [List.filter_cons_of_pos (by simpa using h), List.filter_nil, List.length_singleton]
      rw [List.length_cons] at h ⊢
      omega
    · rw [List.filter_cons_of_neg (by simpa using h), List.filter_nil, List.length_nil]
      rw [List.length_cons] at h ⊢
      omega

/-- A word closes an n-gram of each length up to one more than the window has. -/
theorem length_closing (win : Window) (w : WordId) :
    (win.closing w).length = win.recent.length + 1 := by
  rw [closing, length_suffixes, List.length_append, List.length_singleton]

end Window

namespace Scorer

variable {win win' : Window} {place place' : ℕ} {ws : List WordId}

/-- What a word closes across the beginning of a child. -/
theorem length_closing_across (win : Window) (w : WordId) (place : ℕ) :
    ((win.closing w).filter fun g => place + 1 < g.length).length = win.recent.length - place := by
  rw [Window.closing, Window.length_filter_suffixes, List.length_append, List.length_singleton,
    Nat.add_sub_add_right]

/-- What crosses to a word and to those behind it. -/
theorem length_crossing_cons {w : WordId} (hw : ¬ w.isBoundary = true) (win : Window) (place : ℕ)
    (ws : List WordId) : (crossing win place (w :: ws)).1.length =
      (win.recent.length - place) + (crossing (win.push w) (place + 1) ws).1.length := by
  rw [crossing, if_neg hw]
  simp only [List.length_append, length_closing_across]

/-- A shorter window pushed on stays shorter. -/
theorem length_push_le (h : win.recent.length ≤ win'.recent.length) (w : WordId) :
    (win.push w).recent.length ≤ (win'.push w).recent.length := by
  rw [Window.length_push, Window.length_push]
  omega

/-! ## 2. What crosses into a child -/

/-- **At most as much crosses as if there were no boundaries.** -/
theorem length_crossing_le (hwin : win.recent.length ≤ win'.recent.length) (hplace : place' ≤ place)
    (ws : List WordId) :
    (crossing win place ws).1.length ≤ (crossing win' place' (content ws)).1.length := by
  induction ws generalizing win win' place place' with
  | nil => exact Nat.le_refl _
  | cons w ws ih =>
    by_cases hw : w.isBoundary = true
    · rw [crossing, if_pos hw, content_cons_of_boundary hw]
      exact ih hwin (Nat.le_succ_of_le hplace)
    · rw [content_cons_of_word hw, length_crossing_cons hw, length_crossing_cons hw]
      have hlater := ih (length_push_le hwin w) (Nat.add_le_add_right hplace 1)
      omega

/-- It is less if the window is shorter, or the place further on than it should be, and something
should cross. -/
theorem length_crossing_lt (hwin : win.recent.length ≤ win'.recent.length) (hplace : place' ≤ place)
    (hroom : place' < win'.recent.length)
    (hless : win.recent.length < win'.recent.length ∨ place' < place) (hws : content ws ≠ []) :
    (crossing win place ws).1.length < (crossing win' place' (content ws)).1.length := by
  induction ws generalizing place with
  | nil => exact absurd rfl hws
  | cons w ws ih =>
    by_cases hw : w.isBoundary = true
    · rw [content_cons_of_boundary hw] at hws ⊢
      rw [crossing, if_pos hw]
      exact ih (Nat.le_succ_of_le hplace) (.inr (Nat.lt_succ_of_le hplace)) hws
    · rw [content_cons_of_word hw, length_crossing_cons hw, length_crossing_cons hw]
      have hlater := length_crossing_le (length_push_le hwin w) (Nat.add_le_add_right hplace 1) ws
      omega

/-- **It is less if a boundary stands in front of a word that should be crossed to.** -/
theorem length_crossing_lt_of_not_prefix (hroom : place < win.recent.length)
    (h : ¬ (content ws).take (contextSize - place) <+: ws) :
    (crossing win place ws).1.length < (crossing win place (content ws)).1.length := by
  induction ws generalizing win place with
  | nil => exact absurd (by rw [content_nil, List.take_nil]) h
  | cons w ws ih =>
    by_cases hw : w.isBoundary = true
    · rw [content_cons_of_boundary hw] at h ⊢
      have hws : content ws ≠ [] := fun hnil => h (by rw [hnil, List.take_nil]; exact List.nil_prefix)
      rw [crossing, if_pos hw]
      exact length_crossing_lt (Nat.le_refl _) (Nat.le_succ place) hroom
        (.inr (Nat.lt_succ_self place)) hws
    · rw [content_cons_of_word hw] at h ⊢
      rw [length_crossing_cons hw, length_crossing_cons hw]
      have hle : win.recent.length ≤ contextSize := win.length_le
      obtain ⟨n, hn⟩ : ∃ n, contextSize - place = n + 1 := ⟨contextSize - place - 1, by omega⟩
      rw [hn, List.take_succ_cons, List.cons_prefix_cons] at h
      have hrest : ¬ (content ws).take (contextSize - (place + 1)) <+: ws := by
        rw [Nat.sub_add_eq, hn, Nat.add_sub_cancel]
        exact fun hprefix => h ⟨rfl, hprefix⟩
      have hpush : place + 1 < (win.push w).recent.length := by
        have hne : contextSize - (place + 1) ≠ 0 := fun hzero => hrest (by
          rw [hzero, List.take_zero]
          exact List.nil_prefix)
        rw [Window.length_push]
        omega
      have hlater := ih hpush hrest
      omega

/-! ## 3. The window along the slots -/

variable {front text : List WordId} {w : WordId}

/-- A window that holds an end of the content is not too long. -/
theorem length_le_of_suffix (h : win.recent <:+ content front) :
    win.recent.length ≤ (Window.fresh.pushAll (content front)).recent.length := by
  rw [Window.recent_pushAll_fresh, length_rtake]
  exact le_min win.length_le h.length_le

/-- If it is long enough, it is right. -/
theorem recent_eq_of_length_le (h : win.recent <:+ content front)
    (hlen : (Window.fresh.pushAll (content front)).recent.length ≤ win.recent.length) :
    win.recent = (content front).rtake contextSize := by
  have hle := length_le_of_suffix h
  rw [Window.recent_pushAll_fresh] at hlen hle
  exact (List.suffix_of_suffix_length_le h (rtake_suffix _ _) hle).eq_of_length
    (Nat.le_antisymm hle hlen)

theorem suffix_push (h : win.recent <:+ content front) (hw : ¬ w.isBoundary = true) :
    (win.push w).recent <:+ content (front ++ [w]) := by
  have hpush : (win.push w).recent = (win.recent ++ [w]).rtake contextSize := rfl
  rw [hpush, content_append, content_cons_of_word hw, content_nil]
  exact (rtake_suffix _ _).trans (List.suffix_append_self_iff.mpr h)

theorem suffix_behind (h : win.recent <:+ content front) (text : List WordId) :
    (behind win text).recent <:+ content (front ++ text) := by
  rw [content_append]
  by_cases hfull : contextSize ≤ text.length
  · rw [recent_behind_of_full win hfull]
    exact ((rtake_suffix text contextSize).filter _).trans (List.suffix_append _ _)
  · rw [behind_of_short win hfull, Window.recent_pushAll]
    exact (rtake_suffix _ _).trans (List.suffix_append_self_iff.mpr h)

/-- Behind a child without content the window is right only if it was so in front of it. -/
theorem recent_eq_of_behind (hwin : win.recent <:+ content front) (htext : content text = [])
    (h : (behind win text).recent = (content (front ++ text)).rtake contextSize) :
    win.recent = (content front).rtake contextSize := by
  rw [content_append, htext, List.append_nil] at h
  by_cases hfull : contextSize ≤ text.length
  · have hnone : content (text.rtake contextSize) = [] :=
      content_eq_nil_iff.mpr fun w hw => content_eq_nil_iff.mp htext w ((rtake_suffix _ _).subset hw)
    refine recent_eq_of_length_le hwin ?_
    rw [Window.recent_pushAll_fresh, ← h, recent_behind_of_full win hfull, hnone]
    exact Nat.zero_le _
  · rwa [behind_of_short win hfull, htext, Window.pushAll_nil] at h

/-! ## 4. All slots of an edge -/

variable {K : Type} {texts : VertexId → List WordId} {slots : List Slot} {gs : List Ngram}

/-- The n-grams that slots add, and those inside the children. -/
def made (texts : VertexId → List WordId) (slots : List Slot) (gs : List Ngram) : ℕ :=
  (gs ++ (slots.filterMap Slot.child?).flatMap fun c => ngrams (content (texts c))).length

/-- The n-grams that they should make, behind a text. -/
def due (texts : VertexId → List WordId) (front : List WordId) (slots : List Slot) : ℕ :=
  (ngramsFrom (Window.fresh.pushAll (content front)) (content (slotsText texts slots))).length

theorem due_boundary (hw : w.isBoundary = true) :
    due texts front (.word w :: slots) = due texts (front ++ [w]) slots := by
  rw [due, due, slotsText_word, content_cons_of_boundary hw, content_append,
    content_cons_of_boundary hw, content_nil, List.append_nil]

theorem due_word (hw : ¬ w.isBoundary = true) : due texts front (.word w :: slots) =
    (Window.fresh.pushAll (content front)).recent.length + 1 + due texts (front ++ [w]) slots := by
  rw [due, due, slotsText_word, content_cons_of_word hw, ngramsFrom_cons, List.length_append,
    Window.length_closing, Window.pushAll_push, content_append, content_cons_of_word hw, content_nil]

theorem due_gap {c : VertexId} : due texts front (.gap c :: slots) =
    (crossing (Window.fresh.pushAll (content front)) 0 (content (texts c))).1.length +
      (ngrams (content (texts c))).length + due texts (front ++ texts c) slots := by
  have hchild := (crossing_perm (Window.fresh.pushAll (content front)) [] _
    (content_content (texts c))).length_eq
  rw [List.length_append] at hchild
  rw [due, due, slotsText_gap, content_append, ngramsFrom_append, List.length_append,
    ← Window.pushAll_append, content_append]
  exact congrArg (· + _) hchild.symm

theorem made_word (win : Window) (w : WordId) : made texts (.word w :: slots) (win.closing w ++ gs) =
    win.recent.length + 1 + made texts slots gs := by
  rw [made, made, List.append_assoc, List.length_append, Window.length_closing]
  rfl

theorem made_gap (win : Window) (c : VertexId) : made texts (.gap c :: slots)
    ((crossing win 0 ((texts c).take contextSize)).1 ++ gs) =
      (crossing win 0 (texts c)).1.length + (ngrams (content (texts c))).length +
        made texts slots gs := by
  simp only [made, crossing_take, List.filterMap_cons, Slot.child?, List.flatMap_cons,
    List.length_append]
  omega

/-- What crosses into a child is all that should cross only if the window is right where it matters,
and the words that should be crossed to stand at the beginning of the child. -/
theorem begins_of_length_le (hwin : win.recent <:+ content front) (text : List WordId)
    (h : (crossing (Window.fresh.pushAll (content front)) 0 (content text)).1.length ≤
      (crossing win 0 text).1.length) :
    (content text ≠ [] → win.recent = (content front).rtake contextSize) ∧
      (content front ≠ [] → (content text).take contextSize <+: text) := by
  have hle := length_le_of_suffix hwin
  have hright : content text ≠ [] → win.recent = (content front).rtake contextSize := by
    intro htext
    refine recent_eq_of_length_le hwin (Nat.le_of_not_lt fun hlt => ?_)
    have hless := length_crossing_lt hle (Nat.le_refl 0) (Nat.zero_lt_of_lt hlt) (.inl hlt) htext
    omega
  refine ⟨hright, fun hfront => ?_⟩
  by_contra hprefix
  have htext : content text ≠ [] := fun hnil =>
    hprefix (by rw [hnil, List.take_nil]; exact List.nil_prefix)
  have heq : win = Window.fresh.pushAll (content front) :=
    Window.eq_of_recent_eq (by rw [hright htext, Window.recent_pushAll_fresh])
  have hroom : 0 < win.recent.length := by
    rw [hright htext, length_rtake]
    exact lt_min (by decide) (List.length_pos_of_ne_nil hfront)
  have hless : (crossing win 0 text).1.length < (crossing win 0 (content text)).1.length :=
    length_crossing_lt_of_not_prefix hroom hprefix
  rw [← heq] at h
  omega

/-- What slots add is accounted for, behind a window and a text. -/
structure Accounted (texts : VertexId → List WordId) (win : Window) (front : List WordId)
    (slots : List Slot) (gs : List Ngram) : Prop where
  /-- No more n-grams are made than there should be. -/
  made_le : made texts slots gs ≤ due texts front slots
  /-- As many are made only if the window is right and boundaries are out of the way. -/
  clear_of_due_le : due texts front slots ≤ made texts slots gs →
    Follows win front (slotsText texts slots) ∧ ClearSlots texts front slots

theorem accounted_nil : Accounted texts win front [] [] where
  made_le := Nat.zero_le _
  clear_of_due_le _ := ⟨fun hnil => absurd rfl hnil, clearSlots_nil texts front⟩

theorem Accounted.boundary (h : Accounted texts win (front ++ [w]) slots gs)
    (hw : w.isBoundary = true) : Accounted texts win front (.word w :: slots) gs where
  made_le := by
    rw [due_boundary hw]
    exact h.made_le
  clear_of_due_le hdue := by
    rw [due_boundary hw] at hdue
    obtain ⟨hfollows, hclear⟩ := h.clear_of_due_le hdue
    refine ⟨fun hrest => ?_, clearSlots_word.mpr hclear⟩
    have hfront : content (front ++ [w]) = content front := by
      rw [content_append, content_cons_of_boundary hw, content_nil, List.append_nil]
    rw [slotsText_word, content_cons_of_boundary hw] at hrest
    rw [hfollows hrest, hfront]

theorem Accounted.word (h : Accounted texts (win.push w) (front ++ [w]) slots gs)
    (hw : ¬ w.isBoundary = true) (hwin : win.recent <:+ content front) :
    Accounted texts win front (.word w :: slots) (win.closing w ++ gs) where
  made_le := by
    have hshort := length_le_of_suffix hwin
    have hlater := h.made_le
    rw [due_word hw, made_word]
    omega
  clear_of_due_le hdue := by
    have hshort := length_le_of_suffix hwin
    have hlater := h.made_le
    rw [due_word hw, made_word] at hdue
    obtain ⟨-, hclear⟩ := h.clear_of_due_le (by omega)
    exact ⟨fun _ => recent_eq_of_length_le hwin (by omega), clearSlots_word.mpr hclear⟩

theorem Accounted.gap {c : VertexId}
    (h : Accounted texts (Scorer.behind win (texts c)) (front ++ texts c) slots gs)
    (hwin : win.recent <:+ content front) : Accounted texts win front (.gap c :: slots)
      ((crossing win 0 ((texts c).take contextSize)).1 ++ gs) where
  made_le := by
    have hcrossed := length_crossing_le (length_le_of_suffix hwin) (Nat.le_refl 0) (texts c)
    have hlater := h.made_le
    rw [due_gap, made_gap]
    omega
  clear_of_due_le hdue := by
    have hcrossed := length_crossing_le (length_le_of_suffix hwin) (Nat.le_refl 0) (texts c)
    have hlater := h.made_le
    rw [due_gap, made_gap] at hdue
    obtain ⟨hfollows, hclear⟩ := h.clear_of_due_le (by omega)
    obtain ⟨hright, hbegins⟩ := begins_of_length_le hwin (texts c) (by omega)
    rw [clearSlots_gap, slotsText_gap]
    refine ⟨fun hall => ?_, ⟨hbegins, fun hrest hlong => ?_⟩, hclear⟩
    · by_cases htext : content (texts c) = []
      · rw [content_append, htext, List.nil_append] at hall
        exact recent_eq_of_behind hwin htext (hfollows hall)
      · exact hright htext
    · rw [← recent_behind_of_full win hlong, hfollows hrest]

/-- **What slots add is accounted for**, behind a window that holds an end of the content in front. -/
theorem accounted_of_newNgrams {s : Scorer K}
    (hk : ∀ c ∈ slots.filterMap Slot.child?, s.Knows texts c)
    (hgs : s.newNgrams win slots = .ok gs) (hwin : win.recent <:+ content front) :
    Accounted texts win front slots gs := by
  induction slots generalizing win front gs with
  | nil =>
    cases hgs
    exact accounted_nil
  | cons slot slots ih =>
    cases slot with
    | word w =>
      by_cases hw : w.isBoundary = true
      · rw [newNgrams, if_pos hw] at hgs
        have hfront : content (front ++ [w]) = content front := by
          rw [content_append, content_cons_of_boundary hw, content_nil, List.append_nil]
        exact (ih hk hgs (by rwa [hfront])).boundary hw
      · rw [newNgrams, if_neg hw] at hgs
        obtain ⟨later, hlater, hgs⟩ := bind_eq_ok_iff.mp hgs
        cases hgs
        exact (ih hk hlater (suffix_push hwin hw)).word hw hwin
    | gap c =>
      have hc : s.Knows texts c := hk c (by simp [Slot.child?])
      have hk' : ∀ d ∈ slots.filterMap Slot.child?, s.Knows texts d :=
        fun d hd => hk d (by simp [Slot.child?, hd])
      rw [newNgrams_gap hc] at hgs
      obtain ⟨later, hlater, hgs⟩ := bind_eq_ok_iff.mp hgs
      cases hgs
      exact (ih hk' hlater (suffix_behind hwin (texts c))).gap hwin

/-- **The condition is exact.**  An edge that makes as many n-grams as its text has has no boundary in
the way. -/
theorem clearSlots_of_length_le {s : Scorer K} {e : Edge K}
    (hk : ∀ c ∈ e.children, s.Knows texts c) (hgs : s.newNgrams .fresh e.slots = .ok gs)
    (h : (ngrams (content (e.text texts))).length ≤
      (gs ++ e.children.flatMap fun c => ngrams (content (texts c))).length) :
    ClearSlots texts [] e.slots := by
  have haccounted : Accounted texts .fresh [] e.slots gs :=
    accounted_of_newNgrams (Edge.forall_gap_iff.mpr hk) hgs List.nil_suffix
  rw [← Edge.filterMap_child?_slots] at h
  exact (haccounted.clear_of_due_le h).2

/-! ## 5. Numbers of n-grams by length -/

theorem length_of_mem_closing {g : Ngram} (h : g ∈ win.closing w) :
    1 ≤ g.length ∧ g.length ≤ maxOrder := by
  have hle := Window.length_le_of_mem_closing h
  have hwin : win.recent.length + 1 ≤ maxOrder := Nat.succ_le_succ win.length_le
  exact ⟨List.length_pos_of_ne_nil (Window.mem_closing.mp h).1, hle.trans hwin⟩

theorem length_of_mem_crossing {g : Ngram} (h : g ∈ (crossing win place ws).1) :
    1 ≤ g.length ∧ g.length ≤ maxOrder := by
  induction ws generalizing win place with
  | nil => cases h
  | cons w ws ih =>
    by_cases hw : w.isBoundary = true
    · rw [crossing, if_pos hw] at h
      exact ih h
    · rw [crossing, if_neg hw] at h
      rcases List.mem_append.mp h with h | h
      · exact length_of_mem_closing (List.mem_of_mem_filter h)
      · exact ih h

/-- What slots add has one to four words. -/
theorem length_of_mem_newNgrams {s : Scorer K} (hgs : s.newNgrams win slots = .ok gs) :
    ∀ g ∈ gs, 1 ≤ g.length ∧ g.length ≤ maxOrder := by
  induction slots generalizing win gs with
  | nil =>
    cases hgs
    exact List.forall_mem_nil _
  | cons slot slots ih =>
    cases slot with
    | word w =>
      by_cases hw : w.isBoundary = true
      · rw [newNgrams, if_pos hw] at hgs
        exact ih hgs
      · rw [newNgrams, if_neg hw] at hgs
        obtain ⟨later, hlater, hgs⟩ := bind_eq_ok_iff.mp hgs
        cases hgs
        exact List.forall_mem_append.mpr ⟨fun g => length_of_mem_closing, ih hlater⟩
    | gap c =>
      obtain ⟨inner, -, hgs⟩ := bind_eq_ok_iff.mp hgs
      obtain ⟨later, hlater, hgs⟩ := bind_eq_ok_iff.mp hgs
      cases hgs
      exact List.forall_mem_append.mpr ⟨fun g => length_of_mem_crossing, ih hlater⟩

end Scorer

/-- N-grams are as many as there are of each length. -/
theorem length_eq_sum_countP {gs : List Ngram}
    (h : ∀ g ∈ gs, 1 ≤ g.length ∧ g.length ≤ maxOrder) :
    gs.length = ((List.range' 1 maxOrder).map fun n => gs.countP fun g => g.length = n).sum := by
  have horders : List.range' 1 maxOrder = [1, 2, 3, 4] := rfl
  rw [horders]
  simp only [List.map_cons, List.map_nil, List.sum_cons, List.sum_nil]
  induction gs with
  | nil => rfl
  | cons g gs ih =>
    obtain ⟨⟨h1, h4⟩, hrest⟩ := List.forall_mem_cons.mp h
    have hcases : g.length = 1 ∨ g.length = 2 ∨ g.length = 3 ∨ g.length = 4 := by
      rw [maxOrder] at h4
      omega
    have hone : (if g.length = 1 then 1 else 0) + ((if g.length = 2 then 1 else 0) +
        ((if g.length = 3 then 1 else 0) + if g.length = 4 then 1 else 0)) = 1 := by
      rcases hcases with hlen | hlen | hlen | hlen <;> simp [hlen]
    simp only [List.length_cons, ih hrest, List.countP_cons, decide_eq_true_eq]
    omega

end ForestRescoring
