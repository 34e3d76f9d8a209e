/-
# The n-grams that an edge adds

An edge is scored from summaries: of a child's text the scorer knows the first three words, the last
three, and the length.  This module shows that this is enough.  The n-grams that an edge adds,
together with those of its children's texts, are those of its own text, each as often as it
occurs there (`Scorer.newNgrams_perm`), provided that the boundaries in the texts of its children are
out of the way (`Scorer.ClearSlots`).  In a framed text they are (`Scorer.clearSlots_of_framed`).

The argument walks along the slots with the text that is already read.

* The window holds the end of that text's content (`Scorer.Follows`), so a word closes what it should.
* In a child's text, a word at a place closes n-grams that start in the child and are no
  longer than the place allows, and longer ones that cross into the child.  Only the first three
  words can be crossed to, so the left context has them all (`Scorer.crossing_take`).
* The place of a word counts boundaries, and the n-grams do not.  The two agree if the words that can
  be crossed to stand at the beginning of the child's text (`Scorer.crossing_perm_of_prefix`).
* Behind a child with a full left context the window has what the right context has.  That is enough
  if it is all that the window would keep (`Scorer.recent_behind`).
-/
import Mathlib
import ForestRescoring.Scorer
import ForestRescoring.Proofs.Ngram.Occurrences
import ForestRescoring.Proofs.Ngram.Framed

namespace ForestRescoring

/-! ## 1. Texts of slots -/

/-- The words of a slot, given the texts of the vertices. -/
def Slot.text (texts : VertexId → List WordId) : Slot → List WordId
  | .word w => [w]
  | .gap child => texts child

/-- The words of a row of slots. -/
def slotsText (texts : VertexId → List WordId) (slots : List Slot) : List WordId :=
  slots.flatMap (Slot.text texts)

@[simp] theorem slotsText_nil (texts : VertexId → List WordId) : slotsText texts [] = [] := rfl

@[simp] theorem slotsText_word (texts : VertexId → List WordId) (w : WordId) (slots : List Slot) :
    slotsText texts (.word w :: slots) = w :: slotsText texts slots := rfl

@[simp] theorem slotsText_gap (texts : VertexId → List WordId) (c : VertexId)
    (slots : List Slot) : slotsText texts (.gap c :: slots) = texts c ++ slotsText texts slots :=
  rfl

theorem slotsText_append (texts : VertexId → List WordId) (a b : List Slot) :
    slotsText texts (a ++ b) = slotsText texts a ++ slotsText texts b := List.flatMap_append

/-- The text of an edge: its words, and in each gap the text of the gap's vertex. -/
def Edge.text {K : Type} (e : Edge K) (texts : VertexId → List WordId) : List WordId :=
  slotsText texts e.slots

/-- The text of an edge depends on its children only. -/
theorem Edge.text_congr {K : Type} {e : Edge K} {texts texts' : VertexId → List WordId}
    (h : ∀ c ∈ e.children, texts' c = texts c) : e.text texts' = e.text texts := by
  refine List.flatMap_congr fun slot hslot => ?_
  cases slot with
  | word w => rfl
  | gap c => exact Edge.forall_gap_iff.mpr h c (List.mem_filterMap.mpr ⟨_, hslot, rfl⟩)

/-- What a summary says of a text: its first and last words and its length. -/
structure Summary.Describes (found : Summary) (text : List WordId) : Prop where
  left : found.left = text.take contextSize
  right : found.right = text.rtake contextSize
  length : found.length = text.length

/-- The empty summary describes the empty text. -/
theorem Summary.describes_empty : Summary.empty.Describes [] := ⟨rfl, rfl, rfl⟩

namespace Scorer

variable {K : Type}

/-- A vertex is fixed, and its summary describes its text. -/
def Knows (s : Scorer K) (texts : VertexId → List WordId) (v : VertexId) : Prop :=
  ∃ found, s.summary v = .ok found ∧ found.Describes (texts v)

/-! ## 2. Windows behind contexts -/

/-- Words that close nothing move the window by their content. -/
theorem seed_eq_pushAll (win : Window) (ws : List WordId) :
    seed win ws = win.pushAll (content ws) := by
  induction ws generalizing win with
  | nil => rfl
  | cons w ws ih =>
    rw [seed, List.foldl_cons, ← seed]
    by_cases hw : w.isBoundary = true
    · rw [if_pos hw, ih, content_cons_of_boundary hw]
    · rw [if_neg hw, ih, content_cons_of_word hw, Window.pushAll_cons]

/-- The words of a left context move the window by their content. -/
theorem crossing_snd (win : Window) (place : ℕ) (ws : List WordId) :
    (crossing win place ws).2 = win.pushAll (content ws) := by
  induction ws generalizing win place with
  | nil => rfl
  | cons w ws ih =>
    by_cases hw : w.isBoundary = true
    · rw [crossing, if_pos hw, ih, content_cons_of_boundary hw]
    · rw [crossing, if_neg hw, content_cons_of_word hw, Window.pushAll_cons]
      exact ih _ _

/-! ## 3. The n-grams that cross into a child -/

/-- What crosses to the words of two rows, one behind the other. -/
theorem crossing_append (win : Window) (place : ℕ) (a b : List WordId) :
    (crossing win place (a ++ b)).1 = (crossing win place a).1 ++
      (crossing (win.pushAll (content a)) (place + a.length) b).1 := by
  induction a generalizing win place with
  | nil => rfl
  | cons w a ih =>
    have hplace : place + 1 + a.length = place + (w :: a).length := by
      rw [List.length_cons]
      omega
    by_cases hw : w.isBoundary = true
    · rw [List.cons_append, crossing, if_pos hw, crossing, if_pos hw, ih, hplace,
        content_cons_of_boundary hw]
    · rw [List.cons_append, crossing, if_neg hw, crossing, if_neg hw, content_cons_of_word hw,
        Window.pushAll_cons, List.append_assoc, ← hplace, ← ih]

/-- **Nothing crosses to a place further on than the window is long.**  The longest n-gram that is
closed there still begins inside the child. -/
theorem crossing_eq_nil {win : Window} {place : ℕ} (h : win.recent.length ≤ place)
    (ws : List WordId) : (crossing win place ws).1 = [] := by
  induction ws generalizing win place with
  | nil => rfl
  | cons w ws ih =>
    by_cases hw : w.isBoundary = true
    · rw [crossing, if_pos hw]
      exact ih (Nat.le_succ_of_le h)
    · have hpush : (win.push w).recent.length ≤ place + 1 := by
        have hle := (rtake_suffix (win.recent ++ [w]) contextSize).length_le
        have hlen : (win.recent ++ [w]).length = win.recent.length + 1 := by simp
        exact hle.trans (hlen ▸ Nat.succ_le_succ h)
      have hnone : (win.closing w).filter (fun g => place + 1 < g.length) = [] := by
        rw [List.filter_eq_nil_iff]
        intro g hg
        have hle := Window.length_le_of_mem_closing hg
        simp only [decide_eq_true_eq, not_lt]
        omega
      rw [crossing, if_neg hw]
      simp only [hnone, ih hpush, List.append_nil]

/-- Boundaries close nothing. -/
theorem crossing_of_content_eq_nil {ws : List WordId} (h : content ws = []) (win : Window)
    (place : ℕ) : (crossing win place ws).1 = [] := by
  induction ws generalizing place with
  | nil => rfl
  | cons w ws ih =>
    have hw : w.isBoundary = true := content_eq_nil_iff.mp h w List.mem_cons_self
    rw [crossing, if_pos hw]
    exact ih (content_cons_of_boundary hw ws ▸ h) _

/-- **The left context has all the words that n-grams cross to.** -/
theorem crossing_take (win : Window) (ws : List WordId) :
    (crossing win 0 (ws.take contextSize)).1 = (crossing win 0 ws).1 := by
  conv_rhs => rw [← List.take_append_drop contextSize ws, crossing_append]
  by_cases h : ws.length ≤ contextSize
  · rw [List.drop_eq_nil_of_le h, crossing, List.append_nil]
  · have hlen : (ws.take contextSize).length = contextSize :=
      List.length_take_of_le (Nat.le_of_not_le h)
    rw [hlen, Nat.zero_add, crossing_eq_nil (Window.length_le _), List.append_nil]

/-- The n-grams that a word closes behind a row without boundaries are those that cross into the row
and those that the row closes by itself. -/
theorem closing_perm (win : Window) (ws : List WordId) (w : WordId) :
    (((win.pushAll ws).closing w).filter (fun g => ws.length + 1 < g.length) ++
      (Window.fresh.pushAll ws).closing w).Perm ((win.pushAll ws).closing w) := by
  have hshort : ((win.pushAll ws).closing w).filter (fun g => g.length ≤ ws.length + 1) =
      (Window.fresh.pushAll ws).closing w := by
    rw [Window.closing, Window.filter_suffixes, List.rtake_concat_succ, Window.recent_pushAll,
      Window.closing, Window.recent_pushAll_fresh, rtake_rtake, rtake_append,
      Nat.sub_eq_zero_of_le (Nat.min_le_left _ _), List.rtake_zero, List.nil_append, Nat.min_comm,
      ← rtake_rtake, rtake_of_length_le (Nat.le_refl ws.length)]
  have hrest : ((win.pushAll ws).closing w).filter (fun g => g.length ≤ ws.length + 1) =
      ((win.pushAll ws).closing w).filter (fun g => !decide (ws.length + 1 < g.length)) := by
    refine List.filter_congr ?_
    intro g _
    rw [← decide_not]
    exact decide_eq_decide.mpr not_lt.symm
  rw [← hshort, hrest]
  exact List.filter_append_perm _ _

/-- **Content in a child.**  Where the child's text holds no boundaries, the n-grams that cross into
it and those inside it are all that its words close.  The induction is on the words still to
be read, with those already read as the place. -/
theorem crossing_perm (win : Window) (before ws : List WordId) (h : content ws = ws) :
    ((crossing (win.pushAll before) before.length ws).1 ++
      ngramsFrom (Window.fresh.pushAll before) ws).Perm (ngramsFrom (win.pushAll before) ws) := by
  induction ws generalizing before with
  | nil => exact List.Perm.refl _
  | cons w ws ih =>
    have hfree := content_eq_self_iff.mp h
    have hw : ¬ w.isBoundary = true := hfree w List.mem_cons_self
    have hws : content ws = ws :=
      content_eq_self_iff.mpr fun u hu => hfree u (List.mem_cons_of_mem _ hu)
    have hlater := ih (before ++ [w]) hws
    rw [List.length_append, List.length_singleton, ← Window.pushAll_push,
      ← Window.pushAll_push] at hlater
    rw [crossing, if_neg hw, ngramsFrom_cons, ngramsFrom_cons]
    refine List.Perm.trans ?_ ((closing_perm win before w).append hlater)
    rw [List.perm_iff_count]
    intro g
    simp only [List.count_append]
    omega

/-- Where the words that can be crossed to stand at the beginning of a text, its boundaries are not
noticed. -/
theorem crossing_content {text : List WordId} (h : (content text).take contextSize <+: text)
    (win : Window) : (crossing win 0 text).1 = (crossing win 0 (content text)).1 := by
  obtain ⟨rest, hrest⟩ := h
  by_cases hlong : contextSize ≤ (content text).length
  · have hfront : text.take contextSize = (content text).take contextSize := by
      have htake := congrArg (List.take contextSize) hrest
      rwa [List.take_left' (List.length_take_of_le hlong), eq_comm] at htake
    rw [← crossing_take win text, hfront, crossing_take]
  · have hshort : (content text).take contextSize = content text :=
      List.take_of_length_le (Nat.le_of_not_le hlong)
    rw [hshort] at hrest
    have hnone : content rest = [] := by
      have hcontent := congrArg content hrest
      rw [content_append, content_content] at hcontent
      exact List.append_right_eq_self.mp hcontent
    conv_lhs => rw [← hrest, crossing_append, crossing_of_content_eq_nil hnone, List.append_nil]

/-- **The n-grams of a child.**  If there is content in front of the child, the words that can be
crossed to must stand at its beginning; and if there is none, nothing crosses. -/
theorem crossing_perm_of_prefix {win : Window} {front text : List WordId}
    (h : content front ≠ [] → (content text).take contextSize <+: text)
    (hwin : win.recent = (content front).rtake contextSize) :
    ((crossing win 0 (text.take contextSize)).1 ++ ngrams (content text)).Perm
      (ngramsFrom win (content text)) := by
  rw [crossing_take]
  by_cases hfront : content front = []
  · have hfresh : win = .fresh := Window.eq_of_recent_eq (by rw [hwin, hfront]; rfl)
    rw [hfresh, crossing_eq_nil (Nat.le_refl 0)]
    exact List.Perm.refl _
  · rw [crossing_content (h hfront)]
    exact crossing_perm win [] _ (content_content text)

/-! ## 4. The window behind a child -/

/-- The window behind a child with a given text, as the scorer sets it from the contexts. -/
def behind (win : Window) (text : List WordId) : Window :=
  if (text.take contextSize).length = contextSize then seed .fresh (text.rtake contextSize)
  else (crossing win 0 (text.take contextSize)).2

/-- Behind a child that fills its left context, the window has the content of the right context. -/
theorem recent_behind_of_full (win : Window) {text : List WordId} (h : contextSize ≤ text.length) :
    (behind win text).recent = content (text.rtake contextSize) := by
  have hlen : (content (text.rtake contextSize)).length ≤ contextSize := by
    refine (List.length_filter_le _ _).trans ?_
    rw [length_rtake]
    exact Nat.min_le_left _ _
  rw [behind, if_pos (List.length_take_of_le h), seed_eq_pushAll, Window.recent_pushAll_fresh,
    rtake_of_length_le hlen]

/-- A shorter child is its own left context, and moves the window by its content. -/
theorem behind_of_short (win : Window) {text : List WordId} (h : ¬ contextSize ≤ text.length) :
    behind win text = win.pushAll (content text) := by
  have hlen : (text.take contextSize).length ≠ contextSize := by
    rw [List.length_take]
    omega
  rw [behind, if_neg hlen, crossing_snd, List.take_of_length_le (Nat.le_of_not_le h)]

/-- **Behind a child the window is right again**, if the last places of a child that fills its
contexts have all that the window keeps. -/
theorem recent_behind {win : Window} {front text : List WordId}
    (h : contextSize ≤ text.length →
      content (text.rtake contextSize) = (content (front ++ text)).rtake contextSize)
    (hwin : win.recent = (content front).rtake contextSize) :
    (behind win text).recent = (content (front ++ text)).rtake contextSize := by
  by_cases hfull : contextSize ≤ text.length
  · rw [recent_behind_of_full win hfull, h hfull]
  · rw [behind_of_short win hfull, Window.recent_pushAll, hwin, content_append,
      rtake_rtake_append]

/-! ## 5. Boundaries that are out of the way -/

/-- The boundaries in the text of a child are out of the way, between the text in front of it and the
text that follows. -/
structure Clear (front text rest : List WordId) : Prop where
  /-- If n-grams can cross into the child, the words that they can cross to stand at its
  beginning. -/
  begins : content front ≠ [] → (content text).take contextSize <+: text
  /-- If content follows a child that fills its contexts, the last places of the child have all that
  the window keeps. -/
  ends : content rest ≠ [] → contextSize ≤ text.length →
    content (text.rtake contextSize) = (content (front ++ text)).rtake contextSize

/-- Boundaries are out of the way in every gap of a row of slots, behind a text. -/
def ClearSlots (texts : VertexId → List WordId) (front : List WordId) (slots : List Slot) : Prop :=
  ∀ before c after, slots = before ++ .gap c :: after →
    Clear (front ++ slotsText texts before) (texts c) (slotsText texts after)

variable {texts : VertexId → List WordId} {front text rest : List WordId} {slots : List Slot}

theorem clearSlots_nil (texts : VertexId → List WordId) (front : List WordId) :
    ClearSlots texts front [] := fun _ _ _ h => absurd h.symm (by simp)

theorem clearSlots_word {w : WordId} : ClearSlots texts front (.word w :: slots) ↔
    ClearSlots texts (front ++ [w]) slots := by
  constructor
  · intro h before c after hslots
    have hclear := h (.word w :: before) c after (by rw [hslots, List.cons_append])
    rwa [slotsText_word, ← List.singleton_append, ← List.append_assoc] at hclear
  · intro h before c after hslots
    cases before with
    | nil => cases hslots
    | cons slot before =>
      obtain ⟨rfl, hrest⟩ := List.cons.inj hslots
      have hclear := h before c after hrest
      rwa [List.append_assoc, List.singleton_append, ← slotsText_word] at hclear

theorem clearSlots_gap {c : VertexId} : ClearSlots texts front (.gap c :: slots) ↔
    Clear front (texts c) (slotsText texts slots) ∧
      ClearSlots texts (front ++ texts c) slots := by
  constructor
  · intro h
    refine ⟨?_, fun before d after hslots => ?_⟩
    · have hclear := h [] c slots rfl
      rwa [slotsText_nil, List.append_nil] at hclear
    · have hclear := h (.gap c :: before) d after (by rw [hslots, List.cons_append])
      rwa [slotsText_gap, ← List.append_assoc] at hclear
  · rintro ⟨hfirst, hrest⟩ before d after hslots
    cases before with
    | nil =>
      cases hslots
      rwa [slotsText_nil, List.append_nil]
    | cons slot before =>
      obtain ⟨rfl, hbehind⟩ := List.cons.inj hslots
      have hclear := hrest before d after hbehind
      rwa [List.append_assoc, ← slotsText_gap] at hclear

/-- The end of a row of boundaries with content behind them: dropping boundaries and taking the end
may be done in either order. -/
theorem content_rtake {a l : List WordId} (ha : content a = []) (hl : content l = l) (n : ℕ) :
    content ((a ++ l).rtake n) = l.rtake n := by
  have hfront : content (a.rtake (n - l.length)) = [] :=
    content_eq_nil_iff.mpr fun w hw => content_eq_nil_iff.mp ha w ((rtake_suffix _ _).subset hw)
  have hend : content (l.rtake n) = l.rtake n :=
    content_eq_self_iff.mpr fun w hw => content_eq_self_iff.mp hl w ((rtake_suffix _ _).subset hw)
  rw [rtake_append, content_append, hfront, hend, List.nil_append]

/-- **In a framed text boundaries are out of the way.**  Behind content a child has its boundaries last;
in front of content it has them first, so if they reach into the child there is no content in front
of it. -/
theorem clear_of_framed (hf : Framed (front ++ text ++ rest)) :
    Clear front text rest where
  begins hfront := by
    obtain ⟨l, b, htext, hl, hb⟩ := hf.left.content_then_boundaries hfront
    have hcontent : content text = l := by rw [htext, content_append, hl, hb, List.append_nil]
    rw [hcontent, htext]
    exact (List.take_prefix _ _).trans (List.prefix_append _ _)
  ends hrest hlong := by
    obtain ⟨a, l, hsplit, ha, hl⟩ := hf.boundaries_then_content hrest
    rcases List.append_eq_append_iff.mp hsplit with ⟨m, hm, htext⟩ | ⟨m, hm, hlm⟩
    · -- the boundaries reach into the child
      have hm' : content m = [] :=
        (List.append_eq_nil_iff.mp (content_append front m ▸ hm ▸ ha)).2
      have hcontent : content (front ++ text) = l := by
        rw [hsplit, content_append, ha, hl, List.nil_append]
      rw [hcontent, htext, content_rtake hm' hl]
    · -- they end in front of it, so it is content and long enough
      have htext : content text = text :=
        content_eq_self_iff.mpr fun w hw => content_eq_self_iff.mp hl w (by simp [hlm, hw])
      have hend := content_rtake content_nil htext contextSize
      rw [List.nil_append] at hend
      rw [hend, content_append, htext, rtake_append, Nat.sub_eq_zero_of_le hlong, List.rtake_zero,
        List.nil_append]

theorem clearSlots_of_framed (hf : Framed (front ++ slotsText texts slots)) :
    ClearSlots texts front slots := by
  rintro before c after rfl
  rw [slotsText_append, slotsText_gap, ← List.append_assoc, ← List.append_assoc] at hf
  exact clear_of_framed hf

/-! ## 6. The window along the slots -/

/-- The window holds the end of the content that is read, unless no content is left that could close
an n-gram. -/
def Follows (win : Window) (front rest : List WordId) : Prop :=
  content rest ≠ [] → win.recent = (content front).rtake contextSize

variable {win : Window} {w : WordId}

theorem Follows.boundary (h : Follows win front (w :: rest)) (hw : w.isBoundary = true) :
    Follows win (front ++ [w]) rest := by
  intro hrest
  have hfront : content (front ++ [w]) = content front := by
    rw [content_append, content_cons_of_boundary hw, content_nil, List.append_nil]
  rw [hfront]
  exact h (by rwa [content_cons_of_boundary hw])

theorem Follows.word (h : Follows win front (w :: rest)) (hw : ¬ w.isBoundary = true) :
    Follows (win.push w) (front ++ [w]) rest := by
  intro _
  have hlast : (win.push w).recent = (win.recent ++ [w]).rtake contextSize := rfl
  have hwin := h (by rw [content_cons_of_word hw]; exact List.cons_ne_nil _ _)
  rw [hlast, hwin, rtake_rtake_append, content_append, content_cons_of_word hw, content_nil]

theorem Follows.behind (h : Follows win front (text ++ rest)) (hclear : Clear front text rest) :
    Follows (behind win text) (front ++ text) rest := by
  intro hrest
  refine recent_behind (hclear.ends hrest) (h fun hnil => hrest ?_)
  exact (List.append_eq_nil_iff.mp (content_append text rest ▸ hnil)).2

/-- The n-grams that cross into the child and those inside it are all that its words close. -/
theorem Follows.crossing_perm (h : Follows win front (text ++ rest))
    (hclear : Clear front text rest) :
    ((crossing win 0 (text.take contextSize)).1 ++ ngrams (content text)).Perm
      (ngramsFrom win (content text)) := by
  by_cases hnil : content text = []
  · rw [crossing_take, crossing_of_content_eq_nil hnil, hnil]
    exact List.Perm.refl _
  · refine crossing_perm_of_prefix hclear.begins (h fun hall => hnil ?_)
    exact (List.append_eq_nil_iff.mp (content_append text rest ▸ hall)).1

/-- What follows a child closes n-grams as it does behind all words of the child. -/
theorem Follows.ngramsFrom_behind (h : Follows win front (text ++ rest))
    (hclear : Clear front text rest) :
    ngramsFrom (Scorer.behind win text) (content rest) =
      ngramsFrom (win.pushAll (content text)) (content rest) := by
  by_cases hrest : content rest = []
  · rw [hrest, ngramsFrom_nil, ngramsFrom_nil]
  · have hwin : win.recent = (content front).rtake contextSize := by
      refine h fun hnil => hrest ?_
      exact (List.append_eq_nil_iff.mp (content_append text rest ▸ hnil)).2
    refine congrArg (fun w => ngramsFrom w _) (Window.eq_of_recent_eq ?_)
    rw [h.behind hclear hrest, Window.recent_pushAll, content_append, hwin, rtake_rtake_append]

/-! ## 7. All slots of an edge -/

/-- What a gap adds, once its vertex is known. -/
theorem newNgrams_gap {s : Scorer K} {texts : VertexId → List WordId} {c : VertexId}
    (hc : s.Knows texts c) (win : Window) (slots : List Slot) :
    s.newNgrams win (.gap c :: slots) = (do
      let later ← s.newNgrams (Scorer.behind win (texts c)) slots
      return (crossing win 0 ((texts c).take contextSize)).1 ++ later) := by
  obtain ⟨found, hfound, hd⟩ := hc
  rw [newNgrams, hfound]
  simp only [Scorer.behind, ← hd.left, ← hd.right]
  rfl

/-- **The n-grams that slots add, and those inside the children, are those of the text.**  The text
in front of the slots is carried along. -/
theorem newNgrams_perm {s : Scorer K}
    (hk : ∀ c ∈ slots.filterMap Slot.child?, s.Knows texts c)
    (hclear : ClearSlots texts front slots) (hwin : Follows win front (slotsText texts slots)) :
    ∃ gs, s.newNgrams win slots = .ok gs ∧
      (gs ++ (slots.filterMap Slot.child?).flatMap fun c => ngrams (content (texts c))).Perm
        (ngramsFrom win (content (slotsText texts slots))) := by
  induction slots generalizing win front with
  | nil => exact ⟨[], rfl, List.Perm.refl _⟩
  | cons slot slots ih =>
    cases slot with
    | word w =>
      have hclear' := clearSlots_word.mp hclear
      rw [slotsText_word] at hwin ⊢
      by_cases hw : w.isBoundary = true
      · obtain ⟨gs, hgs, hperm⟩ := ih hk hclear' (hwin.boundary hw)
        refine ⟨gs, by rw [newNgrams, if_pos hw, hgs], ?_⟩
        rw [content_cons_of_boundary hw]
        exact hperm
      · obtain ⟨gs, hgs, hperm⟩ := ih hk hclear' (hwin.word hw)
        refine ⟨win.closing w ++ gs, by rw [newNgrams, if_neg hw, hgs]; rfl, ?_⟩
        rw [content_cons_of_word hw, ngramsFrom_cons, List.append_assoc]
        exact hperm.append_left _
    | gap c =>
      have hc : s.Knows texts c := hk c (by simp [Slot.child?])
      have hk' : ∀ d ∈ slots.filterMap Slot.child?, s.Knows texts d :=
        fun d hd => hk d (by simp [Slot.child?, hd])
      obtain ⟨hfirst, hrest⟩ := clearSlots_gap.mp hclear
      rw [slotsText_gap] at hwin ⊢
      obtain ⟨gs, hgs, hperm⟩ := ih hk' hrest (hwin.behind hfirst)
      refine ⟨(crossing win 0 ((texts c).take contextSize)).1 ++ gs,
        by rw [newNgrams_gap hc, hgs]; rfl, ?_⟩
      rw [content_append, ngramsFrom_append, ← hwin.ngramsFrom_behind hfirst]
      refine List.Perm.trans ?_ ((hwin.crossing_perm hfirst).append hperm)
      rw [List.perm_iff_count]
      intro g
      simp only [List.filterMap_cons, Slot.child?, List.flatMap_cons, List.count_append]
      omega

end Scorer

end ForestRescoring
