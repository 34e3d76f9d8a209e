/-
# Calculations that may fail

A chain of calculations succeeds if each link does, and then every link's result is at hand.  It
fails with the failure of the first link that does not (`FailsFor.bind`, `FailsFor.mapM`).

Two chains come out alike if their links do: with results that go together, or with the same failure
(`Alike.bind`, `Alike.mapM`, `Alike.foldlM`).
-/
import Mathlib

namespace ForestRescoring

variable {ε α β : Type}

/-- Two calculations in a row succeed if the first does and the second does with its result. -/
theorem bind_eq_ok_iff {x : Except ε α} {f : α → Except ε β} {b : β} :
    (x >>= f) = .ok b ↔ ∃ a, x = .ok a ∧ f a = .ok b := by
  cases x with
  | error e =>
    constructor
    · rintro ⟨⟩
    · rintro ⟨a, ⟨⟩, -⟩
  | ok a =>
    constructor
    · exact fun h => ⟨a, rfl, h⟩
    · rintro ⟨a', ⟨⟩, h⟩
      exact h

/-- Two calculations in a row fail if the first does, or the second does with its result. -/
theorem bind_eq_error_iff {x : Except ε α} {f : α → Except ε β} {e : ε} :
    (x >>= f) = .error e ↔ x = .error e ∨ ∃ a, x = .ok a ∧ f a = .error e := by
  cases x with
  | error e' =>
    constructor
    · rintro ⟨⟩
      exact .inl rfl
    · rintro (⟨⟨⟩⟩ | ⟨a, ⟨⟩, -⟩)
      rfl
  | ok a =>
    constructor
    · exact fun h => .inr ⟨a, rfl, h⟩
    · rintro (⟨⟨⟩⟩ | ⟨a', ⟨⟩, h⟩)
      exact h

/-- What is made of a result is there if the result is. -/
theorem map_eq_ok_iff {x : Except ε α} {f : α → β} {b : β} :
    x.map f = .ok b ↔ ∃ a, x = .ok a ∧ f a = b := by
  cases x with
  | error e => simp [Except.map]
  | ok a => simp [Except.map]

theorem map_eq_error_iff {x : Except ε α} {f : α → β} {e : ε} :
    x.map f = .error e ↔ x = .error e := by
  cases x with
  | error e => simp [Except.map]
  | ok a => simp [Except.map]

/-- Where failures are reported in another way, the results are the same. -/
theorem mapError_eq_ok_iff {ε' : Type} {x : Except ε α} {f : ε → ε'} {a : α} :
    x.mapError f = .ok a ↔ x = .ok a := by
  cases x with
  | error e => simp [Except.mapError]
  | ok a => simp [Except.mapError]

theorem mapError_eq_error_iff {ε' : Type} {x : Except ε α} {f : ε → ε'} {e' : ε'} :
    x.mapError f = .error e' ↔ ∃ e, x = .error e ∧ f e = e' := by
  cases x with
  | error e => simp [Except.mapError]
  | ok a => simp [Except.mapError]

theorem toOption_eq_some_iff {x : Except ε α} {a : α} : x.toOption = some a ↔ x = .ok a := by
  cases x with
  | error e => simp [Except.toOption]
  | ok b => simp [Except.toOption]

/-- What is made of a result is there if the result is, also where failures are forgotten. -/
theorem toOption_map_eq_some_iff {x : Except ε α} {f : α → β} {b : β} :
    x.toOption.map f = some b ↔ ∃ a, x = .ok a ∧ f a = b := by
  cases x with
  | error e => simp [Except.toOption]
  | ok a => simp [Except.toOption]

/-- A calculation for each entry of a list succeeds if all of them do. -/
theorem mapM_eq_ok_iff {f : α → Except ε β} {as : List α} {bs : List β} :
    as.mapM f = .ok bs ↔ List.Forall₂ (fun a b => f a = .ok b) as bs := by
  induction as generalizing bs with
  | nil =>
    rw [List.mapM_nil, List.forall₂_nil_left_iff]
    constructor
    · rintro ⟨⟩
      rfl
    · rintro rfl
      rfl
  | cons a as ih =>
    rw [List.mapM_cons, bind_eq_ok_iff, List.forall₂_cons_left_iff]
    constructor
    · rintro ⟨b, hb, h⟩
      obtain ⟨cs, hcs, h⟩ := bind_eq_ok_iff.mp h
      cases h
      exact ⟨b, cs, hb, ih.mp hcs, rfl⟩
    · rintro ⟨b, cs, hb, hcs, rfl⟩
      exact ⟨b, hb, bind_eq_ok_iff.mpr ⟨cs, ih.mpr hcs, rfl⟩⟩

/-- A calculation for what an option holds succeeds if there is none to be done or it does. -/
theorem optionMapM_eq_ok_iff {f : α → Except ε β} {a : Option α} {b : Option β} :
    a.mapM f = .ok b ↔ Option.Rel (fun a b => f a = .ok b) a b := by
  cases a with
  | none =>
    constructor
    · rintro ⟨⟩
      exact .none
    · rintro ⟨⟩
      rfl
  | some a =>
    constructor
    · intro h
      rw [Option.mapM_some] at h
      cases hb : f a with
      | error e =>
        rw [hb] at h
        cases h
      | ok b =>
        rw [hb] at h
        cases h
        exact .some hb
    · rintro ⟨⟩
      rename_i h
      rw [Option.mapM_some, h]
      rfl

/-- What two options hold goes together in a weaker sense too. -/
theorem optionRel_imp {R S : α → β → Prop} {a : Option α} {b : Option β} (h : Option.Rel R a b)
    (hRS : ∀ a b, R a b → S a b) : Option.Rel S a b := by
  cases h with
  | some hab => exact .some (hRS _ _ hab)
  | none => exact .none

/-- There is a list of results if and only if each entry has one. -/
theorem exists_forall₂_iff {R : α → β → Prop} {as : List α} :
    (∃ bs, List.Forall₂ R as bs) ↔ ∀ a ∈ as, ∃ b, R a b := by
  induction as with
  | nil => exact ⟨fun _ a ha => (List.not_mem_nil ha).elim, fun _ => ⟨[], .nil⟩⟩
  | cons a as ih =>
    rw [List.forall_mem_cons, ← ih]
    constructor
    · rintro ⟨_, hb | ⟨hb, hbs⟩⟩
      exact ⟨⟨_, hb⟩, ⟨_, hbs⟩⟩
    · rintro ⟨⟨b, hb⟩, bs, hbs⟩
      exact ⟨b :: bs, .cons hb hbs⟩

/-- Each entry of the second list goes together with one of the first. -/
theorem exists_mem_of_forall₂ {R : α → β → Prop} {as : List α} {bs : List β}
    (h : List.Forall₂ R as bs) {b : β} (hb : b ∈ bs) : ∃ a ∈ as, R a b := by
  induction h with
  | nil => cases hb
  | @cons a c as bs hac _ ih =>
    rcases List.mem_cons.mp hb with rfl | hb
    · exact ⟨a, List.mem_cons_self, hac⟩
    · obtain ⟨d, hd, hdb⟩ := ih hb
      exact ⟨d, List.mem_cons_of_mem a hd, hdb⟩

/-- Entries at one position go together. -/
theorem getElem?_of_forall₂ {R : α → β → Prop} {as : List α} {bs : List β}
    (h : List.Forall₂ R as bs) (i : ℕ) : Option.Rel R as[i]? bs[i]? := by
  induction h generalizing i with
  | nil => exact .none
  | cons hab _ ih =>
    cases i with
    | zero => exact .some hab
    | succ i => exact ih i

/-- Entries that go together with one entry go together. -/
theorem forall₂_of_forall₂ {γ : Type} {R : α → β → Prop} {S : α → γ → Prop} {T : β → γ → Prop}
    {as : List α} {bs : List β} {cs : List γ} (hR : List.Forall₂ R as bs)
    (hS : List.Forall₂ S as cs) (hT : ∀ a b c, R a b → S a c → T b c) : List.Forall₂ T bs cs := by
  induction hR generalizing cs with
  | nil =>
    cases hS
    exact .nil
  | cons hab _ ih =>
    cases hS with
    | cons hac hS => exact .cons (hT _ _ _ hab hac) (ih hS)

/-- Two lists whose entries go together look the same where the entries do. -/
theorem map_eq_of_forall₂ {γ : Type} {R : α → β → Prop} {f : α → γ} {g : β → γ} {as : List α}
    {bs : List β} (h : List.Forall₂ R as bs) (hfg : ∀ a b, R a b → g b = f a) :
    bs.map g = as.map f := by
  induction h with
  | nil => rfl
  | cons hab _ ih => rw [List.map_cons, List.map_cons, hfg _ _ hab, ih]

/-! ## Failures -/

/-- Why a calculation fails, if it does. -/
def failure? : Except ε α → Option ε
  | .error e => some e
  | .ok _ => none

theorem failure?_eq_none_iff {x : Except ε α} : failure? x = none ↔ ∃ a, x = .ok a := by
  cases x with
  | error e => simp [failure?]
  | ok a => simp [failure?]

theorem failure?_eq_some_iff {x : Except ε α} {e : ε} : failure? x = some e ↔ x = .error e := by
  cases x with
  | error e => simp [failure?]
  | ok a => simp [failure?]

/-- A calculation fails for a given reason, if for any; or else, where something is so, for another
one. -/
def FailsFor (other : ε) (p : Prop) (x : Except ε α) (e : Option ε) : Prop :=
  failure? x = e ∨ p ∧ x = .error other

/-- Two calculations in a row fail as the first does, or else as the second does. -/
theorem FailsFor.bind {other : ε} {p : Prop} {x : Except ε α} {f : α → Except ε β}
    {e e' : Option ε} (hx : FailsFor other p x e)
    (hf : ∀ a, x = .ok a → FailsFor other p (f a) e') : FailsFor other p (x >>= f) (e.or e') := by
  rcases hx with rfl | ⟨hp, rfl⟩
  · cases x with
    | error cause => exact .inl rfl
    | ok a => exact hf a rfl
  · exact .inr ⟨hp, rfl⟩

/-- Calculations for the entries of a list fail as the first that fails. -/
theorem FailsFor.mapM {other : ε} {p : Prop} {f : α → Except ε β} {e : α → Option ε} {as : List α}
    (h : ∀ a ∈ as, FailsFor other p (f a) (e a)) :
    FailsFor other p (as.mapM f) (as.findSome? e) := by
  induction as with
  | nil => exact .inl rfl
  | cons a as ih =>
    obtain ⟨ha, has⟩ := List.forall_mem_cons.mp h
    have hrest : ∀ b, f a = .ok b →
        FailsFor other p (as.mapM f >>= fun bs => pure (b :: bs)) (as.findSome? e) := by
      intro b _
      have hlater : FailsFor other p (as.mapM f >>= fun bs => pure (b :: bs))
          ((as.findSome? e).or none) := (ih has).bind fun _ _ => .inl rfl
      rwa [Option.or_none] at hlater
    have hall := ha.bind hrest
    rw [List.mapM_cons, List.findSome?_cons]
    cases hea : e a with
    | none => rwa [hea] at hall
    | some cause => rwa [hea] at hall

/-! ## Calculations that come out alike -/

/-- Two calculations have results that go together, or the same failure. -/
inductive Alike (R : α → β → Prop) : Except ε α → Except ε β → Prop where
  | ok {a : α} {b : β} (h : R a b) : Alike R (.ok a) (.ok b)
  | error (e : ε) : Alike R (.error e) (.error e)

namespace Alike

variable {γ δ : Type} {R : α → β → Prop} {S : γ → δ → Prop}

/-- Calculations that fail for the same reasons come out alike if their results go together. -/
theorem of_failure? {x : Except ε α} {y : Except ε β} (hfail : failure? y = failure? x)
    (h : ∀ a b, x = .ok a → y = .ok b → R a b) : Alike R x y := by
  cases x with
  | error e =>
    cases failure?_eq_some_iff.mp hfail
    exact .error e
  | ok a =>
    obtain ⟨b, rfl⟩ := failure?_eq_none_iff.mp hfail
    exact .ok (h a b rfl rfl)

theorem bind {x : Except ε α} {y : Except ε β} {f : α → Except ε γ} {g : β → Except ε δ}
    (h : Alike R x y) (hfg : ∀ a b, R a b → Alike S (f a) (g b)) : Alike S (x >>= f) (y >>= g) := by
  cases h with
  | ok hab => exact hfg _ _ hab
  | error e => exact .error e

theorem mapM {f : γ → Except ε α} {g : γ → Except ε β} {cs : List γ}
    (h : ∀ c ∈ cs, Alike R (f c) (g c)) : Alike (List.Forall₂ R) (cs.mapM f) (cs.mapM g) := by
  induction cs with
  | nil => exact .ok .nil
  | cons c cs ih =>
    obtain ⟨hc, hcs⟩ := List.forall_mem_cons.mp h
    rw [List.mapM_cons, List.mapM_cons]
    exact hc.bind fun a b hab => (ih hcs).bind fun as bs hall => .ok (.cons hab hall)

theorem foldlM {f : α → γ → Except ε α} {g : β → γ → Except ε β}
    (h : ∀ a b c, R a b → Alike R (f a c) (g b c)) {a : α} {b : β} (hab : R a b) (cs : List γ) :
    Alike R (cs.foldlM f a) (cs.foldlM g b) := by
  induction cs generalizing a b with
  | nil => exact .ok hab
  | cons c cs ih =>
    rw [List.foldlM_cons, List.foldlM_cons]
    exact (h a b c hab).bind fun a' b' hab' => ih hab'

end Alike

end ForestRescoring
