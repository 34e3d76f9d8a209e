/-
# Feature vectors

A feature vector gives numbers to finitely many names and zero to all others.  Edges carry one with
the values of their features, and a model is one with a weight for each feature.

The names are kept in ascending order, as part of the type, so two vectors that hold the same pairs
are equal, and every walk over a vector (adding, multiplying, printing) is in the order of the
names.  All changes go through `alter`, which changes one name and no other (`get?_alter`).
-/
import ForestRescoring.Scalar

namespace ForestRescoring

/-- Named numbers, the names ascending. -/
structure FeatureVector (K : Type) where
  entries : List (String × K)
  ascending : entries.Pairwise fun a b => a.1 < b.1

namespace FeatureVector

variable {K : Type}

/-- No names. -/
def empty : FeatureVector K := ⟨[], .nil⟩

/-- The number of names. -/
def size (v : FeatureVector K) : Nat := v.entries.length

/-- The entry of a name replaced by what `f` makes of it; a new name goes where the order puts
it. -/
def alterEntries (name : String) (f : Option K → K) : List (String × K) → List (String × K)
  | [] => [(name, f none)]
  | e :: rest =>
    if e.1 < name then e :: alterEntries name f rest
    else if e.1 = name then (name, f (some e.2)) :: rest
    else (name, f none) :: e :: rest

/-- Altering adds no name but the one altered. -/
theorem mem_alterEntries {name : String} {f : Option K → K} {l : List (String × K)}
    {e : String × K} (h : e ∈ alterEntries name f l) : e.1 = name ∨ e ∈ l := by
  induction l with
  | nil => exact .inl (by simp [alterEntries] at h; rw [h])
  | cons d rest ih =>
    unfold alterEntries at h
    split at h
    · rcases List.mem_cons.1 h with rfl | h
      · simp
      · exact (ih h).imp id (List.mem_cons_of_mem _)
    · split at h
      · rcases List.mem_cons.1 h with rfl | h
        · simp
        · exact .inr (List.mem_cons_of_mem _ h)
      · rcases List.mem_cons.1 h with rfl | h
        · simp
        · exact .inr h

/-- Altering keeps the order. -/
theorem pairwise_alterEntries {name : String} {f : Option K → K} {l : List (String × K)}
    (h : l.Pairwise fun a b => a.1 < b.1) :
    (alterEntries name f l).Pairwise fun a b => a.1 < b.1 := by
  induction l with
  | nil => simp [alterEntries]
  | cons d rest ih =>
    obtain ⟨hd, hrest⟩ := List.pairwise_cons.1 h
    unfold alterEntries
    split
    · next hlt =>
      exact List.pairwise_cons.2 ⟨fun e he => (mem_alterEntries he).elim (fun hn => hn ▸ hlt)
        (hd e), ih hrest⟩
    · next hlt =>
      split
      · next heq => exact List.pairwise_cons.2 ⟨fun e he => heq ▸ hd e he, hrest⟩
      · next hne =>
        have hgt : name < d.1 :=
          Decidable.byContradiction fun hn => hne (String.le_antisymm hn hlt)
        refine List.pairwise_cons.2 ⟨fun e he => ?_, h⟩
        rcases List.mem_cons.1 he with rfl | he
        · exact hgt
        · exact String.lt_trans hgt (hd e he)

/-- Replaces the number of one name by what `f` makes of it. -/
def alter (v : FeatureVector K) (name : String) (f : Option K → K) : FeatureVector K :=
  ⟨alterEntries name f v.entries, pairwise_alterEntries v.ascending⟩

/-- Gives a name a number, whatever it had before. -/
def set (v : FeatureVector K) (name : String) (value : K) : FeatureVector K :=
  v.alter name fun _ => value

/-- The number of a name, if it has one. -/
def get? (v : FeatureVector K) (name : String) : Option K := v.entries.lookup name

@[simp] theorem get?_empty (name : String) : (empty : FeatureVector K).get? name = none := rfl

/-- The entry of another name says nothing. -/
theorem lookup_cons_of_ne {name k : String} (h : name ≠ k) (x : K) (l : List (String × K)) :
    List.lookup name ((k, x) :: l) = l.lookup name := by
  rw [List.lookup_cons, beq_false_of_ne h]

/-- In ascending order nothing in front of a name is equal to it, so its entry is the first that is
not below it. -/
theorem lookup_alterEntries {name : String} {f : Option K → K} {l : List (String × K)}
    (h : l.Pairwise fun a b => a.1 < b.1) (other : String) :
    (alterEntries name f l).lookup other =
      if other = name then some (f (l.lookup name)) else l.lookup other := by
  induction l with
  | nil =>
    by_cases ho : other = name
    · subst ho; simp [alterEntries]
    · rw [alterEntries, lookup_cons_of_ne ho, if_neg ho]
  | cons d rest ih =>
    obtain ⟨hd, hrest⟩ := List.pairwise_cons.1 h
    obtain ⟨k, x⟩ := d
    unfold alterEntries
    split
    · next hlt =>
      have hne : name ≠ k := fun e => String.lt_irrefl k (e ▸ hlt)
      by_cases hk : other = k
      · subst hk; simp [Ne.symm hne]
      · rw [lookup_cons_of_ne hk, ih hrest, lookup_cons_of_ne hne, lookup_cons_of_ne hk]
    · next hlt =>
      split
      · next heq =>
        have heq : k = name := heq
        subst heq
        by_cases ho : other = k
        · subst ho; simp
        · rw [lookup_cons_of_ne ho, lookup_cons_of_ne ho, if_neg ho]
      · next hne =>
        have hgt : name < k := Decidable.byContradiction fun hn => hne (String.le_antisymm hn hlt)
        have hnone : List.lookup name ((k, x) :: rest) = none := by
          rw [List.lookup_eq_none_iff]
          intro p hp
          rw [bne_iff_ne]
          rcases List.mem_cons.1 hp with rfl | hp
          · exact Ne.symm hne
          · have hlt : name < p.1 := String.lt_trans hgt (hd p hp)
            exact fun e => String.lt_irrefl p.1 (e ▸ hlt)
        rw [hnone]
        by_cases ho : other = name
        · subst ho; simp
        · rw [lookup_cons_of_ne ho, if_neg ho]

/-- **Altering is pointwise.**  The altered name has the new number and every other name its own. -/
theorem get?_alter (v : FeatureVector K) (name : String) (f : Option K → K) (other : String) :
    (v.alter name f).get? other = if other = name then some (f (v.get? name)) else v.get? other :=
  lookup_alterEntries v.ascending other

/-- A name that is set has the number it was given. -/
theorem get?_set (v : FeatureVector K) (name : String) (value : K) (other : String) :
    (v.set name value).get? other = if other = name then some value else v.get? other :=
  get?_alter v name _ other

/-- The vector that pairs give, the last pair of a name deciding. -/
def ofList (pairs : List (String × K)) : FeatureVector K :=
  pairs.foldl (fun v p => v.set p.1 p.2) empty

variable [Scalar K]

/-- The number of a name, zero if it has none. -/
def get (v : FeatureVector K) (name : String) : K := (v.get? name).getD Scalar.zero

/-- Adds the numbers of the second vector to those of the first, a name that is new starting from
zero. -/
def add (v w : FeatureVector K) : FeatureVector K :=
  w.entries.foldl (fun v e => v.alter e.1 fun old => old.getD Scalar.zero + e.2) v

/-- The products of the numbers of the first vector with those of the second, added in the order of
the names. -/
def dotAlong (v w : FeatureVector K) : K :=
  Scalar.sum (v.entries.map fun e => e.2 * w.get e.1)

/-- The scalar product, walking over the vector with fewer names, or the first if they have
equally many. -/
def dot (v w : FeatureVector K) : K := if v.size ≤ w.size then v.dotAlong w else w.dotAlong v

/-- Both vectors have the same names with the same numbers. -/
def same (v w : FeatureVector K) : Bool :=
  v.entries.length == w.entries.length &&
    (v.entries.zip w.entries).all fun p => p.1.1 == p.2.1 && Scalar.same p.1.2 p.2.2

end FeatureVector

end ForestRescoring
