/-
# The order of texts is the order of their bytes

Texts are compared character by character, and the bytes that encode them byte by byte.  Both comparisons
give the same answer (`toUTF8_lt_iff`).  Two different characters differ in a byte that both
encodings have, and the first such byte is smaller for the smaller character
(`utf8EncodeChar_append_lt`): if the encodings are of different sizes, the first bytes tell them apart, and
otherwise the bytes are digits of the code points, the most significant first.
-/
import Mathlib
import ForestRescoring.Proofs.Text.Written

namespace ForestRescoring.Text

/-- The smaller of two numbers has the smaller digit where their digits to the base 64 first differ. -/
theorem digits_of_lt {m n : ℕ} (h : m < n) :
    m / 262144 < n / 262144 ∨ m / 262144 = n / 262144 ∧
      (m / 4096 % 64 < n / 4096 % 64 ∨ m / 4096 % 64 = n / 4096 % 64 ∧
        (m / 64 % 64 < n / 64 % 64 ∨ m / 64 % 64 = n / 64 % 64 ∧ m % 64 < n % 64)) := by
  have hdigits : ∀ k, k = 262144 * (k / 262144) + 4096 * (k / 4096 % 64) + 64 * (k / 64 % 64) +
      k % 64 := by
    intro k
    omega
  have hm := hdigits m
  have hn := hdigits n
  have hm3 : m / 4096 % 64 < 64 := Nat.mod_lt _ (by decide)
  have hm2 : m / 64 % 64 < 64 := Nat.mod_lt _ (by decide)
  have hm1 : m % 64 < 64 := Nat.mod_lt _ (by decide)
  have hn3 : n / 4096 % 64 < 64 := Nat.mod_lt _ (by decide)
  have hn2 : n / 64 % 64 < 64 := Nat.mod_lt _ (by decide)
  have hn1 : n % 64 < 64 := Nat.mod_lt _ (by decide)
  generalize m / 262144 = m4, m / 4096 % 64 = m3, m / 64 % 64 = m2, m % 64 = m1 at *
  generalize n / 262144 = n4, n / 4096 % 64 = n3, n / 64 % 64 = n2, n % 64 = n1 at *
  omega

/-- **The smaller character has the smaller bytes**, whatever stands behind them. -/
theorem utf8EncodeChar_append_lt {c d : Char} (h : c < d) (s t : List UInt8) :
    String.utf8EncodeChar c ++ s < String.utf8EncodeChar d ++ t := by
  have hlt : c.val.toNat < d.val.toNat := h
  have hsmall : d.val.toNat < 0x110000 := by
    rcases d.valid with h | h
    · exact h.trans (by decide)
    · exact h.2
  have hbyte : ∀ n, n < 256 → (UInt8.ofNat n).toNat = n := fun n hn => UInt8.toNat_ofNat_of_lt' hn
  have hdigits := digits_of_lt hlt
  have hfirst : ∀ k, k < 0x110000 → k / 262144 % 8 = k / 262144 := fun k hk =>
    Nat.mod_eq_of_lt (by omega)
  have hc := hfirst c.val.toNat (hlt.trans hsmall)
  have hd := hfirst d.val.toNat hsmall
  rw [String.utf8EncodeChar.eq_1, String.utf8EncodeChar.eq_1]
  generalize c.val.toNat = m at *
  generalize d.val.toNat = n at *
  split_ifs <;>
    simp (disch := omega) only [List.cons_append, List.nil_append, List.cons_lt_cons_iff,
      UInt8.lt_iff_toNat_lt, ← UInt8.toNat_inj, hbyte] <;> omega

/-- **Texts are in the order of the bytes that encode them.** -/
theorem encode_lt_encode_iff {s t : List Char} : encode s < encode t ↔ s < t := by
  have hlt : ∀ {s t : List Char}, s < t → encode s < encode t := by
    intro s
    induction s with
    | nil =>
      intro t h
      cases t with
      | nil => exact absurd h (lt_irrefl _)
      | cons d t =>
        obtain ⟨b, bs, hb⟩ := List.exists_cons_of_ne_nil (String.utf8EncodeChar_ne_nil (c := d))
        rw [encode_cons, hb]
        exact List.nil_lt_cons _ _
    | cons c s ih =>
      intro t h
      cases t with
      | nil => exact absurd h (List.not_lt_nil _)
      | cons d t =>
        rw [encode_cons, encode_cons]
        rcases List.cons_lt_cons_iff.mp h with hcd | ⟨rfl, hst⟩
        · exact utf8EncodeChar_append_lt hcd _ _
        · exact List.append_left_lt (ih hst)
  refine ⟨fun h => ?_, hlt⟩
  rcases lt_trichotomy s t with hst | rfl | hts
  · exact hst
  · exact absurd h (List.lt_irrefl _)
  · exact absurd h (List.lt_asymm (hlt hts))

/-- Strings are in the order of their bytes. -/
theorem toUTF8_lt_iff {a b : String} :
    a.toUTF8.data.toList < b.toUTF8.data.toList ↔ a < b := by
  rw [← String.ofList_toList (s := a), ← String.ofList_toList (s := b), toList_toUTF8, toList_toUTF8,
    encode_lt_encode_iff, String.lt_iff]
  simp

end ForestRescoring.Text
