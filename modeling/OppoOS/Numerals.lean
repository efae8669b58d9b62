import Mathlib.Data.Nat.Digits.Lemmas

/-!
# Positional numerals

Numerals as lists of digits, the most significant one first.
-/
namespace Numerals

def value (b : ℕ) (ds : List ℕ) : ℕ := ds.foldl (fun v d => v * b + d) 0

/-- Digits below the base, no leading zero except in the numeral of 0. -/
structure IsNumeral (b n : ℕ) (ds : List ℕ) : Prop where
  digits : ∀ d ∈ ds, d < b
  nonempty : ds ≠ []
  leading : ds.head? = some 0 → ds = [0]
  value : value b ds = n

def numeral (b n : ℕ) : List ℕ := if n = 0 then [0] else (Nat.digits b n).reverse

variable {b n : ℕ} {ds : List ℕ}

theorem numeral_zero (b : ℕ) : numeral b 0 = [0] := if_pos rfl

theorem numeral_of_ne_zero (h : n ≠ 0) : numeral b n = (Nat.digits b n).reverse := if_neg h

theorem value_zero (b : ℕ) : value b [0] = 0 := by simp [value]

theorem value_eq_ofDigits (b : ℕ) (ds : List ℕ) : value b ds = Nat.ofDigits b ds.reverse := by
  rw [Nat.ofDigits_eq_foldr, List.foldr_reverse]
  simp only [value, Nat.cast_id, Nat.add_comm, Nat.mul_comm]

theorem isNumeral_numeral (hb : 1 < b) (n : ℕ) : IsNumeral b n (numeral b n) := by
  by_cases hn : n = 0
  · subst hn
    rw [numeral_zero]
    refine ⟨?_, by simp, by simp, value_zero b⟩
    intro d hd
    rw [List.mem_singleton.mp hd]
    omega
  · have hd : Nat.digits b n ≠ [] := Nat.digits_ne_nil_iff_ne_zero.mpr hn
    rw [numeral_of_ne_zero hn]
    constructor
    · intro d hd
      exact Nat.digits_lt_base hb (List.mem_reverse.mp hd)
    · simpa using hd
    · intro h
      rw [List.head?_reverse, List.getLast?_eq_getLast_of_ne_nil hd, Option.some.injEq] at h
      exact absurd h (Nat.getLast_digit_ne_zero b hn)
    · rw [value_eq_ofDigits, List.reverse_reverse, Nat.ofDigits_digits]

/-- A number has one numeral. -/
theorem IsNumeral.eq_numeral (h : IsNumeral b n ds) (hb : 1 < b) : ds = numeral b n := by
  have hv := h.value
  rw [value_eq_ofDigits] at hv
  by_cases hz : ds.head? = some 0
  · have hds := h.leading hz
    subst hds
    have hn : n = 0 := h.value.symm.trans (value_zero b)
    rw [hn, numeral_zero]
  · have hr : ds.reverse ≠ [] := by simpa using h.nonempty
    have hlast : ∀ hne : ds.reverse ≠ [], ds.reverse.getLast hne ≠ 0 := by
      intro hne h0
      rw [List.getLast_reverse] at h0
      exact hz (by rw [List.head?_eq_some_head h.nonempty, h0])
    have hdig := Nat.digits_ofDigits b hb ds.reverse
      (fun d hd => h.digits d (List.mem_reverse.mp hd)) hlast
    rw [hv] at hdig
    have hn : n ≠ 0 := by
      rintro rfl
      rw [Nat.digits_zero] at hdig
      exact hr hdig.symm
    rw [numeral_of_ne_zero hn, hdig, List.reverse_reverse]

theorem isNumeral_iff (hb : 1 < b) : IsNumeral b n ds ↔ ds = numeral b n :=
  ⟨fun h => h.eq_numeral hb, fun h => h ▸ isNumeral_numeral hb n⟩

theorem numeral_ne_nil (b n : ℕ) : numeral b n ≠ [] := by
  by_cases hn : n = 0
  · subst hn
    simp [numeral_zero]
  · rw [numeral_of_ne_zero hn]
    simpa using Nat.digits_ne_nil_iff_ne_zero.mpr hn

theorem length_numeral_le_iff (hb : 1 < b) {k : ℕ} (hk : k ≠ 0) :
    (numeral b n).length ≤ k ↔ n < b ^ k := by
  by_cases hn : n = 0
  · subst hn
    rw [numeral_zero]
    exact iff_of_true (Nat.one_le_iff_ne_zero.mpr hk) (by positivity)
  · rw [numeral_of_ne_zero hn, List.length_reverse, Nat.digits_length_le_iff hb]

end Numerals
