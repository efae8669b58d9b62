import OppoOS.Numerals

/-!
# Converting numbers

`utoa`, the same text in `klib/stdio.c` and `user/libc/stdio.c`. Its scratch array has 32
cells; a digit outside it or beyond the digit table is `none`.
-/
namespace Conversion

open Numerals

def byte (ch : Char) : UInt8 := UInt8.ofNat ch.toNat

/-- `"0123456789ABCDEF"` with its terminator. -/
def digits : List UInt8 :=
  ['0', '1', '2', '3', '4', '5', '6', '7', '8', '9', 'A', 'B', 'C', 'D', 'E', 'F'].map byte ++ [0]

/-- `sizeof(temp)`. -/
def tempSize : ℕ := 32

/-- The division loop. `temp` holds the cells written, `i` of them; `room` is how many are
left. -/
def divideLoop (base : BitVec 64) : ℕ → BitVec 64 → List UInt8 → Option (List UInt8)
  | 0, value, temp => if value > 0 then none else some temp
  | room + 1, value, temp =>
    if value > 0 then
      if base = 0 then none
      else do
        let digit ← digits[(value % base).toNat]?
        divideLoop base room (value / base) (temp ++ [digit])
    else some temp

def reverseLoop (temp : List UInt8) : ℕ → List UInt8 → Option (List UInt8)
  | 0, buffer => some buffer
  | i + 1, buffer => do
    let digit ← temp[i]?
    reverseLoop temp i (buffer ++ [digit])

def utoa (value : BitVec 64) (base : BitVec 32) : Option (List UInt8) :=
  if value = 0 then some [byte '0', 0]
  else do
    let temp ← divideLoop (base.signExtend 64) tempSize value []
    let buffer ← reverseLoop temp temp.length []
    some (buffer ++ [0])

def digitChar (d : ℕ) : UInt8 := digits.getD d 0

def chars (ds : List ℕ) : List UInt8 := ds.map digitChar

theorem digits_getElem {d : ℕ} (h : d ≤ 16) : digits[d]? = some (digitChar d) := by
  have hlt : d < digits.length := Nat.lt_of_le_of_lt h (by decide)
  rw [digitChar, List.getD_eq_getElem?_getD, List.getElem?_eq_getElem hlt, Option.getD_some]

section
variable {base : BitVec 64}

/-- The loop appends the digits, the last one first, if there is room for all of them. -/
theorem divideLoop_eq (hlo : 2 ≤ base.toNat) (hhi : base.toNat ≤ 16) (room : ℕ)
    (value : BitVec 64) (temp : List UInt8) :
    divideLoop base room value temp =
      if (Nat.digits base.toNat value.toNat).length ≤ room then
        some (temp ++ chars (Nat.digits base.toNat value.toNat))
      else none := by
  induction room generalizing value temp with
  | zero =>
    by_cases hv : value > 0
    · have hd : Nat.digits base.toNat value.toNat ≠ [] :=
        Nat.digits_ne_nil_iff_ne_zero.mpr (by
          rw [gt_iff_lt, BitVec.lt_def] at hv
          exact Nat.ne_zero_of_lt hv)
      rw [divideLoop, if_pos hv, if_neg]
      have hlen := List.length_pos_iff.mpr hd
      omega
    · obtain rfl : value = 0 := by
        rw [gt_iff_lt, BitVec.lt_def] at hv
        exact BitVec.eq_of_toNat_eq (Nat.eq_zero_of_not_pos hv)
      simp [divideLoop, chars]
  | succ room ih =>
    by_cases hv : value > 0
    · have hbase : base ≠ 0 := by
        rintro rfl
        exact absurd hlo (by decide)
      have hpos : 0 < value.toNat := hv
      have hmod : (value % base).toNat = value.toNat % base.toNat := BitVec.toNat_umod ..
      have hdiv : (value / base).toNat = value.toNat / base.toNat := BitVec.toNat_udiv ..
      have hlt := Nat.mod_lt value.toNat (by omega : 0 < base.toNat)
      rw [divideLoop, if_pos hv, if_neg hbase, hmod, digits_getElem (by omega)]
      simp only [Option.bind_eq_bind, Option.bind_some]
      rw [ih, hdiv, Nat.digits_of_two_le_of_pos hlo hpos]
      simp [chars]
    · obtain rfl : value = 0 := by
        rw [gt_iff_lt, BitVec.lt_def] at hv
        exact BitVec.eq_of_toNat_eq (Nat.eq_zero_of_not_pos hv)
      simp [divideLoop, chars]

end

theorem reverseLoop_eq (temp : List UInt8) (i : ℕ) (hi : i ≤ temp.length) (buffer : List UInt8) :
    reverseLoop temp i buffer = some (buffer ++ (temp.take i).reverse) := by
  induction i generalizing buffer with
  | zero => simp [reverseLoop]
  | succ i ih =>
    have hlt : i < temp.length := hi
    rw [reverseLoop, List.getElem?_eq_getElem hlt]
    simp only [Option.bind_eq_bind, Option.bind_some]
    rw [ih (by omega), List.take_succ_eq_append_getElem hlt, List.reverse_append,
      List.reverse_singleton, List.append_assoc]

theorem base_toNat {base : BitVec 32} (h : base.toNat ≤ 16) :
    (base.signExtend 64).toNat = base.toNat := by
  rw [BitVec.toNat_signExtend, BitVec.msb_eq_false_iff_two_mul_lt.mpr (by omega),
    BitVec.toNat_setWidth]
  simp only [Bool.false_eq_true, if_false, Nat.add_zero]
  exact Nat.mod_eq_of_lt (by omega)

theorem utoa_eq {base : BitVec 32} (value : BitVec 64) (hlo : 2 ≤ base.toNat)
    (hhi : base.toNat ≤ 16) :
    utoa value base =
      if value.toNat < base.toNat ^ tempSize then
        some (chars (numeral base.toNat value.toNat) ++ [0])
      else none := by
  have hb := base_toNat hhi
  by_cases hv : value = 0
  · subst hv
    rw [utoa, if_pos rfl, if_pos (by positivity)]
    rfl
  · have hn : value.toNat ≠ 0 := fun h => hv (BitVec.eq_of_toNat_eq h)
    rw [utoa, if_neg hv, divideLoop_eq (by omega) (by omega), hb]
    simp only [Nat.digits_length_le_iff (by omega : 1 < base.toNat)]
    split
    · rw [numeral_of_ne_zero hn]
      simp only [Option.bind_eq_bind, Option.bind_some, List.nil_append]
      rw [reverseLoop_eq _ _ le_rfl]
      simp [chars]
    · rfl

/-- `utoa` returns, within its scratch array, with the one numeral of the value in `buffer`,
NUL-terminated. -/
def Converts (value : BitVec 64) (base : BitVec 32) : Prop :=
  ∃ ds, (∀ es, IsNumeral base.toNat value.toNat es ↔ es = ds) ∧
    utoa value base = some (chars ds ++ [0])

/-- The scratch array takes 32 digits: for the bases 2 and 3 this is less than some 64-bit
values need. -/
theorem utoa_converts_iff (value : BitVec 64) (base : BitVec 32) (hlo : 2 ≤ base.toNat)
    (hhi : base.toNat ≤ 16) : Converts value base ↔ value.toNat < base.toNat ^ tempSize := by
  rw [Converts, utoa_eq value hlo hhi]
  constructor
  · rintro ⟨ds, -, h⟩
    split at h
    · assumption
    · cases h
  · intro h
    exact ⟨numeral base.toNat value.toNat, fun es => isNumeral_iff (by omega), if_pos h⟩

theorem utoa_converts_decimal : Converts 1234567890 10 ↔ 1234567890 < 10 ^ 32 :=
  utoa_converts_iff 1234567890 10 (by decide) (by decide)

/-- 2^32 has 33 binary digits. -/
theorem utoa_overruns_temp : ¬ Converts (BitVec.ofNat 64 (2 ^ 32)) 2 ∧
    utoa (BitVec.ofNat 64 (2 ^ 32)) 2 = none := by
  have h : utoa (BitVec.ofNat 64 (2 ^ 32)) 2 = none := by decide
  refine ⟨?_, h⟩
  rintro ⟨ds, -, hds⟩
  rw [h] at hds
  cases hds

theorem fits_temp {base : BitVec 32} (value : BitVec 64) (h : 4 ≤ base.toNat) :
    value.toNat < base.toNat ^ tempSize := by
  have hv := value.isLt
  have hp : 4 ^ tempSize ≤ base.toNat ^ tempSize := Nat.pow_le_pow_left h _
  have h4 : 4 ^ tempSize = 2 ^ 64 := by decide
  omega

theorem utoa_some {base : BitVec 32} (value : BitVec 64) (hlo : 4 ≤ base.toNat)
    (hhi : base.toNat ≤ 16) :
    utoa value base = some (chars (numeral base.toNat value.toNat) ++ [0]) := by
  rw [utoa_eq value (by omega) hhi, if_pos (fits_temp value hlo)]

end Conversion
