import OppoOS.Printf
import Mathlib.Data.BitVec

/-!
# Decimal output

What `vprintf` puts for `%d` and `%u`, read back as a number. `%d` negates in 32 bits, and `%u`
takes its argument as an `int`.
-/
namespace DecimalOutput

open ByteMemory Numerals Conversion FormatScan Printf

def Prints (lib : Library) (format : Mem) (args : List Arg) (s : List UInt8) : Prop :=
  ∃ fuel out, vprintf lib format args fuel = some out ∧ out.map Put.ch = s

def digitValue (ch : UInt8) : Option ℕ :=
  if 48 ≤ ch.toNat ∧ ch.toNat ≤ 57 then some (ch.toNat - 48) else none

def digitValues : List UInt8 → Option (List ℕ)
  | [] => some []
  | ch :: s => (digitValue ch).bind fun d => (digitValues s).map fun ds => d :: ds

def parseNat (s : List UInt8) : Option ℕ :=
  if s = [] then none else (digitValues s).map (value 10)

def parseDecimal : List UInt8 → Option ℤ
  | [] => none
  | ch :: s =>
    if ch = byte '-' then Option.map (fun n : ℕ => -(n : ℤ)) (parseNat s)
    else Option.map (fun n : ℕ => (n : ℤ)) (parseNat (ch :: s))

/-- A decimal numeral, or a minus sign and one of a number that is not 0. -/
def Canonical (s : List UInt8) : Prop :=
  ∃ n ds, IsNumeral 10 n ds ∧ (s = chars ds ∨ n ≠ 0 ∧ s = byte '-' :: chars ds)

/-- The call with this one argument prints the canonical numeral of `v`. -/
def Faithful (lib : Library) (format : Mem) (arg : Arg) (v : ℤ) : Prop :=
  ∃ s, Prints lib format [arg] s ∧ Canonical s ∧ parseDecimal s = some v

theorem digitValue_digitChar : ∀ d, d < 10 → digitValue (digitChar d) = some d := by decide

theorem digitChar_ne_minus : ∀ d, d < 10 → digitChar d ≠ byte '-' := by decide

theorem digitValues_chars {ds : List ℕ} (h : ∀ d ∈ ds, d < 10) :
    digitValues (chars ds) = some ds := by
  induction ds with
  | nil => rfl
  | cons d ds ih =>
    have hd := digitValue_digitChar d (h d List.mem_cons_self)
    have hds := ih fun e he => h e (List.mem_cons_of_mem _ he)
    rw [chars] at hds
    rw [chars, List.map_cons, digitValues, hd, Option.bind_some, hds, Option.map_some]

section
variable {n : ℕ} {ds : List ℕ}

theorem parseNat_chars (h : IsNumeral 10 n ds) : parseNat (chars ds) = some n := by
  have hne : chars ds ≠ [] := by simpa [chars] using h.nonempty
  rw [parseNat, if_neg hne, digitValues_chars h.digits, Option.map_some, h.value]

theorem parseDecimal_chars (h : IsNumeral 10 n ds) : parseDecimal (chars ds) = some (n : ℤ) := by
  have hn := parseNat_chars h
  cases ds with
  | nil => exact absurd rfl h.nonempty
  | cons d ds =>
    have hd := digitChar_ne_minus d (h.digits d List.mem_cons_self)
    rw [chars, List.map_cons] at hn ⊢
    rw [parseDecimal, if_neg hd, hn, Option.map_some]

theorem parseDecimal_minus (h : IsNumeral 10 n ds) :
    parseDecimal (byte '-' :: chars ds) = some (-(n : ℤ)) := by
  rw [parseDecimal, if_pos rfl, parseNat_chars h, Option.map_some]

end

def intPrinted (v : BitVec 32) : ℤ :=
  if v.slt 0 then -(((-v).signExtend 64).toNat : ℤ) else ((v.signExtend 64).toNat : ℤ)

theorem decimal_isNumeral (n : ℕ) : IsNumeral 10 n (numeral 10 n) :=
  isNumeral_numeral (by decide) n

theorem parse_decimalText (value : BitVec 64) :
    parseDecimal (decimalText value) = some (value.toNat : ℤ) :=
  parseDecimal_chars (decimal_isNumeral _)

theorem parse_intText (v : BitVec 32) : parseDecimal (intText v) = some (intPrinted v) := by
  unfold intText intPrinted
  split
  · exact parseDecimal_minus (decimal_isNumeral _)
  · exact parse_decimalText _

theorem canonical_decimalText (value : BitVec 64) : Canonical (decimalText value) :=
  ⟨_, _, decimal_isNumeral _, Or.inl rfl⟩

theorem signExtend_low {v : BitVec 32} (h : v.toNat < 2 ^ 31) :
    (v.signExtend 64).toNat = v.toNat := by
  rw [BitVec.toNat_signExtend, BitVec.msb_eq_false_iff_two_mul_lt.mpr (by omega),
    BitVec.toNat_setWidth]
  simp only [Bool.false_eq_true, if_false, Nat.add_zero]
  omega

theorem signExtend_high {v : BitVec 32} (h : 2 ^ 31 ≤ v.toNat) :
    (v.signExtend 64).toNat = v.toNat + (2 ^ 64 - 2 ^ 32) := by
  have hlt := v.isLt
  rw [BitVec.toNat_signExtend, BitVec.msb_eq_true_iff_two_mul_ge.mpr (by omega),
    BitVec.toNat_setWidth]
  simp only [if_true]
  omega

theorem slt_zero_iff (v : BitVec 32) : v.slt 0 = true ↔ 2 ^ 31 ≤ v.toNat := by
  change v.slt 0#32 = true ↔ _
  rw [BitVec.slt_zero_iff_msb_cond, BitVec.msb_eq_true_iff_two_mul_ge]
  omega

theorem toNat_neg_high {v : BitVec 32} (h : 2 ^ 31 ≤ v.toNat) :
    (-v).toNat = 2 ^ 32 - v.toNat := by
  rw [BitVec.toNat_neg, Nat.mod_eq_of_lt (by omega)]

theorem intPrinted_eq (v : BitVec 32) :
    intPrinted v =
      if v.toNat < 2 ^ 31 then (v.toNat : ℤ)
      else if v.toNat = 2 ^ 31 then -(2 ^ 64 - 2 ^ 31)
      else (v.toNat : ℤ) - 2 ^ 32 := by
  have hlt := v.isLt
  unfold intPrinted
  by_cases hv : v.toNat < 2 ^ 31
  · have hs : ¬ v.slt 0 = true := by
      rw [slt_zero_iff]
      omega
    rw [if_neg hs, if_pos hv, signExtend_low hv]
  · have hneg := toNat_neg_high (Nat.le_of_not_lt hv)
    rw [if_pos ((slt_zero_iff v).mpr (by omega)), if_neg hv]
    by_cases hmin : v.toNat = 2 ^ 31
    · rw [if_pos hmin, signExtend_high (by omega), hneg, hmin]
      norm_num
    · rw [if_neg hmin, signExtend_low (by omega), hneg]
      omega

theorem intPrinted_injective {v w : BitVec 32} (h : intPrinted v = intPrinted w) : v = w := by
  have hv := v.isLt
  have hw := w.isLt
  apply BitVec.eq_of_toNat_eq
  rw [intPrinted_eq, intPrinted_eq] at h
  split_ifs at h <;> omega

theorem intPrinted_eq_iff (v : BitVec 32) : intPrinted v = v.toInt ↔ v ≠ BitVec.intMin 32 := by
  have hlt := v.isLt
  have hmin : v = BitVec.intMin 32 ↔ v.toNat = 2 ^ 31 :=
    ⟨fun h => h ▸ by decide, fun h => BitVec.eq_of_toNat_eq (h.trans (by decide))⟩
  rw [Ne, hmin, intPrinted_eq, BitVec.toInt_eq_toNat_cond]
  split_ifs <;> omega

theorem unsignedPrinted_eq_iff (v : BitVec 32) :
    (v.signExtend 64).toNat = v.toNat ↔ v.toNat < 2 ^ 31 := by
  constructor
  · intro h
    by_contra hge
    rw [signExtend_high (by omega)] at h
    omega
  · exact signExtend_low

theorem unsignedPrinted_injective {v w : BitVec 32}
    (h : (v.signExtend 64).toNat = (w.signExtend 64).toNat) : v = w := by
  have hs := BitVec.eq_of_toNat_eq h
  have hv := v.isLt
  have hw := w.isLt
  apply BitVec.eq_of_toNat_eq
  by_cases h1 : v.toNat < 2 ^ 31 <;> by_cases h2 : w.toNat < 2 ^ 31
  · rwa [signExtend_low h1, signExtend_low h2] at h
  · rw [signExtend_low h1, signExtend_high (by omega)] at h
    omega
  · rw [signExtend_high (by omega), signExtend_low h2] at h
    omega
  · rw [signExtend_high (by omega), signExtend_high (by omega)] at h
    omega

theorem canonical_intText (v : BitVec 32) : Canonical (intText v) := by
  unfold intText
  split
  · next hneg =>
    refine ⟨_, _, decimal_isNumeral _, Or.inr ⟨?_, rfl⟩⟩
    have hlt := v.isLt
    have hge := (slt_zero_iff v).mp hneg
    have hn := toNat_neg_high hge
    by_cases hmin : v.toNat = 2 ^ 31
    · rw [signExtend_high (by omega)]
      omega
    · rw [signExtend_low (by omega)]
      omega
  · exact canonical_decimalText _

theorem prints_unique {lib : Library} {format : Mem} {args : List Arg} {s t : List UInt8}
    (hs : Prints lib format args s) (ht : Prints lib format args t) : s = t := by
  obtain ⟨m, out, hm, rfl⟩ := hs
  obtain ⟨n, out', hn, rfl⟩ := ht
  rw [vprintf_unique hm hn]

theorem prints_directive (lib : Library) {format : Mem} {ch : UInt8} {arg : Arg} (seg : Segment)
    (hf : StringAt 0 format 0 [percent, ch])
    (hd : directiveSegment ch [arg] = some (seg, []))
    (hp : printed lib seg = putAll lib (text seg)) : Prints lib format [arg] (text seg) := by
  have hs : segments (items percent 0 [percent, ch]) [arg] = some [seg] := by
    rw [items, if_pos rfl, segments, hd]
    rfl
  refine ⟨3, _, vprintf_prints lib hf (by simp [Lone]) hs (by simp), ?_⟩
  rw [List.flatMap_singleton, hp]
  simp [putAll, Function.comp_def]

theorem prints_int (lib : Library) {format : Mem} (hf : StringAt 0 format 0 [percent, byte 'd'])
    (w : BitVec 64) : Prints lib format [.word w] (intText (w.setWidth 32)) :=
  prints_directive lib (.int _) hf rfl rfl

theorem prints_unsigned (lib : Library) {format : Mem}
    (hf : StringAt 0 format 0 [percent, byte 'u']) (w : BitVec 64) :
    Prints lib format [.word w] (decimalText ((w.setWidth 32).signExtend 64)) :=
  prints_directive lib (.unsigned _) hf rfl rfl

theorem faithful_int_iff (lib : Library) {format : Mem}
    (hf : StringAt 0 format 0 [percent, byte 'd']) (w : BitVec 64) :
    Faithful lib format (.word w) (w.setWidth 32).toInt ↔ w.setWidth 32 ≠ BitVec.intMin 32 := by
  rw [← intPrinted_eq_iff]
  constructor
  · rintro ⟨s, hs, -, hv⟩
    rw [prints_unique hs (prints_int lib hf w), parse_intText] at hv
    exact Option.some.inj hv
  · intro h
    exact ⟨_, prints_int lib hf w, canonical_intText _, by rw [parse_intText, h]⟩

theorem faithful_unsigned_iff (lib : Library) {format : Mem}
    (hf : StringAt 0 format 0 [percent, byte 'u']) (w : BitVec 64) :
    Faithful lib format (.word w) (w.setWidth 32).toNat ↔ (w.setWidth 32).toNat < 2 ^ 31 := by
  rw [← unsignedPrinted_eq_iff]
  constructor
  · rintro ⟨s, hs, -, hv⟩
    rw [prints_unique hs (prints_unsigned lib hf w), parse_decimalText] at hv
    exact Int.ofNat.inj (Option.some.inj hv)
  · intro h
    exact ⟨_, prints_unsigned lib hf w, canonical_decimalText _, by rw [parse_decimalText, h]⟩

/-- `%d` prints its value faithfully unless that is the smallest `int`, and `%u` exactly for the
values below 2^31. Distinct values print differently all the same. -/
theorem decimal_output_iff (lib : Library) (formatD formatU : Mem)
    (hd : StringAt 0 formatD 0 [percent, byte 'd'])
    (hu : StringAt 0 formatU 0 [percent, byte 'u']) :
    (∀ w : BitVec 64, Faithful lib formatD (.word w) (w.setWidth 32).toInt ↔
      w.setWidth 32 ≠ BitVec.intMin 32) ∧
    (∀ w : BitVec 64, Faithful lib formatU (.word w) (w.setWidth 32).toNat ↔
      (w.setWidth 32).toNat < 2 ^ 31) ∧
    (∀ v w s, Prints lib formatD [.word v] s → Prints lib formatD [.word w] s →
      v.setWidth 32 = w.setWidth 32) ∧
    ∀ v w s, Prints lib formatU [.word v] s → Prints lib formatU [.word w] s →
      v.setWidth 32 = w.setWidth 32 := by
  refine ⟨faithful_int_iff lib hd, faithful_unsigned_iff lib hu, ?_, ?_⟩
  · intro v w s hv hw
    have hp := congrArg parseDecimal ((prints_unique hv (prints_int lib hd v)).symm.trans
      (prints_unique hw (prints_int lib hd w)))
    rw [parse_intText, parse_intText] at hp
    exact intPrinted_injective (Option.some.inj hp)
  · intro v w s hv hw
    have hp := congrArg parseDecimal ((prints_unique hv (prints_unsigned lib hu v)).symm.trans
      (prints_unique hw (prints_unsigned lib hu w)))
    rw [parse_decimalText, parse_decimalText] at hp
    exact unsignedPrinted_injective (Int.ofNat.inj (Option.some.inj hp))

theorem decimal_output_forty_two :
    Faithful .klib (formatMem [percent, byte 'd']) (.word 42) 42 ∧
      Faithful .klib (formatMem [percent, byte 'u']) (.word 42) 42 := by
  have h := decimal_output_iff .klib (formatMem [percent, byte 'd'])
    (formatMem [percent, byte 'u']) (by decide) (by decide)
  exact ⟨(h.1 42).mpr (by decide), (h.2.1 42).mpr (by decide)⟩

/-- The smallest `int` and the largest `unsigned int` are printed as other numbers. -/
theorem extreme_values_misprinted :
    ¬ Faithful .klib (formatMem [percent, byte 'd']) (.word (2 ^ 31)) (-2147483648) ∧
      ¬ Faithful .klib (formatMem [percent, byte 'u']) (.word (2 ^ 32 - 1)) 4294967295 := by
  constructor
  · intro h
    exact (faithful_int_iff .klib (by decide) (2 ^ 31)).mp h (by decide)
  · intro h
    exact absurd ((faithful_unsigned_iff .klib (by decide) (2 ^ 32 - 1)).mp h) (by decide)

end DecimalOutput
