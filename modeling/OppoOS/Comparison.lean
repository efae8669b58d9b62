import OppoOS.ByteMemory
import Mathlib.Data.Int.Order.Basic
import Mathlib.Data.Nat.Find

/-!
# Comparing bytes

`memcmp` of `klib/stdlib.c`. The index has 32 bits and the length 64: with a length from
2^32 on the index starts again at 0 and the loop test never fails.
-/
namespace Comparison

open ByteMemory

/-- `a[i] - b[i]`, the bytes promoted to `int`. -/
def difference (x y : UInt8) : ℤ := (x.toNat : ℤ) - (y.toNat : ℤ)

/-- The loop from index `i` on; `none` if it still runs after `fuel` iterations. -/
def memcmpLoop (a b : Mem) (n : BitVec 64) : ℕ → BitVec 32 → Option ℤ
  | 0, _ => none
  | fuel + 1, i =>
    if i.setWidth 64 < n then
      if a i.toNat ≠ b i.toNat then some (difference (a i.toNat) (b i.toNat))
      else memcmpLoop a b n fuel (i + 1)
    else some 0

def memcmp (a b : Mem) (n : BitVec 64) (fuel : ℕ) : Option ℤ := memcmpLoop a b n fuel 0

def FirstDifference (a b : Mem) (i : ℕ) : Prop := a i ≠ b i ∧ ∀ j, j < i → a j = b j

/-- The call returns, and its result orders the first `n` bytes. -/
def Compares (a b : Mem) (n : BitVec 64) : Prop :=
  ∃ r, (∃ fuel, memcmp a b n fuel = some r) ∧ (r = 0 ↔ ∀ i, i < n.toNat → a i = b i) ∧
    ∀ i, i < n.toNat → FirstDifference a b i → r.sign = (difference (a i) (b i)).sign

variable {a b : Mem} {n : BitVec 64}

theorem exists_firstDifference {i : ℕ} (h : a i ≠ b i) :
    ∃ d, d ≤ i ∧ FirstDifference a b d := by
  classical
  have hex : ∃ d, a d ≠ b d := ⟨i, h⟩
  exact ⟨Nat.find hex, Nat.find_min' hex h, Nat.find_spec hex,
    fun j hj => not_not.mp (Nat.find_min hex hj)⟩

theorem FirstDifference.unique {d i : ℕ} (h : FirstDifference a b d)
    (k : FirstDifference a b i) : d = i := by
  rcases Nat.lt_trichotomy d i with hlt | heq | hgt
  · exact absurd (k.2 d hlt) h.1
  · exact heq
  · exact absurd (h.2 i hgt) k.1

theorem difference_ne_zero {x y : UInt8} (h : x ≠ y) : difference x y ≠ 0 := by
  intro hz
  unfold difference at hz
  exact h (UInt8.toNat_inj.mp (by omega))

section
variable (fuel : ℕ) {i : ℕ}

theorem index_lt (hi : i < 2 ^ 32) :
    (BitVec.ofNat 32 i).setWidth 64 < n ↔ i < n.toNat := by
  rw [BitVec.lt_def, BitVec.toNat_setWidth, BitVec.toNat_ofNat, Nat.mod_eq_of_lt hi,
    Nat.mod_eq_of_lt (by omega)]

theorem loop_ends (hi : i < 2 ^ 32) (hn : n.toNat ≤ i) :
    memcmpLoop a b n (fuel + 1) (BitVec.ofNat 32 i) = some 0 := by
  rw [memcmpLoop, if_neg]
  rw [index_lt hi]
  omega

theorem loop_differs (hi : i < 2 ^ 32) (hn : i < n.toNat) (hd : a i ≠ b i) :
    memcmpLoop a b n (fuel + 1) (BitVec.ofNat 32 i) = some (difference (a i) (b i)) := by
  have hv : (BitVec.ofNat 32 i).toNat = i := Nat.mod_eq_of_lt hi
  rw [memcmpLoop, if_pos ((index_lt hi).mpr hn), hv, if_pos hd]

theorem loop_equal (hi : i < 2 ^ 32) (hn : i < n.toNat) (he : a i = b i) :
    memcmpLoop a b n (fuel + 1) (BitVec.ofNat 32 i) =
      memcmpLoop a b n fuel (BitVec.ofNat 32 (i + 1)) := by
  have hv : (BitVec.ofNat 32 i).toNat = i := Nat.mod_eq_of_lt hi
  rw [memcmpLoop, if_pos ((index_lt hi).mpr hn), hv, if_neg (not_not.mpr he), BitVec.ofNat_add]
  rfl

theorem loop_skips (k : ℕ) (hk : k ≤ 2 ^ 32) (hn : k ≤ n.toNat)
    (he : ∀ j, j < k → a j = b j) :
    memcmp a b n (fuel + k) = memcmpLoop a b n fuel (BitVec.ofNat 32 k) := by
  induction k generalizing fuel with
  | zero => rfl
  | succ k ih =>
    rw [← Nat.add_assoc, Nat.add_right_comm,
      ih (fuel + 1) (by omega) (by omega) fun j hj => he j (by omega)]
    exact loop_equal fuel (by omega) (by omega) (he k (by omega))

end

/-- With a length beyond the index's range and no difference within it, the loop goes on. -/
theorem loop_diverges (hn : 2 ^ 32 ≤ n.toNat) (he : ∀ j, j < 2 ^ 32 → a j = b j)
    (fuel : ℕ) (i : BitVec 32) : memcmpLoop a b n fuel i = none := by
  induction fuel generalizing i with
  | zero => rfl
  | succ fuel ih =>
    have hi := i.isLt
    have hstep := loop_equal (n := n) fuel hi (by omega) (he i.toNat hi)
    rw [BitVec.ofNat_toNat, BitVec.setWidth_eq] at hstep
    rw [hstep]
    exact ih _

theorem compares_of_difference {d : ℕ} (hd : FirstDifference a b d) (h32 : d < 2 ^ 32)
    (hn : d < n.toNat) : Compares a b n := by
  refine ⟨difference (a d) (b d), ⟨1 + d, ?_⟩, ?_, ?_⟩
  · rw [loop_skips 1 d h32.le hn.le hd.2]
    exact loop_differs 0 h32 hn hd.1
  · exact iff_of_false (difference_ne_zero hd.1) fun he => hd.1 (he d hn)
  · intro i _ hi
    rw [hd.unique hi]

theorem compares_of_equal (hn : n.toNat < 2 ^ 32) (he : ∀ i, i < n.toNat → a i = b i) :
    Compares a b n := by
  refine ⟨0, ⟨1 + n.toNat, ?_⟩, iff_of_true rfl he, ?_⟩
  · rw [loop_skips 1 n.toNat hn.le le_rfl he]
    exact loop_ends 0 hn le_rfl
  · intro i hi hd
    exact absurd (he i hi) hd.1

/-- `memcmp` returns, and rightly, exactly when the length fits the index or the buffers
differ where the index reaches. -/
theorem memcmp_compares_iff (a b : Mem) (n : BitVec 64) :
    Compares a b n ↔ n.toNat < 2 ^ 32 ∨ ∃ i, i < 2 ^ 32 ∧ a i ≠ b i := by
  constructor
  · rintro ⟨r, ⟨fuel, hr⟩, -⟩
    by_contra hc
    push Not at hc
    rw [memcmp, loop_diverges hc.1 hc.2] at hr
    cases hr
  · intro h
    by_cases hex : ∃ i, i < n.toNat ∧ i < 2 ^ 32 ∧ a i ≠ b i
    · obtain ⟨i, hn, h32, hi⟩ := hex
      obtain ⟨d, hle, hd⟩ := exists_firstDifference hi
      exact compares_of_difference hd (by omega) (by omega)
    · push Not at hex
      have hn : n.toNat < 2 ^ 32 := by
        rcases h with h | ⟨i, h32, hi⟩
        · exact h
        · by_contra hge
          exact hi (hex i (by omega) h32)
      exact compares_of_equal hn fun i hi => hex i hi (by omega)

/-- Two equal buffers of 2^32 bytes: the loop never ends. -/
theorem memcmp_diverges :
    ¬ Compares (fun _ => 0) (fun _ => 0) (BitVec.ofNat 64 (2 ^ 32)) ∧
      ∀ fuel, memcmp (fun _ => 0) (fun _ => 0) (BitVec.ofNat 64 (2 ^ 32)) fuel = none := by
  have hn : 2 ^ 32 ≤ (BitVec.ofNat 64 (2 ^ 32)).toNat := by decide
  have hd : ∀ fuel, memcmp (fun _ => 0) (fun _ => 0) (BitVec.ofNat 64 (2 ^ 32)) fuel = none :=
    fun fuel => loop_diverges hn (fun _ _ => rfl) fuel 0
  refine ⟨?_, hd⟩
  rintro ⟨r, ⟨fuel, hr⟩, -⟩
  rw [hd fuel] at hr
  cases hr

end Comparison
