import Mathlib.Data.List.TakeWhile
import OppoOS.ByteMemory

/-!
# Strings that end at a NUL

A string is the list of the bytes from its pointer to the end of its object, and what it
spells is what stands before the first zero. `strlen` is the same text in `klib/string.c` and
`user/libc/string.c`; without a terminator it does not return.
-/
namespace CStrings

open ByteMemory

/-- The characters up to the terminator. -/
def cString (s : List UInt8) : List UInt8 := s.takeWhile (· ≠ 0)

/-- `while (*a != '\0') { len++; *a++; }`. -/
def strlenLoop : List UInt8 → BitVec 32 → Option (BitVec 32)
  | [], _ => none
  | ch :: s, len => if ch ≠ 0 then strlenLoop s (len + 1) else some len

def strlen (s : List UInt8) : Option (BitVec 32) := strlenLoop s 0

def bytesAt (m : Mem) (a n : ℕ) : List UInt8 := (List.range n).map fun i => m (a + i)

variable {m : Mem} {a k n : ℕ} {s : List UInt8} {ch : UInt8}

@[simp] theorem cString_zero (s : List UInt8) : cString (0 :: s) = [] := by
  simp [cString]

theorem cString_cons (h : ch ≠ 0) (s : List UInt8) : cString (ch :: s) = ch :: cString s :=
  List.takeWhile_cons_of_pos (decide_eq_true h)

theorem zero_notMem_cString (s : List UInt8) : 0 ∉ cString s := by
  intro h
  have hp := List.mem_takeWhile_imp h
  simp at hp

theorem cString_of_notMem (h : 0 ∉ s) : cString s = s := by
  refine List.takeWhile_eq_self_iff.mpr fun x hx => ?_
  have hne : x ≠ 0 := fun he => h (he ▸ hx)
  simp [hne]

theorem cString_terminated (h : 0 ∈ s) : ∃ r, s = cString s ++ 0 :: r := by
  induction s with
  | nil => cases h
  | cons ch s ih =>
    by_cases hc : ch = 0
    · subst hc
      exact ⟨s, by simp⟩
    · obtain ⟨r, hr⟩ := ih ((List.mem_cons.mp h).resolve_left (Ne.symm hc))
      refine ⟨r, ?_⟩
      rw [cString_cons hc, List.cons_append, ← hr]

theorem cString_append (s r : List UInt8) : cString (s ++ 0 :: r) = cString s := by
  induction s with
  | nil => exact cString_zero r
  | cons ch s ih =>
    by_cases hc : ch = 0
    · subst hc
      simp
    · rw [List.cons_append, cString_cons hc, cString_cons hc, ih]

theorem strlenLoop_eq (h : 0 ∈ s) (len : BitVec 32) :
    strlenLoop s len = some (len + BitVec.ofNat 32 (cString s).length) := by
  induction s generalizing len with
  | nil => cases h
  | cons ch s ih =>
    by_cases hc : ch = 0
    · subst hc
      simp [strlenLoop]
    · have hs : 0 ∈ s := (List.mem_cons.mp h).resolve_left (Ne.symm hc)
      rw [strlenLoop, if_pos hc, ih hs, cString_cons hc, List.length_cons, Nat.add_comm _ 1,
        BitVec.ofNat_add, ← BitVec.add_assoc]
      rfl

theorem strlen_eq (h : 0 ∈ s) : strlen s = some (BitVec.ofNat 32 (cString s).length) :=
  (strlenLoop_eq h 0).trans (congrArg some (BitVec.zero_add _))

theorem strlenLoop_none (h : 0 ∉ s) (len : BitVec 32) : strlenLoop s len = none := by
  induction s generalizing len with
  | nil => rfl
  | cons ch s ih =>
    obtain ⟨hc, hs⟩ := List.ne_and_not_mem_of_not_mem_cons h
    rw [strlenLoop, if_pos (Ne.symm hc), ih hs]

theorem bytesAt_add (m : Mem) (a k n : ℕ) :
    bytesAt m a (k + n) = bytesAt m a k ++ bytesAt m (a + k) n := by
  simp [bytesAt, List.range_add, Nat.add_assoc, Function.comp_def]

theorem zero_mem_bytesAt : 0 ∈ bytesAt m a n ↔ ∃ i < n, m (a + i) = 0 := by
  simp [bytesAt]

/-- The first zero behind `a` ends the string there. -/
theorem strlen_bytesAt (hz : m (a + k) = 0) (hne : ∀ i < k, m (a + i) ≠ 0) (n : ℕ) :
    strlen (bytesAt m a n) = if k < n then some (BitVec.ofNat 32 k) else none := by
  split
  · next hlt =>
    obtain ⟨r, rfl⟩ := Nat.exists_eq_add_of_lt hlt
    have hprefix : 0 ∉ bytesAt m a k := by
      rw [zero_mem_bytesAt]
      rintro ⟨i, hi, h0⟩
      exact hne i hi h0
    have hsplit : bytesAt m a (k + r + 1) = bytesAt m a k ++ 0 :: bytesAt m (a + k + 1) r := by
      rw [Nat.add_assoc, bytesAt_add, Nat.add_comm r 1, bytesAt_add m (a + k) 1 r]
      simp [bytesAt, hz]
    rw [hsplit, strlen_eq (by simp), cString_append, cString_of_notMem hprefix]
    simp [bytesAt]
  · refine strlenLoop_none ?_ 0
    rw [zero_mem_bytesAt]
    rintro ⟨i, hi, h0⟩
    exact hne i (by omega) h0

end CStrings
