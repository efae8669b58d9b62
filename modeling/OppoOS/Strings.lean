import OppoOS.BuddyAllocator
import OppoOS.ForwardCopy
import OppoOS.Tokenizer

/-!
# Strings in memory

`strcpy`, `strcat`, `strncpy` and `strcspn` of `klib/string.c`, of which the first
two are in `user/libc/string.c` too, and `memcpy` of `klib/stdlib.c` where its ranges
overlap. Lengths have 32 bits; pointers do not wrap around.
-/
namespace Strings

open ByteMemory CStrings BuddyAllocator ForwardCopy Tokenizer Function

/-- `while ((*p++ = *src++) != '\0')`. -/
def strcpyLoop : ℕ → Mem → ℕ → ℕ → Option Mem
  | 0, _, _, _ => none
  | fuel + 1, m, p, src =>
    let ch := m src
    let m := store8 m p ch
    if ch ≠ 0 then strcpyLoop fuel m (p + 1) (src + 1) else some m

def strcpy (m : Mem) (dst src fuel : ℕ) : Option Mem := strcpyLoop fuel m dst src

/-- `strcpy(dst + strlen(dst), src)`. -/
def strcat (m : Mem) (dst src fuel : ℕ) : Option Mem := do
  let len ← strlen (bytesAt m dst fuel)
  strcpy m (dst + len.toNat) src fuel

/-- The loop of `strncpy` with `n - i` iterations to go. -/
def strncpyLoop : ℕ → Mem → ℕ → ℕ → Mem
  | 0, m, _, _ => m
  | n + 1, m, p, src =>
    let m := store8 m p (m src)
    if m src = 0 then m else strncpyLoop n m (p + 1) (src + 1)

def strncpy (m : Mem) (dst src n : ℕ) : Mem := strncpyLoop n m dst src

def strcspnLoop (m : Mem) (s1 : ℕ) (s2 : List UInt8) : ℕ → BitVec 32 → Option (BitVec 32)
  | 0, _ => none
  | fuel + 1, len =>
    if m (s1 + len.toNat) ≠ 0 then do
      let found ← strchr (some s2) (m (s1 + len.toNat))
      if found.isSome then some len else strcspnLoop m s1 s2 fuel (len + 1)
    else some len

def strcspn (m : Mem) (s1 : ℕ) (s2 : List UInt8) (fuel : ℕ) : Option (BitVec 32) :=
  strcspnLoop m s1 s2 fuel 0

def HasLength (m : Mem) (a n : ℕ) : Prop := FirstStop (· = 0) m a n

variable {m m' : Mem} {dst src n k fuel : ℕ} {s2 : List UInt8}

theorem store8_eq_update (m : Mem) (a : ℕ) (v : UInt8) : store8 m a v = update m a v := by
  funext x
  rw [update_apply]
  rfl

theorem memcpy_eq_copyUp (m : Mem) (dst src n : ℕ) : memcpy m dst src n = copyUp m dst src n := by
  induction n generalizing m dst src with
  | zero => rfl
  | succ n ih => rw [memcpy, copyUp, ih, store8_eq_update]

/-- What `memcpy` does to ranges that overlap in any way; it moves whatever they hold exactly
when the destination does not begin inside the source. -/
theorem memcpy_overlapping (dest src n : ℕ) :
    (∀ m x, memcpy m dest src n x =
      if dest ≤ x ∧ x < dest + n then m (source dest src (x - dest)) else m x) ∧
    ((∀ m i, i < n → memcpy m dest src n (dest + i) = m (src + i)) ↔ Clear dest src n) := by
  constructor
  · intro m x
    rw [memcpy_eq_copyUp, copyUp_apply]
  · rw [← moves_iff_clear (show (0 : UInt8) ≠ 1 by decide)]
    simp only [memcpy_eq_copyUp]

theorem strcpy_eq_copyUntil (m : Mem) (dst src fuel : ℕ) :
    strcpy m dst src fuel = copyUntil (· = 0) m dst src fuel := by
  unfold strcpy
  induction fuel generalizing m dst src with
  | zero => rfl
  | succ fuel ih =>
    rw [strcpyLoop, copyUntil, ← store8_eq_update]
    by_cases h : m src = 0
    · rw [if_neg (not_not.mpr h), if_pos h]
    · rw [if_pos h, if_neg h, ih]

theorem strcpy_eq (h : HasLength m src n) (hc : Clear dst src (n + 1)) (fuel : ℕ) :
    strcpy m dst src fuel = if n < fuel then some (copyUp m dst src (n + 1)) else none := by
  rw [strcpy_eq_copyUntil]
  exact copyUntil_eq (h.stopsAt hc) fuel

theorem strcpy_diverges (h : HasLength m src n) (hc : ¬ Clear dst src (n + 1)) (fuel : ℕ) :
    strcpy m dst src fuel = none := by
  rw [strcpy_eq_copyUntil]
  exact copyUntil_none (h.never_stops hc) fuel

theorem strcpy_clear (h : HasLength m src n) (hr : strcpy m dst src fuel = some m') :
    Clear dst src (n + 1) := by
  by_contra hc
  rw [strcpy_diverges h hc] at hr
  cases hr

theorem strcpy_copied (h : HasLength m src n) (hr : strcpy m dst src fuel = some m') :
    (∀ i, i ≤ n → m' (dst + i) = m (src + i)) ∧ ∀ x, x < dst ∨ dst + n < x → m' x = m x := by
  have hc := strcpy_clear h hr
  rw [strcpy_eq h hc] at hr
  split at hr
  · obtain rfl := Option.some.inj hr
    exact ⟨fun i hi => copyUp_of_clear hc (by omega), fun x hx => copyUp_outside (by omega)⟩
  · cases hr

/-- `strcpy` returns exactly when the destination does not begin inside the string, or on its
terminator; then the destination is the string, and nothing else is changed. -/
theorem strcpy_returns_iff (h : HasLength m src n) (dst : ℕ) :
    ((∃ fuel m', strcpy m dst src fuel = some m') ↔ Clear dst src (n + 1)) ∧
    ∀ fuel m', strcpy m dst src fuel = some m' → HasLength m' dst n ∧
      (∀ i, i ≤ n → m' (dst + i) = m (src + i)) ∧ ∀ x, x < dst ∨ dst + n < x → m' x = m x := by
  constructor
  · constructor
    · rintro ⟨fuel, m', hr⟩
      exact strcpy_clear h hr
    · intro hc
      exact ⟨n + 1, _, (strcpy_eq h hc _).trans (if_pos (Nat.lt_succ_self n))⟩
  · intro fuel m' hr
    obtain ⟨hcopied, hkept⟩ := strcpy_copied h hr
    refine ⟨⟨?_, fun j hj => ?_⟩, hcopied, hkept⟩
    · rw [hcopied n le_rfl]
      exact h.1
    · rw [hcopied j (Nat.le_of_lt hj)]
      exact h.2 j hj

/-- Where `strcat` puts its string: 32 bits of the length count. -/
def appendAt (dst k : ℕ) : ℕ := dst + k % 2 ^ 32

theorem strcat_eq (h : HasLength m dst k) (src fuel : ℕ) :
    strcat m dst src fuel = if k < fuel then strcpy m (appendAt dst k) src fuel else none := by
  rw [strcat, strlen_bytesAt h.1 h.2]
  split
  · rw [Option.bind_eq_bind, Option.bind_some, BitVec.toNat_ofNat]
    rfl
  · rfl

/-- `strcat` returns exactly when the place it writes to is not inside its source. The result
is the concatenation of the two strings exactly when the first is shorter than 2^32. -/
theorem strcat_appends_iff (h : HasLength m dst k) (hsrc : HasLength m src n) :
    ((∃ fuel m', strcat m dst src fuel = some m') ↔ Clear (appendAt dst k) src (n + 1)) ∧
    ∀ fuel m', strcat m dst src fuel = some m' →
      (HasLength m' dst (k + n) ↔ k < 2 ^ 32) ∧
      (∀ i, i < k % 2 ^ 32 → m' (dst + i) = m (dst + i)) ∧
      (∀ i, i ≤ n → m' (appendAt dst k + i) = m (src + i)) ∧
      ∀ x, x < dst ∨ appendAt dst k + n < x → m' x = m x := by
  have hcopy : ∀ {fuel m'}, strcat m dst src fuel = some m' →
      strcpy m (appendAt dst k) src fuel = some m' := by
    intro fuel m' hr
    rw [strcat_eq h] at hr
    split at hr
    · exact hr
    · cases hr
  constructor
  · constructor
    · rintro ⟨fuel, m', hr⟩
      exact strcpy_clear hsrc (hcopy hr)
    · intro hc
      refine ⟨k + n + 1, copyUp m (appendAt dst k) src (n + 1), ?_⟩
      rw [strcat_eq h, if_pos (by omega), strcpy_eq hsrc hc, if_pos (by omega)]
  · intro fuel m' hr
    obtain ⟨hcopied, hkept⟩ := strcpy_copied hsrc (hcopy hr)
    have hle : k % 2 ^ 32 ≤ k := Nat.mod_le k _
    have hfirst : ∀ i, i < k % 2 ^ 32 → m' (dst + i) = m (dst + i) := fun i hi =>
      hkept _ (.inl (by unfold appendAt; omega))
    have hlen : HasLength m' dst (k % 2 ^ 32 + n) := by
      constructor
      · have hend := hcopied n le_rfl
        rw [appendAt, Nat.add_assoc] at hend
        rw [hend]
        exact hsrc.1
      · intro j hj
        by_cases hlt : j < k % 2 ^ 32
        · rw [hfirst j hlt]
          exact h.2 j (by omega)
        · obtain ⟨i, rfl⟩ := Nat.exists_eq_add_of_le (not_lt.mp hlt)
          have hchar := hcopied i (by omega)
          rw [appendAt, Nat.add_assoc] at hchar
          rw [hchar]
          exact hsrc.2 i (by omega)
    refine ⟨⟨fun hl => ?_, fun hlt => ?_⟩, hfirst, hcopied, fun x hx => hkept x ?_⟩
    · have he := hl.unique hlen
      have hmod := Nat.mod_lt k (show 0 < 2 ^ 32 by decide)
      omega
    · rwa [Nat.mod_eq_of_lt hlt] at hlen
    · unfold appendAt at hx ⊢
      omega

def greeting : Mem := fun x => if x = 100 then 104 else if x = 101 then 105 else 0

theorem greeting_length : HasLength greeting 100 2 := by
  refine ⟨rfl, fun j hj => ?_⟩
  obtain rfl | rfl : j = 0 ∨ j = 1 := by omega
  · decide
  · decide

/-- Onto its own second character: the copy runs on for ever. -/
theorem strcpy_onto_itself : ¬ ∃ fuel m', strcpy greeting 101 100 fuel = some m' := by
  rw [(strcpy_returns_iff greeting_length 101).1]
  decide

theorem strcat_twice : ∃ fuel m', strcat greeting 100 50 fuel = some m' ∧
    HasLength m' 100 2 := by
  have hempty : HasLength greeting 50 0 := ⟨rfl, fun j hj => absurd hj (Nat.not_lt_zero j)⟩
  obtain ⟨hiff, hres⟩ := strcat_appends_iff greeting_length hempty
  obtain ⟨fuel, m', hr⟩ := hiff.mpr (by decide)
  exact ⟨fuel, m', hr, (hres fuel m' hr).1.mpr (by decide)⟩

theorem strncpy_eq (m : Mem) (dst src n : ℕ) :
    (∃ k, k < n ∧ StopsAt (· = 0) m dst src k ∧ strncpy m dst src n = copyUp m dst src (k + 1)) ∨
    ((∀ k, k < n → m (source dst src k) ≠ 0) ∧ strncpy m dst src n = copyUp m dst src n) := by
  have hgo : ∀ c j, (∀ i, i < j → m (source dst src i) ≠ 0) →
      (∃ k, k < j + c ∧ StopsAt (· = 0) m dst src k ∧
        strncpyLoop c (copyUp m dst src j) (dst + j) (src + j) = copyUp m dst src (k + 1)) ∨
      ((∀ k, k < j + c → m (source dst src k) ≠ 0) ∧
        strncpyLoop c (copyUp m dst src j) (dst + j) (src + j) = copyUp m dst src (j + c)) := by
    intro c
    induction c with
    | zero => exact fun j hj => .inr ⟨hj, rfl⟩
    | succ c ih =>
      intro j hj
      have hstored : store8 (copyUp m dst src j) (dst + j) (copyUp m dst src j (src + j)) =
          copyUp m dst src (j + 1) := by
        rw [store8_eq_update, copyUp_succ]
      -- storing the element does not change what the source holds there
      have hread : copyUp m dst src (j + 1) (src + j) = m (source dst src j) := by
        rw [copyUp_succ, update_apply, copyUp_next]
        split <;> rfl
      by_cases h0 : m (source dst src j) = 0
      · refine .inl ⟨j, by omega, ⟨h0, hj⟩, ?_⟩
        rw [strncpyLoop, hstored, hread, if_pos h0]
      · have hnext : strncpyLoop (c + 1) (copyUp m dst src j) (dst + j) (src + j) =
            strncpyLoop c (copyUp m dst src (j + 1)) (dst + (j + 1)) (src + (j + 1)) := by
          rw [strncpyLoop, hstored, hread, if_neg h0]
          rfl
        have hbelow : ∀ i, i < j + 1 → m (source dst src i) ≠ 0 := by
          intro i hi
          rcases Nat.lt_succ_iff_lt_or_eq.mp hi with hlt | rfl
          · exact hj i hlt
          · exact h0
        have h := ih (j + 1) hbelow
        rw [hnext, show j + (c + 1) = j + 1 + c by omega]
        exact h
  have h := hgo n 0 fun i hi => absurd hi (Nat.not_lt_zero i)
  rw [Nat.zero_add] at h
  exact h

/-- `strncpy` copies the string with its terminator or `n` bytes of it, whichever is less: it
neither pads nor, when the string has `n` characters or more, terminates. -/
theorem strncpy_copies (h : HasLength m src k) (hc : Clear dst src (min n (k + 1))) :
    (∀ x, strncpy m dst src n x =
      if dst ≤ x ∧ x < dst + min n (k + 1) then m (src + (x - dst)) else m x) ∧
    ((∃ i, i < n ∧ i ≤ k ∧ strncpy m dst src n (dst + i) = 0) ↔ k < n) := by
  have hsource : ∀ i, i < min n (k + 1) → source dst src i = src + i := fun i hi =>
    source_of_clear (by unfold Clear at hc ⊢; omega)
  have heq : strncpy m dst src n = copyUp m dst src (min n (k + 1)) := by
    rcases strncpy_eq m dst src n with ⟨j, hj, ⟨h0, hbefore⟩, he⟩ | ⟨hno, he⟩
    · have hjk : j ≤ k := by
        by_contra hgt
        have hk := hbefore k (by omega)
        rw [hsource k (by omega)] at hk
        exact hk h.1
      have hkj : ¬ j < k := by
        intro hlt
        rw [hsource j (by omega)] at h0
        exact h.2 j hlt h0
      rw [he]
      congr 1
      omega
    · have hnk : ¬ k < n := by
        intro hlt
        have hk := hno k hlt
        rw [hsource k (by omega)] at hk
        exact hk h.1
      rw [he]
      congr 1
      omega
  have happly : ∀ x, strncpy m dst src n x =
      if dst ≤ x ∧ x < dst + min n (k + 1) then m (src + (x - dst)) else m x := by
    intro x
    rw [heq, copyUp_apply]
    by_cases hx : dst ≤ x ∧ x < dst + min n (k + 1)
    · rw [if_pos hx, if_pos hx, hsource _ (by omega)]
    · rw [if_neg hx, if_neg hx]
  refine ⟨happly, ?_, ?_⟩
  · rintro ⟨i, hi, hik, h0⟩
    by_contra hk
    rw [happly, if_pos (by omega), Nat.add_sub_cancel_left] at h0
    exact h.2 i (by omega) h0
  · intro hk
    refine ⟨k, hk, le_rfl, ?_⟩
    rw [happly, if_pos (by omega), Nat.add_sub_cancel_left]
    exact h.1

/-- One of the two characters, without a terminator. -/
theorem strncpy_one : ∃ m', m' = strncpy greeting 200 100 1 ∧
    (∀ x, m' x = if 200 ≤ x ∧ x < 201 then greeting (100 + (x - 200)) else greeting x) ∧
    ((∃ i, i < 1 ∧ i ≤ 2 ∧ m' (200 + i) = 0) ↔ 2 < 1) :=
  ⟨_, rfl, strncpy_copies greeting_length (by decide)⟩

section
variable (h : 0 ∈ s2)
include h

theorem strcspnLoop_token {len : BitVec 32} (ht : TokenChar s2 (m (src + len.toNat))) (fuel : ℕ) :
    strcspnLoop m src s2 (fuel + 1) len = strcspnLoop m src s2 fuel (len + 1) := by
  obtain ⟨found, hf, hiff⟩ := strchr_spec h (m (src + len.toNat))
  obtain rfl := hiff.mpr ht
  rw [strcspnLoop, if_pos ht.1, hf]
  rfl

theorem strcspnLoop_stop {len : BitVec 32} (ht : ¬ TokenChar s2 (m (src + len.toNat)))
    (fuel : ℕ) : strcspnLoop m src s2 (fuel + 1) len = some len := by
  obtain ⟨found, hf, hiff⟩ := strchr_spec h (m (src + len.toNat))
  have hs : found.isSome = true := Option.isSome_iff_ne_none.mpr fun hn => ht (hiff.mp hn)
  rw [strcspnLoop, hf]
  split
  · simp only [Option.bind_eq_bind, Option.bind_some, hs, if_true]
  · rfl

theorem strcspn_eq (hk : k < 2 ^ 32)
    (hfirst : FirstStop (fun ch => ¬ TokenChar s2 ch) m src k) (fuel : ℕ) :
    strcspn m src s2 fuel = if k < fuel then some (BitVec.ofNat 32 k) else none := by
  have hgo : ∀ fuel i, i ≤ k → strcspnLoop m src s2 fuel (BitVec.ofNat 32 i) =
      if k < i + fuel then some (BitVec.ofNat 32 k) else none := by
    intro fuel
    induction fuel with
    | zero =>
      intro i hi
      rw [strcspnLoop, if_neg (by omega)]
    | succ fuel ih =>
      intro i hi
      have hv : (BitVec.ofNat 32 i).toNat = i := Nat.mod_eq_of_lt (by omega)
      rcases Nat.lt_or_eq_of_le hi with hlt | rfl
      · have ht := not_not.mp (hfirst.2 i hlt)
        have hnext : BitVec.ofNat 32 i + 1 = BitVec.ofNat 32 (i + 1) := by
          rw [BitVec.ofNat_add]
          rfl
        rw [← hv] at ht
        rw [strcspnLoop_token h ht, hnext, ih (i + 1) hlt, Nat.add_right_comm, Nat.add_assoc]
      · have ht := hfirst.1
        rw [← hv] at ht
        rw [strcspnLoop_stop h ht, if_pos (by omega)]
  have h0 := hgo fuel 0 (Nat.zero_le k)
  rw [Nat.zero_add] at h0
  exact h0

/-- The index has 32 bits: without a character to stop it below 2^32 it starts again. -/
theorem strcspn_none (hall : ∀ i, i < 2 ^ 32 → TokenChar s2 (m (src + i))) (fuel : ℕ) :
    strcspn m src s2 fuel = none := by
  have hgo : ∀ fuel len, strcspnLoop m src s2 fuel len = none := by
    intro fuel
    induction fuel with
    | zero => exact fun _ => rfl
    | succ fuel ih =>
      intro len
      rw [strcspnLoop_token h (hall len.toNat len.isLt)]
      exact ih (len + 1)
  exact hgo fuel 0

/-- `strcspn` returns `r` exactly when the character at `r` is the first one of `s2`, or the
terminator: in particular only when there is one within the reach of its index. -/
theorem strcspn_iff (m : Mem) (s1 : ℕ) (r : BitVec 32) :
    (∃ fuel, strcspn m s1 s2 fuel = some r) ↔
      FirstStop (fun ch => ¬ TokenChar s2 ch) m s1 r.toNat := by
  constructor
  · rintro ⟨fuel, hr⟩
    by_cases hex : ∃ i, i < 2 ^ 32 ∧ ¬ TokenChar s2 (m (s1 + i))
    · classical
      have hk := Nat.find_spec hex
      have hfirst : FirstStop (fun ch => ¬ TokenChar s2 ch) m s1 (Nat.find hex) :=
        ⟨hk.2, fun j hj hc => Nat.find_min hex hj ⟨by omega, hc⟩⟩
      rw [strcspn_eq h hk.1 hfirst] at hr
      split at hr
      · obtain rfl := Option.some.inj hr
        rw [BitVec.toNat_ofNat, Nat.mod_eq_of_lt hk.1]
        exact hfirst
      · cases hr
    · push Not at hex
      rw [strcspn_none h hex] at hr
      cases hr
  · intro hfirst
    refine ⟨r.toNat + 1, ?_⟩
    rw [strcspn_eq h r.isLt hfirst, if_pos (Nat.lt_succ_self _), BitVec.ofNat_toNat,
      BitVec.setWidth_eq]

end

/-- Up to the `i`. -/
theorem strcspn_greeting : ∃ fuel, strcspn greeting 100 [105, 0] fuel = some 1 := by
  rw [strcspn_iff (by decide)]
  refine ⟨?_, fun j hj => ?_⟩
  · rintro ⟨-, hmem⟩
    exact hmem (by decide)
  · obtain rfl := Nat.lt_one_iff.mp hj
    rintro hc
    exact hc ⟨by decide, by decide⟩

end Strings
