import OppoOS.BuddySystem

/-!
# Canonical free lists

Naturally aligned, completely merged free blocks are determined by the bytes they cover.
Without any alignment, an allocation and the release of its block cancel exactly when the
split block has the bits of the halves clear. The initial filling is the binary
representation of the number of units.
-/
namespace BuddyCanonical

open BuddyTiling BuddySystem Function

/-- Completely merged and naturally aligned, no byte in two blocks. -/
structure Canonical (s K : ℕ) (L : Levels) : Prop where
  once : ∀ x, coverage s (blocksOf K L) x ≤ 1
  natural : ∀ b ∈ blocksOf K L, Natural s b
  merged : NoBuddies s K L

variable {s K : ℕ}

theorem Canonical.order_le {L M : Levels} (hL : Canonical s K L) (hM : Canonical s K M)
    (h : ∀ x, 0 < coverage s (blocksOf K M) x → 0 < coverage s (blocksOf K L) x)
    {b c : Block} (hb : b ∈ blocksOf K L) (hc : c ∈ blocksOf K M) {x : ℕ} (hbx : b.Covers s x)
    (hcx : c.Covers s x) : c.order ≤ b.order := by
  by_contra hlt
  have hcK := (mem_blocksOf.mp hc).1
  have hcL : c.addr ∈ L c.order := by
    refine full_of_covered hL.natural hL.merged c.order hcK (hM.natural c hc) fun y hl hr => ?_
    obtain ⟨d, hd, hdy⟩ := coverage_pos.mp (h y (coverage_pos.mpr ⟨c, hc, hl, hr⟩))
    refine ⟨d, hd, hdy, ?_⟩
    by_contra hdc
    have hin := natural_nested (hM.natural c hc) (hL.natural d hd) (by omega) ⟨hl, hr⟩ hdy
    have hdx : d.Covers s x := ⟨hin.1.trans hcx.1, lt_of_lt_of_le hcx.2 hin.2⟩
    have he := eq_of_covers (hL.once x) hd hb hdx hbx
    subst he
    omega
  have he := eq_of_covers (hL.once x) (mem_blocksOf.mpr ⟨hcK, hcL⟩) hb hcx hbx
  subst he
  exact hlt le_rfl

theorem Canonical.mem_of_coverage {L M : Levels} (hL : Canonical s K L) (hM : Canonical s K M)
    (h : ∀ x, 0 < coverage s (blocksOf K L) x ↔ 0 < coverage s (blocksOf K M) x) {k a : ℕ}
    (hk : k ≤ K) (ha : a ∈ L k) : a ∈ M k := by
  have hb : (⟨a, k⟩ : Block) ∈ blocksOf K L := mem_blocksOf.mpr ⟨hk, ha⟩
  refine full_of_covered hM.natural hM.merged k hk (hL.natural _ hb) fun x hl hr => ?_
  obtain ⟨c, hc, hcx⟩ := coverage_pos.mp ((h x).mp (coverage_pos.mpr ⟨_, hb, hl, hr⟩))
  exact ⟨c, hc, hcx, hL.order_le hM (fun y => (h y).mpr) hb hc ⟨hl, hr⟩ hcx⟩

/-- Canonical free blocks are a function of the bytes that are free. -/
theorem canonical_ext {L M : Levels} (hL : Canonical s K L) (hM : Canonical s K M)
    (h : ∀ x, 0 < coverage s (blocksOf K L) x ↔ 0 < coverage s (blocksOf K M) x) {k : ℕ}
    (hk : k ≤ K) (a : ℕ) : a ∈ L k ↔ a ∈ M k :=
  ⟨hL.mem_of_coverage hM h hk, hM.mem_of_coverage hL (fun x => (h x).symm) hk⟩

theorem coverage_of_mem {L M : Levels} (h : ∀ k, k ≤ K → ∀ a, a ∈ L k ↔ a ∈ M k) (x : ℕ) :
    0 < coverage s (blocksOf K L) x ↔ 0 < coverage s (blocksOf K M) x := by
  rw [coverage_pos, coverage_pos]
  refine exists_congr fun b => and_congr_left' ?_
  rw [mem_blocksOf, mem_blocksOf]
  exact and_congr_right fun hk => h b.order hk b.addr

theorem buddy_eq_add_iff (a k : ℕ) :
    buddy s a k = a + blockSize s k ↔ a.testBit (s + k) = false := by
  have hpos := blockSize_pos (s := s) k
  rw [buddy, show blockSize s k = 2 ^ (s + k) from rfl, xor_two_pow]
  rw [show blockSize s k = 2 ^ (s + k) from rfl] at hpos
  cases h : a.testBit (s + k)
  · simp
  · have := Nat.ge_two_pow_of_testBit h
    simp only [if_true, Bool.true_eq_false, iff_false]
    omega

theorem release_undo (m n : ℕ) {M : Levels} {a k : ℕ} (hmn : m ≤ n)
    (hup : ∀ j, k ≤ j → j < k + m → M j = [a + blockSize s j])
    (hbit : ∀ j, k ≤ j → j < k + m → a.testBit (s + j) = false)
    (htop : m < n → buddy s a (k + m) ∉ M (k + m)) :
    release s n M a k = fun j =>
      if j = k + m then a :: M j else if k ≤ j ∧ j < k + m then [] else M j := by
  induction m generalizing n M k with
  | zero =>
    have hstop : release s n M a k = update M k (a :: M k) := by
      cases n with
      | zero => rfl
      | succ n => exact if_neg (htop (Nat.succ_pos n))
    rw [hstop]
    funext j
    by_cases hj : j = k
    · subst hj
      simp
    · rw [update_of_ne hj, if_neg (by omega), if_neg (by omega)]
  | succ m ih =>
    obtain ⟨n, rfl⟩ : ∃ i, n = i + 1 := ⟨n - 1, by omega⟩
    have hb : buddy s a k = a + blockSize s k :=
      (buddy_eq_add_iff a k).mpr (hbit k le_rfl (by omega))
    have hk := hup k le_rfl (by omega)
    have hstep : release s (n + 1) M a k = release s n (update M k []) a (k + 1) := by
      rw [release, hb, hk, if_pos (List.mem_singleton_self _), List.erase_cons_head,
        Nat.min_eq_left (Nat.le_add_right _ _)]
    have hM : ∀ j, k + 1 ≤ j → update M k [] j = M j := fun j hj => update_of_ne (by omega) _ _
    rw [hstep, ih n (by omega) (fun j hl hr => by rw [hM j hl]; exact hup j (by omega) (by omega))
      (fun j hl hr => hbit j (by omega) (by omega))
      (fun hlt => by
        rw [hM _ (by omega), Nat.add_assoc k 1 m, Nat.add_comm 1 m]
        exact htop (by omega))]
    funext j
    by_cases hj : j = k
    · subst hj
      rw [if_neg (by omega), if_neg (by omega), update_self, if_neg (by omega), if_pos (by omega)]
    · rw [update_of_ne hj, Nat.add_assoc k 1 m, Nat.add_comm 1 m]
      refine if_congr Iff.rfl rfl (if_congr ?_ rfl rfl)
      omega

/-- A set bit stops the merging below the split block: some level that the allocation
found empty holds blocks. -/
theorem release_stuck (m n : ℕ) {M : Levels} {a k : ℕ} (hmn : m ≤ n)
    (hup : ∀ j, k ≤ j → j < k + m → M j = [a + blockSize s j])
    (hbit : ∃ j, k ≤ j ∧ j < k + m ∧ a.testBit (s + j) = true) :
    ∃ j, k ≤ j ∧ j < k + m ∧ release s n M a k j ≠ [] := by
  induction m generalizing n M k with
  | zero =>
    obtain ⟨j, hl, hr, -⟩ := hbit
    omega
  | succ m ih =>
    obtain ⟨n, rfl⟩ : ∃ i, n = i + 1 := ⟨n - 1, by omega⟩
    have hk := hup k le_rfl (by omega)
    by_cases hb : buddy s a k = a + blockSize s k
    · have hstep : release s (n + 1) M a k = release s n (update M k []) a (k + 1) := by
        rw [release, hb, hk, if_pos (List.mem_singleton_self _), List.erase_cons_head,
          Nat.min_eq_left (Nat.le_add_right _ _)]
      obtain ⟨j, hl, hr, hj⟩ := hbit
      have hjk : j ≠ k := by
        rintro rfl
        rw [(buddy_eq_add_iff a j).mp hb] at hj
        exact Bool.false_ne_true hj
      rw [hstep]
      have hup' : ∀ i, k + 1 ≤ i → i < k + 1 + m → update M k [] i = [a + blockSize s i] := by
        intro i hil hir
        rw [update_of_ne (by omega)]
        exact hup i (by omega) (by omega)
      obtain ⟨i, hil, hir, hi⟩ := ih n (by omega) hup' ⟨j, by omega, by omega, hj⟩
      exact ⟨i, by omega, by omega, hi⟩
    · refine ⟨k, le_rfl, by omega, ?_⟩
      have hn : buddy s a k ∉ M k := by
        rw [hk, List.mem_singleton]
        exact hb
      rw [release, if_neg hn, update_self]
      exact List.cons_ne_nil _ _

/-- Releasing an allocated block restores the levels exactly when the block it was cut
from has the bit of every lower half clear. -/
theorem free_alloc_iff {L L' : Levels} {o a : ℕ} (h : alloc s K L o = some (a, L'))
    (hL : NoBuddies s K L) :
    (∀ k, k ≤ K → free s K L' a o k = L k) ↔
      ∀ j, o ≤ j → (∀ i, o ≤ i → i ≤ j → L i = []) → a.testBit (s + j) = false := by
  obtain ⟨c, rest, hoc, hcK, hc, hlow, rfl⟩ := alloc_shape h
  obtain ⟨m, rfl⟩ := Nat.exists_eq_add_of_le hoc
  have hempty : ∀ j, o ≤ j → ((∀ i, o ≤ i → i ≤ j → L i = []) ↔ j < o + m) := by
    intro j hj
    constructor
    · intro hall
      by_contra hge
      rw [hall (o + m) (by omega) (by omega)] at hc
      cases hc
    · exact fun hlt i hi hij => hlow i hi (by omega)
  have hup : ∀ j, o ≤ j → j < o + m → (fun j => if j = o + m then rest
      else if o ≤ j ∧ j < o + m then [a + blockSize s j] else L j) j = [a + blockSize s j] := by
    intro j hl hr
    simp only [if_neg (show j ≠ o + m by omega), if_pos (And.intro hl hr)]
  constructor
  · intro hres j hj hall
    by_contra hset
    obtain ⟨i, hil, hir, hi⟩ := release_stuck m (K - o) (by omega) hup
      ⟨j, hj, (hempty j hj).mp hall, by simpa using hset⟩
    have hi' := hres i (by omega)
    rw [free] at hi'
    rw [hi', hlow i hil hir] at hi
    exact hi rfl
  · intro hbits k hk
    have hrel := release_undo m (K - o) (by omega) hup
      (fun j hl hr => hbits j hl ((hempty j hl).mpr hr)) fun hlt => by
        have hnb := hL (o + m) (by omega) a (by simp [hc])
        rw [hc] at hnb
        simp only [if_true]
        exact fun hmem => hnb (List.mem_cons_of_mem _ hmem)
    rw [free, hrel]
    by_cases hk1 : k = o + m
    · subst hk1
      simp only [if_true, hc]
    · by_cases hk2 : o ≤ k ∧ k < o + m
      · simp only [if_neg hk1, if_pos hk2, hlow k hk2.1 hk2.2]
      · simp only [if_neg hk1, if_neg hk2]

def filled (s k a n j : ℕ) : List ℕ :=
  if j + 1 = k then ((List.range (n / 2 ^ j)).map (fun i => a + i * blockSize s j)).reverse
  else if n / 2 ^ j % 2 = 1 then [a + n / 2 ^ (j + 1) * blockSize s (j + 1)] else []

theorem seed_of_le (k : ℕ) {a n j : ℕ} {L : Levels} (hj : k ≤ j) : seed s k a n L j = L j := by
  induction k generalizing a n L with
  | zero => rfl
  | succ k ih => rw [seed, ih (by omega), update_of_ne (by omega)]

theorem filled_rest {k j : ℕ} (a n : ℕ) (hj : j < k) :
    filled s k (a + n / 2 ^ k * blockSize s k) (n % 2 ^ k) j = filled s (k + 1) a n j := by
  obtain ⟨d, rfl⟩ := Nat.exists_eq_add_of_lt hj
  have hk : j + d + 1 = j + 1 + d := by omega
  have hquot : n % 2 ^ (j + d + 1) / 2 ^ (j + 1) + n / 2 ^ (j + d + 1) * 2 ^ d =
      n / 2 ^ (j + 1) := by
    rw [hk, pow_add, Nat.mod_mul_right_div_self, ← Nat.div_div_eq_div_mul, Nat.mul_comm,
      Nat.mod_add_div]
  have hsize : blockSize s (j + d + 1) = 2 ^ d * blockSize s (j + 1) := by
    rw [blockSize, blockSize, ← pow_add]
    congr 1
    omega
  have hbit : n % 2 ^ (j + d + 1) / 2 ^ j % 2 = n / 2 ^ j % 2 := by
    rw [show j + d + 1 = j + (d + 1) by omega, pow_add, Nat.mod_mul_right_div_self, pow_succ,
      Nat.mod_mul_left_mod]
  have haddr : a + n / 2 ^ (j + d + 1) * blockSize s (j + d + 1) +
      n % 2 ^ (j + d + 1) / 2 ^ (j + 1) * blockSize s (j + 1) =
        a + n / 2 ^ (j + 1) * blockSize s (j + 1) := by
    rw [← hquot, hsize, Nat.add_mul, Nat.mul_assoc]
    omega
  by_cases hd : d = 0
  · -- the next order down: the rest is at most one block
    subst hd
    have hone : n % 2 ^ (j + 1) / 2 ^ j = n / 2 ^ j % 2 := by
      rw [pow_succ, Nat.mod_mul_right_div_self]
    simp only [Nat.add_zero]
    rw [filled, filled, if_pos rfl, if_neg (show ¬ j + 1 = j + 1 + 1 by omega), hone]
    rcases Nat.mod_two_eq_zero_or_one (n / 2 ^ j) with h | h
    · rw [h, if_neg (by decide)]
      rfl
    · rw [h, if_pos rfl]
      simp
  · rw [filled, filled, if_neg (show ¬ j + 1 = j + d + 1 by omega),
      if_neg (show ¬ j + 1 = j + d + 1 + 1 by omega), hbit, haddr]

theorem seed_apply (k : ℕ) {a n j : ℕ} {L : Levels} (hj : j < k) :
    seed s k a n L j = filled s k a n j ++ L j := by
  induction k generalizing a n L with
  | zero => omega
  | succ k ih =>
    rw [seed]
    by_cases hk : j = k
    · subst hk
      rw [seed_of_le j le_rfl, update_self, filled, if_pos rfl]
    · rw [ih (by omega), update_of_ne hk, filled_rest a n (by omega)]

theorem initial_apply (base n : ℕ) {k : ℕ} (hk : k ≤ K) :
    initial s K base n k = filled s (K + 1) base n k := by
  rw [initial, seed_apply _ (by omega), List.append_nil]

end BuddyCanonical
