import Mathlib.Data.Nat.Bitwise
import Mathlib.Data.List.Nodup
import Mathlib.Data.List.Count
import Mathlib.Algebra.BigOperators.Group.Finset.Basic
import Mathlib.Algebra.BigOperators.Intervals
import Mathlib.Tactic.Ring

/-!
# Power-of-two blocks and exact tilings

A block of order `k` spans `2 ^ (s + k)` bytes, where `2 ^ s` is the smallest unit.
Tilings are counted: every byte of the interval lies in exactly one block, every
other byte in none. Counting makes splitting and merging additive.
-/
namespace BuddyTiling

structure Block where
  addr : ℕ
  order : ℕ
  deriving DecidableEq, Repr

variable (s : ℕ)

def blockSize (k : ℕ) : ℕ := 2 ^ (s + k)

abbrev Block.Covers (b : Block) (x : ℕ) : Prop :=
  b.addr ≤ x ∧ x < b.addr + blockSize s b.order

def coverage (B : List Block) (x : ℕ) : ℕ := B.countP (fun b => decide (b.Covers s x))

def Tiles (base len : ℕ) (B : List Block) : Prop :=
  ∀ x, coverage s B x = if base ≤ x ∧ x < base + len then 1 else 0

/-- What an exact tiling means block by block. -/
structure Partition (base len : ℕ) (B : List Block) : Prop where
  nodup : B.Nodup
  disjoint : ∀ b ∈ B, ∀ c ∈ B, b ≠ c → ∀ x, b.Covers s x → ¬ c.Covers s x
  inside : ∀ b ∈ B, base ≤ b.addr ∧ b.addr + blockSize s b.order ≤ base + len
  covered : ∀ x, base ≤ x → x < base + len → ∃ b ∈ B, b.Covers s x

variable {s}

theorem blockSize_pos (k : ℕ) : 0 < blockSize s k := Nat.two_pow_pos _

theorem blockSize_succ (k : ℕ) : blockSize s (k + 1) = 2 * blockSize s k := by
  simp only [blockSize, ← Nat.add_assoc, pow_succ']

theorem blockSize_mono {j k : ℕ} (h : j ≤ k) : blockSize s j ≤ blockSize s k :=
  Nat.pow_le_pow_right (by decide) (by omega)

theorem blockSize_dvd {j k : ℕ} (h : j ≤ k) : blockSize s j ∣ blockSize s k :=
  Nat.pow_dvd_pow 2 (by omega)

theorem Block.covers_addr (b : Block) : b.Covers s b.addr :=
  ⟨le_rfl, Nat.lt_add_of_pos_right (blockSize_pos b.order)⟩

@[simp] theorem coverage_nil (x : ℕ) : coverage s [] x = 0 := rfl

theorem coverage_cons (b : Block) (B : List Block) (x : ℕ) :
    coverage s (b :: B) x = coverage s B x + if b.Covers s x then 1 else 0 := by
  simp [coverage, List.countP_cons]

theorem coverage_cons_mk (a k : ℕ) (B : List Block) (x : ℕ) :
    coverage s (⟨a, k⟩ :: B) x =
      coverage s B x + if a ≤ x ∧ x < a + blockSize s k then 1 else 0 :=
  coverage_cons ⟨a, k⟩ B x

@[simp] theorem coverage_append (B C : List Block) (x : ℕ) :
    coverage s (B ++ C) x = coverage s B x + coverage s C x := by
  simp [coverage]

theorem coverage_singleton (b : Block) (x : ℕ) :
    coverage s [b] x = if b.Covers s x then 1 else 0 := by
  simp [coverage_cons]

theorem coverage_perm {B C : List Block} (h : B.Perm C) (x : ℕ) :
    coverage s B x = coverage s C x := h.countP_eq _

theorem coverage_erase {B : List Block} {b : Block} (h : b ∈ B) (x : ℕ) :
    coverage s (B.erase b) x + (if b.Covers s x then 1 else 0) = coverage s B x := by
  rw [coverage_perm (List.perm_cons_erase h), coverage_cons]

theorem coverage_pos {B : List Block} {x : ℕ} :
    0 < coverage s B x ↔ ∃ b ∈ B, b.Covers s x := by
  simp [coverage, List.countP_pos_iff]

theorem coverage_eq_zero {B : List Block} {x : ℕ} :
    coverage s B x = 0 ↔ ∀ b ∈ B, ¬ b.Covers s x := by
  simp [coverage, List.countP_eq_zero]

theorem coverage_sublist {B C : List Block} (h : B.Sublist C) (x : ℕ) :
    coverage s B x ≤ coverage s C x := h.countP_le

theorem coverage_split (a k x : ℕ) :
    coverage s [⟨a, k⟩, ⟨a + blockSize s k, k⟩] x = coverage s [⟨a, k + 1⟩] x := by
  have hw : Block.Covers s ⟨a, k + 1⟩ x ↔
      Block.Covers s ⟨a, k⟩ x ∨ Block.Covers s ⟨a + blockSize s k, k⟩ x := by
    simp only [Block.Covers, blockSize_succ]
    omega
  have hd : Block.Covers s ⟨a, k⟩ x → ¬ Block.Covers s ⟨a + blockSize s k, k⟩ x := by
    simp only [Block.Covers]
    omega
  simp only [coverage_cons, coverage_nil, hw]
  by_cases h : Block.Covers s ⟨a, k⟩ x
  · simp [hd h]
  · simp [h]

theorem eq_of_covers {B : List Block} {x : ℕ} (h : coverage s B x ≤ 1) {b c : Block}
    (hb : b ∈ B) (hc : c ∈ B) (hbx : b.Covers s x) (hcx : c.Covers s x) : b = c := by
  by_contra hne
  have he := coverage_erase (s := s) hb x
  have hpos : 0 < coverage s (B.erase b) x :=
    coverage_pos.mpr ⟨c, (List.mem_erase_of_ne (Ne.symm hne)).mpr hc, hcx⟩
  rw [if_pos hbx] at he
  omega

theorem nodup_of_coverage {B : List Block} (h : ∀ x, coverage s B x ≤ 1) : B.Nodup := by
  induction B with
  | nil => exact List.nodup_nil
  | cons b B ih =>
    refine List.nodup_cons.mpr ⟨?_, ih fun x => ?_⟩
    · intro hm
      have hx := h b.addr
      have hp : 0 < coverage s B b.addr := coverage_pos.mpr ⟨b, hm, b.covers_addr⟩
      rw [coverage_cons, if_pos b.covers_addr] at hx
      omega
    · have hx := h x
      rw [coverage_cons] at hx
      omega

theorem Tiles.le_one {base len : ℕ} {B : List Block} (h : Tiles s base len B) (x : ℕ) :
    coverage s B x ≤ 1 := by
  rw [h x]
  split_ifs <;> omega

theorem Tiles.bounds {base len : ℕ} {B : List Block} (h : Tiles s base len B) {b : Block}
    (hb : b ∈ B) {x : ℕ} (hx : b.Covers s x) : base ≤ x ∧ x < base + len := by
  have hp : 0 < coverage s B x := coverage_pos.mpr ⟨b, hb, hx⟩
  rw [h x] at hp
  by_contra hn
  rw [if_neg hn] at hp
  exact absurd hp (lt_irrefl 0)

theorem Tiles.inside {base len : ℕ} {B : List Block} (h : Tiles s base len B) {b : Block}
    (hb : b ∈ B) : base ≤ b.addr ∧ b.addr + blockSize s b.order ≤ base + len := by
  have hpos := blockSize_pos (s := s) b.order
  have hlo := h.bounds hb b.covers_addr
  have hhi := h.bounds hb (x := b.addr + blockSize s b.order - 1) ⟨by omega, by omega⟩
  omega

theorem Tiles.partition {base len : ℕ} {B : List Block} (h : Tiles s base len B) :
    Partition s base len B where
  nodup := nodup_of_coverage h.le_one
  disjoint b hb c hc hne x hbx hcx := hne (eq_of_covers (h.le_one x) hb hc hbx hcx)
  inside _ hb := h.inside hb
  covered x hl hr := coverage_pos.mp (by rw [h x, if_pos ⟨hl, hr⟩]; exact Nat.one_pos)

theorem apart_of_coverage {B : List Block} (h : ∀ x, coverage s B x ≤ 1) {b c : Block}
    (hb : b ∈ B) (hc : c ∈ B) (hne : b ≠ c) :
    b.addr + blockSize s b.order ≤ c.addr ∨ c.addr + blockSize s c.order ≤ b.addr := by
  by_contra hn
  push Not at hn
  rcases le_total b.addr c.addr with hle | hle
  · exact hne (eq_of_covers (h c.addr) hb hc ⟨hle, hn.1⟩ c.covers_addr)
  · exact hne (eq_of_covers (h b.addr) hb hc b.covers_addr ⟨hle, hn.2⟩)

theorem Tiles.extend {base len : ℕ} {B : List Block} (h : Tiles s base len B) (k : ℕ) :
    Tiles s base (len + blockSize s k) (⟨base + len, k⟩ :: B) := by
  intro x
  have hpos := blockSize_pos (s := s) k
  rw [coverage_cons_mk, h x]
  by_cases h1 : base ≤ x ∧ x < base + len
  · rw [if_pos h1, if_neg (by omega), if_pos (by omega)]
  · rw [if_neg h1]
    by_cases h2 : base + len ≤ x ∧ x < base + len + blockSize s k
    · rw [if_pos h2, if_pos (by omega)]
    · rw [if_neg h2, if_neg (by omega)]

theorem Tiles.congr {base len : ℕ} {B C : List Block} (h : Tiles s base len B)
    (hc : ∀ x, coverage s C x = coverage s B x) : Tiles s base len C :=
  fun x => (hc x).trans (h x)

/-- The buddy address flips the bit of the block's own size. -/
def buddy (s a k : ℕ) : ℕ := a ^^^ blockSize s k

theorem xor_two_pow (a n : ℕ) :
    a ^^^ 2 ^ n = if a.testBit n then a - 2 ^ n else a + 2 ^ n := by
  have hmod : (a ^^^ 2 ^ n) % 2 ^ n = a % 2 ^ n := by
    rw [Nat.xor_mod_two_pow, Nat.mod_self, Nat.xor_zero]
  have hdiv : (a ^^^ 2 ^ n) / 2 ^ n = a / 2 ^ n ^^^ 1 := by
    rw [Nat.xor_div_two_pow, Nat.div_self (Nat.two_pow_pos n)]
  have hx := Nat.div_add_mod (a ^^^ 2 ^ n) (2 ^ n)
  have ha := Nat.div_add_mod a (2 ^ n)
  rw [hmod, hdiv] at hx
  have hbit : a.testBit n = decide (a / 2 ^ n % 2 = 1) := Nat.testBit_eq_decide_div_mod_eq
  rw [hbit]
  generalize hq : a / 2 ^ n = q at *
  rcases Nat.mod_two_eq_zero_or_one q with h | h
  · have hq1 : q ^^^ 1 = q + 1 := by
      rw [Nat.xor_one_of_even (Nat.even_iff.mpr h)]
    rw [hq1, Nat.mul_add] at hx
    simp only [h, decide_false, Bool.false_eq_true, if_false, zero_ne_one]
    omega
  · have hq1 : q ^^^ 1 = q - 1 := by
      rw [Nat.xor_one_of_odd (Nat.odd_iff.mpr h)]
    have hm : 2 ^ n * q = 2 ^ n * (q - 1) + 2 ^ n := by
      rw [← Nat.mul_succ]; congr 1; omega
    rw [hq1] at hx
    simp only [h, decide_true, if_true]
    omega

theorem buddy_ne (a k : ℕ) : buddy s a k ≠ a := by
  have hpos := blockSize_pos (s := s) k
  simp only [buddy, blockSize, xor_two_pow] at *
  split_ifs with h
  · have := Nat.ge_two_pow_of_testBit h
    omega
  · omega

theorem buddy_buddy (a k : ℕ) : buddy s (buddy s a k) k = a := by
  simp [buddy]

/-- Whatever the alignment of `a`, its buddy is the adjacent block on one side. -/
theorem buddy_adjacent (a k : ℕ) :
    buddy s a k = a + blockSize s k ∨ a = buddy s a k + blockSize s k := by
  simp only [buddy, blockSize, xor_two_pow]
  split_ifs with h
  · have := Nat.ge_two_pow_of_testBit h
    omega
  · exact Or.inl rfl

theorem coverage_merge (a k x : ℕ) :
    coverage s [⟨a, k⟩, ⟨buddy s a k, k⟩] x =
      coverage s [⟨min a (buddy s a k), k + 1⟩] x := by
  rcases buddy_adjacent (s := s) a k with h | h
  · rw [h, Nat.min_eq_left (by omega)]
    exact coverage_split a k x
  · rw [Nat.min_eq_right (by omega), ← coverage_split, ← h]
    exact coverage_perm (List.Perm.swap _ _ _) x

end BuddyTiling
