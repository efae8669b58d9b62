import Mathlib.Data.Nat.Bitwise
import Mathlib.Data.List.Nodup
import Mathlib.Tactic.Ring

/-!
# Flat byte memory and NULL-terminated chains

Memory is a total map from addresses to bytes. Words are 64-bit little-endian.
A chain is a singly linked list whose next pointer is the first word of its node.
-/
namespace ByteMemory

abbrev Mem := ℕ → UInt8

def loadLE (m : Mem) (a : ℕ) : ℕ → ℕ
  | 0 => 0
  | n + 1 => (m a).toNat + 256 * loadLE m (a + 1) n

def load64 (m : Mem) (a : ℕ) : ℕ := loadLE m a 8

def store64 (m : Mem) (a v : ℕ) : Mem :=
  fun x => if a ≤ x ∧ x < a + 8 then UInt8.ofNat (v / 256 ^ (x - a)) else m x

def load32 (m : Mem) (a : ℕ) : ℕ := loadLE m a 4

def store32 (m : Mem) (a v : ℕ) : Mem :=
  fun x => if a ≤ x ∧ x < a + 4 then UInt8.ofNat (v / 256 ^ (x - a)) else m x

def store8 (m : Mem) (a : ℕ) (v : UInt8) : Mem := fun x => if x = a then v else m x

def AgreeOn (m m' : Mem) (a n : ℕ) : Prop := ∀ x, a ≤ x → x < a + n → m' x = m x

theorem AgreeOn.symm {m m' : Mem} {a n : ℕ} (h : AgreeOn m m' a n) : AgreeOn m' m a n :=
  fun x hl hr => (h x hl hr).symm

theorem AgreeOn.trans {m₁ m₂ m₃ : Mem} {a n : ℕ} (h : AgreeOn m₁ m₂ a n)
    (k : AgreeOn m₂ m₃ a n) : AgreeOn m₁ m₃ a n :=
  fun x hl hr => (k x hl hr).trans (h x hl hr)

theorem AgreeOn.mono {m m' : Mem} {a n b k : ℕ} (h : AgreeOn m m' a n) (hl : a ≤ b)
    (hr : b + k ≤ a + n) : AgreeOn m m' b k :=
  fun x h₁ h₂ => h x (by omega) (by omega)

theorem loadLE_congr {m m' : Mem} {a : ℕ} (n : ℕ) (h : AgreeOn m m' a n) :
    loadLE m' a n = loadLE m a n := by
  induction n generalizing a with
  | zero => rfl
  | succ n ih =>
    simp only [loadLE]
    rw [h a le_rfl (by omega), ih (h.mono (by omega) (by omega))]

theorem load64_congr {m m' : Mem} {a : ℕ} (h : AgreeOn m m' a 8) :
    load64 m' a = load64 m a := loadLE_congr 8 h

theorem loadLE_lt (m : Mem) (a n : ℕ) : loadLE m a n < 256 ^ n := by
  induction n generalizing a with
  | zero => simp [loadLE]
  | succ n ih =>
    have hb := (m a).toNat_lt
    have hr := ih (a + 1)
    simp only [loadLE, pow_succ]
    omega

theorem load64_lt (m : Mem) (a : ℕ) : load64 m a < 2 ^ 64 := by
  have h := loadLE_lt m a 8
  norm_num at h ⊢
  exact h

theorem loadLE_digits (m : Mem) (a v n : ℕ)
    (h : ∀ i, i < n → m (a + i) = UInt8.ofNat (v / 256 ^ i)) :
    loadLE m a n = v % 256 ^ n := by
  induction n generalizing a v with
  | zero => simp [loadLE, Nat.mod_one]
  | succ n ih =>
    have hd := h 0 (by omega)
    have ht := ih (a + 1) (v / 256) (fun i hi => by
      rw [Nat.div_div_eq_div_mul, ← pow_succ', Nat.add_assoc, Nat.add_comm 1 i]
      exact h (i + 1) (by omega))
    simp only [Nat.add_zero, pow_zero, Nat.div_one] at hd
    have hp : (256 : ℕ) ^ (n + 1) = 256 * 256 ^ n := pow_succ' 256 n
    simp only [loadLE, hd, ht, UInt8.toNat_ofNat']
    rw [hp, Nat.mod_mul]

@[simp] theorem load64_store64_same (m : Mem) (a v : ℕ) :
    load64 (store64 m a v) a = v % 2 ^ 64 := by
  have h := loadLE_digits (store64 m a v) a v 8 (fun i hi => by
    simp only [store64]
    rw [if_pos ⟨by omega, by omega⟩, Nat.add_sub_cancel_left])
  norm_num at h ⊢
  exact h

theorem store64_outside (m : Mem) (a v x : ℕ) (h : x < a ∨ a + 8 ≤ x) :
    store64 m a v x = m x := by
  simp only [store64]
  rw [if_neg (by omega)]

@[simp] theorem load32_store32_same (m : Mem) (a v : ℕ) :
    load32 (store32 m a v) a = v % 2 ^ 32 := by
  have h := loadLE_digits (store32 m a v) a v 4 (fun i hi => by
    simp only [store32]
    rw [if_pos ⟨by omega, by omega⟩, Nat.add_sub_cancel_left])
  norm_num at h ⊢
  exact h

theorem store32_outside (m : Mem) (a v x : ℕ) (h : x < a ∨ a + 4 ≤ x) :
    store32 m a v x = m x := by
  simp only [store32]
  rw [if_neg (by omega)]

theorem load32_congr {m m' : Mem} {a : ℕ} (h : AgreeOn m m' a 4) :
    load32 m' a = load32 m a := loadLE_congr 4 h

theorem load64_store64_disjoint (m : Mem) (a b v : ℕ) (h : b + 8 ≤ a ∨ a + 8 ≤ b) :
    load64 (store64 m a v) b = load64 m b :=
  load64_congr fun x hl hr => store64_outside m a v x (by omega)

theorem loadLE_zero (m : Mem) (a n : ℕ) (h : ∀ x, a ≤ x → x < a + n → m x = 0) :
    loadLE m a n = 0 := by
  induction n generalizing a with
  | zero => rfl
  | succ n ih =>
    simp only [loadLE]
    rw [h a le_rfl (by omega), ih (a + 1) (fun x hl hr => h x (by omega) (by omega))]
    rfl

theorem load64_zero (m : Mem) (a : ℕ) (h : ∀ x, a ≤ x → x < a + 8 → m x = 0) :
    load64 m a = 0 := loadLE_zero m a 8 h

/-- The list of nodes met from head pointer `h` until NULL. -/
def Chain (m : Mem) : ℕ → List ℕ → Prop
  | h, [] => h = 0
  | h, a :: l => h = a ∧ a ≠ 0 ∧ Chain m (load64 m a) l

theorem Chain.head_zero {m : Mem} {h : ℕ} {l : List ℕ} (c : Chain m h l) :
    h = 0 ↔ l = [] := by
  cases l with
  | nil => exact iff_of_true c rfl
  | cons a l => exact iff_of_false (fun hz => c.2.1 (c.1.symm.trans hz)) (by simp)

theorem Chain.unique {m : Mem} {h : ℕ} {l l' : List ℕ} (c : Chain m h l)
    (c' : Chain m h l') : l = l' := by
  induction l generalizing h l' with
  | nil => exact ((Chain.head_zero c').mp c).symm
  | cons a l ih =>
    cases l' with
    | nil => exact absurd c' (c.1 ▸ c.2.1)
    | cons b l' =>
      have hab : a = b := c.1.symm.trans c'.1
      subst hab
      rw [ih c.2.2 c'.2.2]

/-- A chain survives every write that misses the first word of each of its nodes. -/
theorem Chain.frame {m m' : Mem} {h : ℕ} {l : List ℕ} (c : Chain m h l)
    (hm : ∀ a ∈ l, AgreeOn m m' a 8) : Chain m' h l := by
  induction l generalizing h with
  | nil => exact c
  | cons a l ih =>
    refine ⟨c.1, c.2.1, ?_⟩
    rw [load64_congr (hm a (by simp))]
    exact ih c.2.2 (fun b hb => hm b (by simp [hb]))

theorem Chain.push {m m' : Mem} {h a : ℕ} {l : List ℕ} (c : Chain m h l) (ha : a ≠ 0)
    (hw : load64 m' a = h) (hm : ∀ b ∈ l, AgreeOn m m' b 8) : Chain m' a (a :: l) :=
  ⟨rfl, ha, by rw [hw]; exact c.frame hm⟩

theorem Chain.unlink {m m' : Mem} {h p a : ℕ} {pre post : List ℕ}
    (c : Chain m h (pre ++ p :: a :: post)) (hw : load64 m' p = load64 m a)
    (hpre : ∀ b ∈ pre, AgreeOn m m' b 8) (hpost : ∀ b ∈ post, AgreeOn m m' b 8) :
    Chain m' h (pre ++ p :: post) := by
  induction pre generalizing h with
  | nil =>
    refine ⟨c.1, c.2.1, ?_⟩
    rw [hw]
    exact Chain.frame c.2.2.2.2 hpost
  | cons b pre ih =>
    refine ⟨c.1, c.2.1, ?_⟩
    rw [load64_congr (hpre b (by simp))]
    exact ih c.2.2 (fun x hx => hpre x (by simp [hx]))

end ByteMemory
