import OppoOS.BuddyTiling
import Mathlib.Logic.Function.Basic
import Mathlib.Tactic.Linarith

/-!
# The binary buddy system

Free blocks are kept by order, one list of addresses a level, up to order `K`.
Allocation splits the smallest sufficient block; release merges with the buddy as
long as the buddy is free. Nothing here assumes that addresses are naturally aligned
unless a hypothesis says so: a buddy is always an adjacent block of the same order.
-/
namespace BuddySystem

open BuddyTiling Function

abbrev Levels := ℕ → List ℕ

def level (L : Levels) (k : ℕ) : List Block := (L k).map (Block.mk · k)

def blocksOf (K : ℕ) (L : Levels) : List Block := (List.range (K + 1)).flatMap (level L)

variable (s K : ℕ)

def search (L : Levels) : ℕ → ℕ → ℕ
  | 0, c => c
  | n + 1, c => if L c = [] then search L n (c + 1) else c

def splitOnce (L : Levels) (k : ℕ) : Levels :=
  match L (k + 1) with
  | [] => L
  | a :: rest => update (update L (k + 1) rest) k (a :: (a + blockSize s k) :: L k)

def splitDown (o : ℕ) : ℕ → Levels → Levels
  | 0, L => L
  | n + 1, L => splitDown o n (splitOnce s L (o + n))

def alloc (L : Levels) (o : ℕ) : Option (ℕ × Levels) :=
  let c := search L (K + 1 - o) o
  if c ≤ K then
    let L' := splitDown s o (c - o) L
    match L' o with
    | [] => none
    | a :: rest => some (a, update L' o rest)
  else none

def release : ℕ → Levels → ℕ → ℕ → Levels
  | 0, L, a, k => update L k (a :: L k)
  | n + 1, L, a, k =>
    if buddy s a k ∈ L k then
      release n (update L k ((L k).erase (buddy s a k))) (min a (buddy s a k)) (k + 1)
    else update L k (a :: L k)

def free (L : Levels) (a k : ℕ) : Levels := release s (K - k) L a k

/-- Greedy filling of `n` units from address `a`, largest order first; the levels
still to fill are those below the counter. -/
def seed : ℕ → ℕ → ℕ → Levels → Levels
  | 0, _, _, L => L
  | k + 1, a, n, L =>
    seed k (a + n / 2 ^ k * blockSize s k) (n % 2 ^ k)
      (update L k (((List.range (n / 2 ^ k)).map (fun i => a + i * blockSize s k)).reverse ++ L k))

def initial (base n : ℕ) : Levels := seed s (K + 1) base n (fun _ => [])

variable {s K}

theorem mem_level {L : Levels} {k : ℕ} {b : Block} :
    b ∈ level L k ↔ b.order = k ∧ b.addr ∈ L k := by
  simp only [level, List.mem_map]
  constructor
  · rintro ⟨a, ha, rfl⟩; exact ⟨rfl, ha⟩
  · rintro ⟨rfl, ha⟩; exact ⟨b.addr, ha, rfl⟩

theorem mem_blocksOf {L : Levels} {b : Block} :
    b ∈ blocksOf K L ↔ b.order ≤ K ∧ b.addr ∈ L b.order := by
  simp only [blocksOf, List.mem_flatMap, List.mem_range, mem_level]
  constructor
  · rintro ⟨k, hk, rfl, ha⟩; exact ⟨by omega, ha⟩
  · rintro ⟨hk, ha⟩; exact ⟨b.order, by omega, rfl, ha⟩

theorem mem_of_push {L : Levels} {a k : ℕ} {b : Block}
    (hb : b ∈ blocksOf K (update L k (a :: L k))) : b ∈ ⟨a, k⟩ :: blocksOf K L := by
  obtain ⟨hbk, hm⟩ := mem_blocksOf.mp hb
  by_cases hk : b.order = k
  · subst hk
    rw [update_self] at hm
    rcases List.mem_cons.mp hm with hm | hm
    · simp [← hm]
    · exact List.mem_cons_of_mem _ (mem_blocksOf.mpr ⟨hbk, hm⟩)
  · rw [update_of_ne hk] at hm
    exact List.mem_cons_of_mem _ (mem_blocksOf.mpr ⟨hbk, hm⟩)

theorem mem_of_remove {L : Levels} {k c : ℕ} {b : Block}
    (hb : b ∈ blocksOf K (update L k ((L k).erase c))) : b ∈ blocksOf K L := by
  obtain ⟨hbk, hm⟩ := mem_blocksOf.mp hb
  refine mem_blocksOf.mpr ⟨hbk, ?_⟩
  by_cases hk : b.order = k
  · rw [hk, update_self] at hm
    rw [hk]
    exact List.mem_of_mem_erase hm
  · rwa [update_of_ne hk] at hm

theorem coverage_blocksOf (L : Levels) (x : ℕ) :
    coverage s (blocksOf K L) x = ∑ k ∈ Finset.range (K + 1), coverage s (level L k) x := by
  unfold blocksOf
  induction K + 1 with
  | zero => rfl
  | succ n ih =>
    rw [List.range_succ, List.flatMap_append, coverage_append, ih, Finset.sum_range_succ]
    simp

theorem coverage_update {L : Levels} {k : ℕ} (hk : k ≤ K) (l : List ℕ) (x : ℕ) :
    coverage s (blocksOf K (update L k l)) x + coverage s (level L k) x =
      coverage s (blocksOf K L) x + coverage s (l.map (Block.mk · k)) x := by
  have hm : k ∈ Finset.range (K + 1) := Finset.mem_range.mpr (by omega)
  have hr : ∑ j ∈ (Finset.range (K + 1)).erase k, coverage s (level (update L k l) j) x =
      ∑ j ∈ (Finset.range (K + 1)).erase k, coverage s (level L j) x := by
    refine Finset.sum_congr rfl fun j hj => ?_
    simp only [level, update_of_ne (Finset.ne_of_mem_erase hj)]
  rw [coverage_blocksOf, coverage_blocksOf, ← Finset.add_sum_erase _ _ hm,
    ← Finset.add_sum_erase _ _ hm, hr]
  simp only [level, update_self]
  omega

theorem coverage_push {L : Levels} {k : ℕ} (hk : k ≤ K) (a x : ℕ) :
    coverage s (blocksOf K (update L k (a :: L k))) x =
      coverage s (⟨a, k⟩ :: blocksOf K L) x := by
  have h := coverage_update (s := s) (L := L) hk (a :: L k) x
  simp only [List.map_cons, coverage_cons, level] at h ⊢
  omega

theorem coverage_pop {L : Levels} {k a : ℕ} {rest : List ℕ} (hk : k ≤ K)
    (hL : L k = a :: rest) (x : ℕ) :
    coverage s (⟨a, k⟩ :: blocksOf K (update L k rest)) x = coverage s (blocksOf K L) x := by
  have h := coverage_update (s := s) (L := L) hk rest x
  simp only [level, hL, List.map_cons, coverage_cons] at h ⊢
  omega

theorem coverage_remove {L : Levels} {k a : ℕ} (hk : k ≤ K) (ha : a ∈ L k) (x : ℕ) :
    coverage s (⟨a, k⟩ :: blocksOf K (update L k ((L k).erase a))) x =
      coverage s (blocksOf K L) x := by
  have h := coverage_update (s := s) (L := L) hk ((L k).erase a) x
  have hp : coverage s (level L k) x =
      coverage s (⟨a, k⟩ :: ((L k).erase a).map (Block.mk · k)) x :=
    coverage_perm ((List.perm_cons_erase ha).map (Block.mk · k)) x
  rw [hp] at h
  simp only [coverage_cons] at h ⊢
  omega

theorem splitOnce_cons {L : Levels} {k a : ℕ} {rest : List ℕ} (h : L (k + 1) = a :: rest) :
    splitOnce s L k = update (update L (k + 1) rest) k (a :: (a + blockSize s k) :: L k) := by
  simp [splitOnce, h]

theorem coverage_splitOnce {L : Levels} {k : ℕ} (hk : k + 1 ≤ K) (x : ℕ) :
    coverage s (blocksOf K (splitOnce s L k)) x = coverage s (blocksOf K L) x := by
  cases hL : L (k + 1) with
  | nil => simp [splitOnce, hL]
  | cons a rest =>
    rw [splitOnce_cons hL]
    have h1 := coverage_pop (s := s) hk hL x
    have h2 := coverage_update (s := s) (L := update L (k + 1) rest) (show k ≤ K by omega)
      (a :: (a + blockSize s k) :: L k) x
    have h3 := coverage_split (s := s) a k x
    simp only [level, update_of_ne (show k ≠ k + 1 by omega), List.map_cons, coverage_cons,
      coverage_nil] at h1 h2 h3
    omega

theorem coverage_splitDown (o n : ℕ) (L : Levels) (h : o + n ≤ K) (x : ℕ) :
    coverage s (blocksOf K (splitDown s o n L)) x = coverage s (blocksOf K L) x := by
  induction n generalizing L with
  | zero => rfl
  | succ n ih => exact (ih _ (by omega)).trans (coverage_splitOnce (by omega) x)

theorem coverage_alloc {L L' : Levels} {o a : ℕ} (h : alloc s K L o = some (a, L')) (x : ℕ) :
    coverage s (⟨a, o⟩ :: blocksOf K L') x = coverage s (blocksOf K L) x := by
  unfold alloc at h
  simp only at h
  split at h
  · next hc =>
    split at h
    · cases h
    · next b rest hb =>
      simp only [Option.some.injEq, Prod.mk.injEq] at h
      obtain ⟨rfl, rfl⟩ := h
      by_cases ho : o ≤ K
      · rw [coverage_pop ho hb, coverage_splitDown _ _ _ ?_]
        omega
      · have hs : K + 1 - o = 0 := by omega
        simp only [hs, search] at hc
        omega
  · cases h

theorem coverage_mergeStep {L : Levels} {a k : ℕ} (hk : k ≤ K) (hb : buddy s a k ∈ L k)
    (x : ℕ) :
    coverage s (⟨min a (buddy s a k), k + 1⟩ ::
        blocksOf K (update L k ((L k).erase (buddy s a k)))) x =
      coverage s (⟨a, k⟩ :: blocksOf K L) x := by
  have h1 := coverage_remove (s := s) hk hb x
  have h2 := coverage_merge (s := s) a k x
  simp only [coverage_cons, coverage_nil] at h1 h2 ⊢
  omega

theorem coverage_release (n : ℕ) (L : Levels) (a k : ℕ) (h : k + n ≤ K) (x : ℕ) :
    coverage s (blocksOf K (release s n L a k)) x = coverage s (⟨a, k⟩ :: blocksOf K L) x := by
  induction n generalizing L a k with
  | zero => exact coverage_push (by omega) a x
  | succ n ih =>
    unfold release
    split
    · next hb => rw [ih _ _ _ (by omega), coverage_mergeStep (by omega) hb]
    · exact coverage_push (by omega) a x

theorem coverage_free {L : Levels} {a k : ℕ} (hk : k ≤ K) (x : ℕ) :
    coverage s (blocksOf K (free s K L a k)) x = coverage s (⟨a, k⟩ :: blocksOf K L) x :=
  coverage_release _ _ _ _ (by omega) x

theorem coverage_run (a k q x : ℕ) :
    coverage s (((List.range q).map (fun i => a + i * blockSize s k)).map (Block.mk · k)) x =
      if a ≤ x ∧ x < a + q * blockSize s k then 1 else 0 := by
  induction q with
  | zero =>
    simp only [List.range_zero, List.map_nil, coverage_nil, Nat.zero_mul, Nat.add_zero]
    rw [if_neg (by omega)]
  | succ q ih =>
    have hpos := blockSize_pos (s := s) k
    rw [List.range_succ, List.map_append, List.map_append, coverage_append, ih]
    simp only [List.map_cons, List.map_nil, coverage_singleton, Block.Covers, Nat.succ_mul]
    by_cases h1 : a ≤ x ∧ x < a + q * blockSize s k
    · rw [if_pos h1, if_neg (by omega), if_pos (by omega)]
    · rw [if_neg h1]
      by_cases h2 : a + q * blockSize s k ≤ x ∧ x < a + q * blockSize s k + blockSize s k
      · rw [if_pos h2, if_pos (by omega)]
      · rw [if_neg h2, if_neg (by omega)]

theorem coverage_fill {L : Levels} {k : ℕ} (hk : k ≤ K) (a q x : ℕ) :
    coverage s (blocksOf K (update L k
        (((List.range q).map (fun i => a + i * blockSize s k)).reverse ++ L k))) x =
      coverage s (blocksOf K L) x + if a ≤ x ∧ x < a + q * blockSize s k then 1 else 0 := by
  have h := coverage_update (s := s) (L := L) hk
    (((List.range q).map (fun i => a + i * blockSize s k)).reverse ++ L k) x
  rw [List.map_append, coverage_append, List.map_reverse,
    coverage_perm (List.reverse_perm _), coverage_run] at h
  simp only [level] at h
  omega

theorem tiles_fill {L : Levels} {k base len : ℕ} (h : Tiles s base len (blocksOf K L))
    (hk : k ≤ K) (q : ℕ) :
    Tiles s base (len + q * blockSize s k) (blocksOf K (update L k
      (((List.range q).map (fun i => base + len + i * blockSize s k)).reverse ++ L k))) := by
  intro x
  rw [coverage_fill hk, h x]
  by_cases h1 : base ≤ x ∧ x < base + len
  · rw [if_pos h1, if_neg (by omega), if_pos (by omega)]
  · rw [if_neg h1]
    by_cases h2 : base + len ≤ x ∧ x < base + len + q * blockSize s k
    · rw [if_pos h2, if_pos (by omega)]
    · rw [if_neg h2, if_neg (by omega)]

theorem units_split (n k : ℕ) :
    n * 2 ^ s = n / 2 ^ k * blockSize s k + n % 2 ^ k * 2 ^ s := by
  have hsz : blockSize s k = 2 ^ k * 2 ^ s := by rw [blockSize, Nat.add_comm s, pow_add]
  rw [hsz, ← Nat.mul_assoc, ← Nat.add_mul, Nat.div_add_mod']

theorem coverage_seed (k a n : ℕ) (L : Levels) (hk : k ≤ K) (x : ℕ) :
    coverage s (blocksOf K (seed s (k + 1) a n L)) x =
      coverage s (blocksOf K L) x + if a ≤ x ∧ x < a + n * 2 ^ s then 1 else 0 := by
  induction k generalizing a n L with
  | zero =>
    simp only [seed, pow_zero, Nat.div_one]
    rw [coverage_fill hk]
    rfl
  | succ k ih =>
    rw [seed, ih _ _ _ (by omega), coverage_fill hk, units_split n (k + 1)]
    generalize n / 2 ^ (k + 1) * blockSize s (k + 1) = p
    generalize n % 2 ^ (k + 1) * 2 ^ s = r
    by_cases h1 : a ≤ x ∧ x < a + p
    · rw [if_pos h1, if_neg (by omega), if_pos (by omega)]
    · rw [if_neg h1]
      by_cases h2 : a + p ≤ x ∧ x < a + p + r
      · rw [if_pos h2, if_pos (by omega)]
      · rw [if_neg h2, if_neg (by omega)]

theorem initial_tiles (base n : ℕ) :
    Tiles s base (n * 2 ^ s) (blocksOf K (initial s K base n)) := by
  intro x
  have h0 : coverage s (blocksOf K (fun _ => [])) x = 0 :=
    coverage_eq_zero.mpr fun b hb => by simp [mem_blocksOf] at hb
  rw [initial, coverage_seed _ _ _ _ le_rfl, h0, Nat.zero_add]

theorem search_spec (L : Levels) (n c : ℕ) :
    c ≤ search L n c ∧ search L n c ≤ c + n ∧
      (∀ j, c ≤ j → j < search L n c → L j = []) ∧
      (search L n c < c + n → L (search L n c) ≠ []) := by
  induction n generalizing c with
  | zero => exact ⟨le_rfl, le_rfl, fun j _ _ => by simp only [search] at *; omega,
      fun h => absurd h (lt_irrefl _)⟩
  | succ n ih =>
    unfold search
    split
    · next he =>
      obtain ⟨h1, h2, h3, h4⟩ := ih (c + 1)
      refine ⟨by omega, by omega, fun j hj hlt => ?_, fun h => h4 (by omega)⟩
      rcases eq_or_lt_of_le hj with rfl | hj
      · exact he
      · exact h3 j hj hlt
    · next he => exact ⟨le_rfl, by omega, fun j _ _ => by omega, fun _ => he⟩

theorem splitDown_shape (o n : ℕ) {L : Levels} {a : ℕ} {rest : List ℕ}
    (hL : L (o + n) = a :: rest) (he : ∀ j, o ≤ j → j < o + n → L j = []) :
    ∃ tail, splitDown s o n L o = a :: tail ∧
      update (splitDown s o n L) o tail = fun j =>
        if j = o + n then rest else if o ≤ j ∧ j < o + n then [a + blockSize s j] else L j := by
  induction n generalizing L rest with
  | zero =>
    refine ⟨rest, hL, funext fun j => ?_⟩
    by_cases hj : j = o
    · simp [splitDown, hj]
    · simp only [splitDown, update_of_ne hj, Nat.add_zero, if_neg hj]
      rw [if_neg (by omega)]
  | succ n ih =>
    have hone := splitOnce_cons (s := s) (k := o + n) hL
    have hlow : L (o + n) = [] := he (o + n) (by omega) (by omega)
    have hat : splitOnce s L (o + n) (o + n) = [a, a + blockSize s (o + n)] := by
      rw [hone, update_self, hlow]
    obtain ⟨tail, h1, h2⟩ := ih (L := splitOnce s L (o + n)) hat (fun j hj hlt => by
      rw [hone, update_of_ne (by omega), update_of_ne (by omega)]
      exact he j hj (by omega))
    refine ⟨tail, h1, ?_⟩
    rw [splitDown, h2]
    funext j
    by_cases hj1 : j = o + n
    · subst hj1
      rw [if_pos rfl, if_neg (by omega), if_pos (by omega)]
    · rw [if_neg hj1]
      by_cases hj2 : j = o + n + 1
      · subst hj2
        rw [if_neg (by omega), hone, update_of_ne (by omega), update_self, if_pos (by omega)]
      · rw [if_neg (show j ≠ o + (n + 1) by omega), hone, update_of_ne hj1, update_of_ne hj2]
        by_cases hj3 : o ≤ j ∧ j < o + n
        · rw [if_pos hj3, if_pos (by omega)]
        · rw [if_neg hj3, if_neg (by omega)]

theorem alloc_shape {L L' : Levels} {o a : ℕ} (h : alloc s K L o = some (a, L')) :
    ∃ c rest, o ≤ c ∧ c ≤ K ∧ L c = a :: rest ∧ (∀ j, o ≤ j → j < c → L j = []) ∧
      L' = fun j => if j = c then rest else if o ≤ j ∧ j < c then [a + blockSize s j] else L j := by
  obtain ⟨hlo, hhi, hlow, hne⟩ := search_spec L (K + 1 - o) o
  unfold alloc at h
  generalize search L (K + 1 - o) o = c at *
  by_cases hc : c ≤ K
  · obtain ⟨n, rfl⟩ := Nat.exists_eq_add_of_le hlo
    obtain ⟨b, rest, hL⟩ := List.exists_cons_of_ne_nil (hne (by omega))
    obtain ⟨tail, h1, h2⟩ := splitDown_shape (s := s) o n hL hlow
    simp only [hc, if_true, Nat.add_sub_cancel_left, h1, Option.some.injEq,
      Prod.mk.injEq] at h
    obtain ⟨rfl, rfl⟩ := h
    exact ⟨o + n, rest, by omega, hc, hL, hlow, h2⟩
  · simp [hc] at h

theorem alloc_eq_none {L : Levels} {o : ℕ} :
    alloc s K L o = none ↔ ∀ j, o ≤ j → j ≤ K → L j = [] := by
  obtain ⟨hlo, hhi, hlow, hne⟩ := search_spec L (K + 1 - o) o
  constructor
  · intro h j hj hK
    refine hlow j hj ?_
    unfold alloc at h
    generalize search L (K + 1 - o) o = c at *
    by_cases hc : c ≤ K
    · obtain ⟨n, rfl⟩ := Nat.exists_eq_add_of_le hlo
      obtain ⟨b, rest, hL⟩ := List.exists_cons_of_ne_nil (hne (by omega))
      obtain ⟨tail, h1, -⟩ := splitDown_shape (s := s) o n hL hlow
      simp [hc, h1] at h
    · omega
  · intro h
    unfold alloc
    generalize search L (K + 1 - o) o = c at *
    by_cases hc : c ≤ K
    · exact absurd (h c hlo hc) (hne (by omega))
    · simp [hc]

variable (s) in
/-- Blocks obtained from those of `B` by halving and by merging buddies. -/
inductive Derived (B : List Block) : Block → Prop where
  | base {b} : b ∈ B → Derived B b
  | left {a k} : Derived B ⟨a, k + 1⟩ → Derived B ⟨a, k⟩
  | right {a k} : Derived B ⟨a, k + 1⟩ → Derived B ⟨a + blockSize s k, k⟩
  | merge {a k} : Derived B ⟨a, k⟩ → Derived B ⟨buddy s a k, k⟩ →
      Derived B ⟨min a (buddy s a k), k + 1⟩

theorem Derived.low {B : List Block} {a k : ℕ} (j : ℕ) (h : Derived s B ⟨a, k + j⟩) :
    Derived s B ⟨a, k⟩ := by
  induction j with
  | zero => exact h
  | succ j ih => exact ih h.left

theorem alloc_derived {B : List Block} {L L' : Levels} {o a : ℕ}
    (h : alloc s K L o = some (a, L')) (hL : ∀ b ∈ blocksOf K L, Derived s B b) :
    ∀ b ∈ ⟨a, o⟩ :: blocksOf K L', Derived s B b := by
  obtain ⟨c, rest, hlo, hhi, hc, -, rfl⟩ := alloc_shape h
  have htop : Derived s B ⟨a, c⟩ := hL _ (mem_blocksOf.mpr ⟨hhi, by simp [hc]⟩)
  intro b hb
  rcases List.mem_cons.mp hb with rfl | hb
  · obtain ⟨n, rfl⟩ := Nat.exists_eq_add_of_le hlo
    exact htop.low n
  · obtain ⟨hk, hm⟩ := mem_blocksOf.mp hb
    by_cases h1 : b.order = c
    · rw [if_pos h1] at hm
      exact hL b (mem_blocksOf.mpr ⟨hk, by rw [h1, hc]; exact List.mem_cons_of_mem _ hm⟩)
    · rw [if_neg h1] at hm
      by_cases h2 : o ≤ b.order ∧ b.order < c
      · rw [if_pos h2, List.mem_singleton] at hm
        obtain ⟨n, hn⟩ := Nat.exists_eq_add_of_lt h2.2
        have hup : Derived s B ⟨a, b.order + 1⟩ := by
          refine Derived.low n ?_
          rw [show b.order + 1 + n = c by omega]
          exact htop
        have hr := hup.right
        rw [← hm] at hr
        exact hr
      · rw [if_neg h2] at hm
        exact hL b (mem_blocksOf.mpr ⟨hk, hm⟩)

theorem release_derived {B : List Block} (n : ℕ) {L : Levels} {a k : ℕ}
    (hL : ∀ b ∈ ⟨a, k⟩ :: blocksOf K L, Derived s B b) (hk : k + n ≤ K) :
    ∀ b ∈ blocksOf K (release s n L a k), Derived s B b := by
  induction n generalizing L a k with
  | zero => exact fun b hb => hL b (mem_of_push hb)
  | succ n ih =>
    unfold release
    split
    · next hb =>
      refine ih (fun b hm => ?_) (by omega)
      rcases List.mem_cons.mp hm with rfl | hm
      · exact (hL ⟨a, k⟩ (by simp)).merge
          (hL _ (List.mem_cons_of_mem _ (mem_blocksOf.mpr ⟨by simp only; omega, hb⟩)))
      · exact hL b (List.mem_cons_of_mem _ (mem_of_remove hm))
    · exact fun b hb => hL b (mem_of_push hb)

variable (s K) in
/-- Coalescing is complete: below the top level no free block has its buddy free. -/
def NoBuddies (L : Levels) : Prop := ∀ k, k < K → ∀ a ∈ L k, buddy s a k ∉ L k

theorem noBuddies_of_length {L : Levels} {k : ℕ} (h : (L k).length ≤ 1) :
    ∀ a ∈ L k, buddy s a k ∉ L k := by
  intro a ha hb
  obtain ⟨b, hL⟩ := List.length_eq_one_iff.mp
    (le_antisymm h (List.length_pos_iff.mpr (List.ne_nil_of_mem ha)))
  rw [hL, List.mem_singleton] at ha hb
  exact buddy_ne a k (hb.trans ha.symm)

theorem alloc_noBuddies {L L' : Levels} {o a : ℕ} (h : alloc s K L o = some (a, L'))
    (hL : NoBuddies s K L) : NoBuddies s K L' := by
  obtain ⟨c, rest, -, -, hc, -, rfl⟩ := alloc_shape h
  intro k hk b hb
  by_cases h1 : k = c
  · simp only [if_pos h1] at hb ⊢
    subst h1
    intro hm
    exact hL k hk b (by simp [hc, hb]) (by simp [hc, hm])
  · by_cases h2 : o ≤ k ∧ k < c
    · refine noBuddies_of_length (s := s) (L := fun j => if j = c then rest else
        if o ≤ j ∧ j < c then [a + blockSize s j] else L j) ?_ b hb
      simp [h1, h2]
    · simp only [if_neg h1, if_neg h2] at hb ⊢
      exact hL k hk b hb

theorem noBuddies_erase {L : Levels} (hL : NoBuddies s K L) (k b : ℕ) :
    NoBuddies s K (update L k ((L k).erase b)) := by
  intro j hj a ha hm
  by_cases hjk : j = k
  · subst hjk
    rw [update_self] at ha hm
    exact hL j hj a (List.mem_of_mem_erase ha) (List.mem_of_mem_erase hm)
  · rw [update_of_ne hjk] at ha hm
    exact hL j hj a ha hm

theorem noBuddies_insert {L : Levels} {a k : ℕ} (hL : NoBuddies s K L)
    (ha : k < K → buddy s a k ∉ L k) : NoBuddies s K (update L k (a :: L k)) := by
  intro j hj b hb hm
  by_cases hjk : j = k
  · subst hjk
    rw [update_self] at hb hm
    rcases List.mem_cons.mp hb with rfl | hb
    · rcases List.mem_cons.mp hm with he | hm
      · exact buddy_ne b j he
      · exact ha hj hm
    · rcases List.mem_cons.mp hm with he | hm
      · exact ha hj (by rw [← he, buddy_buddy]; exact hb)
      · exact hL j hj b hb hm
  · rw [update_of_ne hjk] at hb hm
    exact hL j hj b hb hm

theorem release_noBuddies (n : ℕ) {L : Levels} {a k : ℕ} (hL : NoBuddies s K L)
    (hk : k + n = K) : NoBuddies s K (release s n L a k) := by
  induction n generalizing L a k with
  | zero => exact noBuddies_insert hL fun h => absurd h (by omega)
  | succ n ih =>
    unfold release
    split
    · exact ih (noBuddies_erase hL k _) (by omega)
    · next hb => exact noBuddies_insert hL fun _ => hb

theorem seed_length (k : ℕ) {a n : ℕ} {L : Levels} (hn : n < 2 ^ k)
    (hL : ∀ j, j < k → L j = []) :
    (∀ j, j < k → (seed s k a n L j).length ≤ 1) ∧ ∀ j, k ≤ j → seed s k a n L j = L j := by
  induction k generalizing a n L with
  | zero => exact ⟨fun j hj => absurd hj (by omega), fun _ _ => rfl⟩
  | succ k ih =>
    have hq : n / 2 ^ k ≤ 1 := by
      rw [pow_succ'] at hn
      have := Nat.div_lt_of_lt_mul (by rw [Nat.mul_comm]; exact hn : n < 2 ^ k * 2)
      omega
    obtain ⟨h1, h2⟩ := ih (a := a + n / 2 ^ k * blockSize s k)
      (L := update L k (((List.range (n / 2 ^ k)).map (fun i => a + i * blockSize s k)).reverse
        ++ L k)) (Nat.mod_lt n (Nat.two_pow_pos k)) fun j hj => by
          rw [update_of_ne (by omega)]
          exact hL j (by omega)
    refine ⟨fun j hj => ?_, fun j hj => ?_⟩
    · rcases Nat.lt_succ_iff_lt_or_eq.mp hj with hj | rfl
      · exact h1 j hj
      · rw [seed, h2 j le_rfl, update_self, hL j (by omega)]
        simpa using hq
    · rw [seed, h2 j (by omega), update_of_ne (by omega)]

theorem initial_noBuddies (base n : ℕ) : NoBuddies s K (initial s K base n) := by
  intro k hk
  refine noBuddies_of_length ?_
  rw [initial, seed]
  refine (seed_length K (Nat.mod_lt n (Nat.two_pow_pos K)) fun j hj => ?_).1 k hk
  rw [update_of_ne (by omega)]

variable (s) in
def Natural (b : Block) : Prop := blockSize s b.order ∣ b.addr

theorem buddy_of_dvd {a k : ℕ} (h : blockSize s (k + 1) ∣ a) :
    buddy s a k = a + blockSize s k := by
  obtain ⟨q, rfl⟩ := h
  have hbit : (blockSize s (k + 1) * q).testBit (s + k) = false := by
    rw [blockSize, ← Nat.add_assoc, Nat.testBit_two_pow_mul]
    simp
  rw [buddy, show blockSize s k = 2 ^ (s + k) from rfl, xor_two_pow, hbit]
  simp

theorem natural_merge {a k : ℕ} (h : Natural s ⟨a, k⟩) :
    Natural s ⟨min a (buddy s a k), k + 1⟩ := by
  obtain ⟨q, hq⟩ : blockSize s k ∣ a := h
  have hsz : blockSize s k = 2 ^ (s + k) := rfl
  have hdiv : a / 2 ^ (s + k) = q := by
    rw [hq, hsz, Nat.mul_div_cancel_left _ (Nat.two_pow_pos _)]
  have hbit : a.testBit (s + k) = decide (q % 2 = 1) := by
    rw [Nat.testBit_eq_decide_div_mod_eq, hdiv]
  show blockSize s (k + 1) ∣ min a (buddy s a k)
  rw [blockSize_succ, buddy, hsz, xor_two_pow, hbit]
  rcases Nat.mod_two_eq_zero_or_one q with h | h
  · rw [if_neg (by simp [h]), Nat.min_eq_left (by omega), hq, hsz]
    obtain ⟨r, rfl⟩ := Nat.dvd_of_mod_eq_zero h
    exact ⟨r, by ring⟩
  · rw [if_pos (by simp [h]), Nat.min_eq_right (by omega), hq, hsz]
    obtain ⟨r, rfl⟩ : ∃ r, q = 2 * r + 1 := ⟨q / 2, by omega⟩
    exact ⟨r, by rw [Nat.mul_add, Nat.mul_one, Nat.add_sub_cancel]; ring⟩

theorem derived_natural {B : List Block} (hB : ∀ b ∈ B, Natural s b) {b : Block}
    (h : Derived s B b) : Natural s b := by
  induction h with
  | base hb => exact hB _ hb
  | left _ ih => exact (blockSize_dvd (Nat.le_succ _)).trans ih
  | right _ ih => exact Nat.dvd_add ((blockSize_dvd (Nat.le_succ _)).trans ih) dvd_rfl
  | merge _ _ ih _ => exact natural_merge ih

theorem buddy_unit {a k : ℕ} (h : 2 ^ s ∣ a) : 2 ^ s ∣ buddy s a k := by
  have hd : 2 ^ s ∣ blockSize s k := Nat.pow_dvd_pow 2 (by omega)
  rcases buddy_adjacent (s := s) a k with he | he
  · rw [he]
    exact (Nat.dvd_add_right h).mpr hd
  · rw [he] at h
    exact (Nat.dvd_add_left hd).mp h

theorem derived_unit {B : List Block} (hB : ∀ b ∈ B, 2 ^ s ∣ b.addr) {b : Block}
    (h : Derived s B b) : 2 ^ s ∣ b.addr := by
  induction h with
  | base hb => exact hB _ hb
  | left _ ih => exact ih
  | right _ ih => exact (Nat.dvd_add_right ih).mpr (Nat.pow_dvd_pow 2 (by omega))
  | @merge a k _ _ ih _ =>
    rcases min_choice a (buddy s a k) with h | h <;> simp only [h]
    · exact ih
    · exact buddy_unit ih

theorem multiple_le {m a x : ℕ} (hm : m ∣ a) {b : ℕ} (hb : m ∣ b) (h : a ≤ x)
    (hx : x < b + m) : a ≤ b := by
  obtain ⟨u, rfl⟩ := hm
  obtain ⟨v, rfl⟩ := hb
  refine Nat.mul_le_mul_left m ?_
  by_contra hn
  have := Nat.mul_le_mul_left m (show v + 1 ≤ u by omega)
  rw [Nat.mul_add, Nat.mul_one] at this
  omega

theorem natural_nested {b c : Block} (hb : Natural s b) (hc : Natural s c)
    (hle : b.order ≤ c.order) {x : ℕ} (hbx : b.Covers s x) (hcx : c.Covers s x) :
    c.addr ≤ b.addr ∧ b.addr + blockSize s b.order ≤ c.addr + blockSize s c.order := by
  have hd := blockSize_dvd (s := s) hle
  refine ⟨multiple_le (hd.trans hc) hb hcx.1 hbx.2, ?_⟩
  refine multiple_le (Nat.dvd_add hb dvd_rfl) (Nat.dvd_add (hd.trans hc) hd) le_rfl ?_
  have := hbx.1
  have := hcx.2
  omega

theorem mem_fill {L : Levels} {k a q : ℕ} {b : Block}
    (hb : b ∈ blocksOf K (update L k
      (((List.range q).map (fun i => a + i * blockSize s k)).reverse ++ L k))) :
    b ∈ blocksOf K L ∨ ∃ i, i < q ∧ b = ⟨a + i * blockSize s k, k⟩ := by
  obtain ⟨hk, hm⟩ := mem_blocksOf.mp hb
  by_cases ho : b.order = k
  · subst ho
    rw [update_self, List.mem_append, List.mem_reverse, List.mem_map] at hm
    rcases hm with ⟨i, hi, he⟩ | hm
    · exact Or.inr ⟨i, List.mem_range.mp hi, by rw [he]⟩
    · exact Or.inl (mem_blocksOf.mpr ⟨hk, hm⟩)
  · rw [update_of_ne ho] at hm
    exact Or.inl (mem_blocksOf.mpr ⟨hk, hm⟩)

theorem seed_natural (k : ℕ) {a n : ℕ} {L : Levels}
    (ha : ∀ j, j < k → 2 ^ j ≤ n → blockSize s j ∣ a)
    (hL : ∀ b ∈ blocksOf K L, Natural s b) : ∀ b ∈ blocksOf K (seed s k a n L), Natural s b := by
  induction k generalizing a n L with
  | zero => exact hL
  | succ k ih =>
    have hq : 0 < n / 2 ^ k → blockSize s k ∣ a := fun h =>
      ha k (Nat.lt_succ_self k) ((Nat.div_pos_iff.mp h).2)
    refine ih (fun j hj hle => ?_) fun b hb => ?_
    · have hkj : blockSize s j ∣ blockSize s k := blockSize_dvd hj.le
      refine Nat.dvd_add ?_ (hkj.trans (Nat.dvd_mul_left _ _))
      rcases Nat.eq_zero_or_pos (n / 2 ^ k) with hz | hpos
      · refine ha j (by omega) (hle.trans (Nat.mod_le n _))
      · exact hkj.trans (hq hpos)
    · rcases mem_fill hb with hb | ⟨i, hi, rfl⟩
      · exact hL b hb
      · exact Nat.dvd_add (hq (by omega)) (Nat.dvd_mul_left _ _)

theorem seed_unit (k : ℕ) {a n : ℕ} {L : Levels} (ha : 2 ^ s ∣ a)
    (hL : ∀ b ∈ blocksOf K L, 2 ^ s ∣ b.addr) :
    ∀ b ∈ blocksOf K (seed s k a n L), 2 ^ s ∣ b.addr := by
  induction k generalizing a n L with
  | zero => exact hL
  | succ k ih =>
    have hd : ∀ i, 2 ^ s ∣ i * blockSize s k := fun i =>
      (Nat.pow_dvd_pow 2 (Nat.le_add_right s k)).trans (Nat.dvd_mul_left _ _)
    refine ih (Nat.dvd_add ha (hd _)) fun b hb => ?_
    rcases mem_fill hb with hb | ⟨i, -, rfl⟩
    · exact hL b hb
    · exact Nat.dvd_add ha (hd i)

theorem initial_natural {base n : ℕ} (h : ∀ k, k ≤ K → 2 ^ k ≤ n → blockSize s k ∣ base) :
    ∀ b ∈ blocksOf K (initial s K base n), Natural s b :=
  seed_natural (K + 1) (fun k hk => h k (by omega)) fun b hb => by
    simp [mem_blocksOf] at hb

theorem initial_unit {base n : ℕ} (h : 2 ^ s ∣ base) :
    ∀ b ∈ blocksOf K (initial s K base n), 2 ^ s ∣ b.addr :=
  seed_unit (K + 1) h fun b hb => by simp [mem_blocksOf] at hb

theorem seed_first (k : ℕ) {a n j : ℕ} {L : Levels} (hj : j < k) (hk : k ≤ K + 1)
    (hn : 2 ^ j ≤ n) :
    ∃ i, j ≤ i ∧ (⟨a, i⟩ : Block) ∈ blocksOf K (seed s k a n L) := by
  have keep : ∀ (k a n : ℕ) (L : Levels) (b : Block), b ∈ blocksOf K L →
      b ∈ blocksOf K (seed s k a n L) := by
    intro k
    induction k with
    | zero => exact fun _ _ _ _ hb => hb
    | succ k ih =>
      intro a n L b hb
      refine ih _ _ _ b (mem_blocksOf.mpr ⟨(mem_blocksOf.mp hb).1, ?_⟩)
      by_cases ho : b.order = k
      · subst ho
        rw [update_self]
        exact List.mem_append_right _ (mem_blocksOf.mp hb).2
      · rw [update_of_ne ho]
        exact (mem_blocksOf.mp hb).2
  induction k generalizing n L with
  | zero => omega
  | succ k ih =>
    rcases Nat.eq_zero_or_pos (n / 2 ^ k) with hz | hpos
    · -- the order does not fit: nothing is placed and nothing is used up
      have hlt : n < 2 ^ k := by
        rcases (Nat.div_eq_zero_iff.mp hz) with h | h
        · exact absurd h (Nat.two_pow_pos k).ne'
        · exact h
      have hjk : j < k := (Nat.pow_lt_pow_iff_right (by decide)).mp (lt_of_le_of_lt hn hlt)
      simp only [seed, hz, Nat.zero_mul, Nat.add_zero]
      exact ih hjk (by omega) (by rwa [Nat.mod_eq_of_lt hlt])
    · refine ⟨k, by omega, keep k _ _ _ _ (mem_blocksOf.mpr ⟨by simp only; omega, ?_⟩)⟩
      rw [update_self, List.mem_append, List.mem_reverse, List.mem_map]
      exact Or.inl ⟨0, List.mem_range.mpr hpos, by simp⟩

theorem initial_first (base : ℕ) {n j : ℕ} (hj : j ≤ K) (hn : 2 ^ j ≤ n) :
    ∃ i, j ≤ i ∧ (⟨base, i⟩ : Block) ∈ blocksOf K (initial s K base n) :=
  seed_first (K + 1) (by omega) le_rfl hn

/-- A naturally aligned interval filled by free blocks of at most its order is itself a
free block: its two halves would otherwise be free buddies. -/
theorem full_of_covered {L : Levels} (hn : ∀ b ∈ blocksOf K L, Natural s b)
    (hb : NoBuddies s K L) (k : ℕ) (hk : k ≤ K) {r : ℕ} (hr : blockSize s k ∣ r)
    (hc : ∀ x, r ≤ x → x < r + blockSize s k →
      ∃ b ∈ blocksOf K L, b.Covers s x ∧ b.order ≤ k) : r ∈ L k := by
  have exact_of_order : ∀ (k r x : ℕ) (b : Block), blockSize s k ∣ r → r ≤ x →
      x < r + blockSize s k → b ∈ blocksOf K L → b.Covers s x → b.order = k → r ∈ L k := by
    intro k r x b hr hl hlt hbm hx ho
    subst ho
    have hnb := hn b hbm
    have h1 := multiple_le hr hnb hl hx.2
    have h2 := multiple_le hnb hr hx.1 hlt
    rw [show r = b.addr by omega]
    exact (mem_blocksOf.mp hbm).2
  induction k generalizing r with
  | zero =>
    obtain ⟨b, hbm, hx, ho⟩ := hc r le_rfl (Nat.lt_add_of_pos_right (blockSize_pos 0))
    exact exact_of_order 0 r r b hr le_rfl (Nat.lt_add_of_pos_right (blockSize_pos 0)) hbm hx
      (by omega)
  | succ k ih =>
    have h2 := blockSize_succ (s := s) k
    by_cases hbig : ∃ x b, r ≤ x ∧ x < r + blockSize s (k + 1) ∧ b ∈ blocksOf K L ∧
        b.Covers s x ∧ b.order = k + 1
    · obtain ⟨x, b, hl, hlt, hbm, hx, ho⟩ := hbig
      exact exact_of_order (k + 1) r x b hr hl hlt hbm hx ho
    · have hsmall : ∀ x, r ≤ x → x < r + blockSize s (k + 1) →
          ∃ b ∈ blocksOf K L, b.Covers s x ∧ b.order ≤ k := by
        intro x hl hlt
        obtain ⟨b, hbm, hx, ho⟩ := hc x hl hlt
        refine ⟨b, hbm, hx, ?_⟩
        by_contra hgt
        exact hbig ⟨x, b, hl, hlt, hbm, hx, by omega⟩
      have hd : blockSize s k ∣ r := (blockSize_dvd (by omega)).trans hr
      have hlow : r ∈ L k := ih (by omega) hd fun x hl hlt => hsmall x hl (by omega)
      have hhigh : r + blockSize s k ∈ L k :=
        ih (by omega) (Nat.dvd_add hd dvd_rfl) fun x hl hlt => hsmall x (by omega) (by omega)
      refine absurd ?_ (hb k (by omega) r hlow)
      rw [buddy_of_dvd hr]
      exact hhigh

/-- Two completely coalesced, naturally aligned tilings of one interval are the same. -/
theorem mem_of_tiles {L M : Levels} {base len : ℕ} (hLt : Tiles s base len (blocksOf K L))
    (hMt : Tiles s base len (blocksOf K M)) (hLn : ∀ b ∈ blocksOf K L, Natural s b)
    (hMn : ∀ b ∈ blocksOf K M, Natural s b) (hLb : NoBuddies s K L) (hMb : NoBuddies s K M)
    {k a : ℕ} (hk : k ≤ K) (ha : a ∈ L k) : a ∈ M k := by
  have hb : (⟨a, k⟩ : Block) ∈ blocksOf K L := mem_blocksOf.mpr ⟨hk, ha⟩
  have hcov : ∀ x, Block.Covers s ⟨a, k⟩ x → ∃ c ∈ blocksOf K M, c.Covers s x := by
    intro x hx
    have := hLt.bounds hb hx
    exact hMt.partition.covered x this.1 this.2
  by_cases hall : ∀ x c, Block.Covers s ⟨a, k⟩ x → c ∈ blocksOf K M → c.Covers s x →
      c.order ≤ k
  · refine full_of_covered hMn hMb k hk (hLn _ hb) fun x hl hlt => ?_
    obtain ⟨c, hc, hx⟩ := hcov x ⟨hl, hlt⟩
    exact ⟨c, hc, hx, hall x c ⟨hl, hlt⟩ hc hx⟩
  · -- a strictly larger block of the other tiling would be filled by blocks of this one
    push Not at hall
    obtain ⟨x, c, hx, hc, hcx, hgt⟩ := hall
    have hcK := (mem_blocksOf.mp hc).1
    have hcL : c.addr ∈ L c.order := by
      refine full_of_covered hLn hLb c.order hcK (hMn c hc) fun y hl hlt => ?_
      have hy := hMt.bounds hc ⟨hl, hlt⟩
      obtain ⟨d, hd, hdy⟩ := hLt.partition.covered y hy.1 hy.2
      refine ⟨d, hd, hdy, ?_⟩
      by_contra hdo
      have hin := natural_nested (hMn c hc) (hLn d hd) (by omega) ⟨hl, hlt⟩ hdy
      have hdx : d.Covers s x := ⟨hin.1.trans hcx.1, lt_of_lt_of_le hcx.2 hin.2⟩
      have he := eq_of_covers (hLt.le_one x) hd hb hdx hx
      subst he
      simp only at hdo
      omega
    have he := eq_of_covers (hLt.le_one x) (mem_blocksOf.mpr ⟨hcK, hcL⟩) hb hcx hx
    exact absurd (congrArg Block.order he) (by simp only; omega)

theorem exists_bit {p : ℕ} (hp : 2 ^ s ∣ p) (k : ℕ) (hk : ¬ blockSize s k ∣ p) :
    ∃ j, j < k ∧ p.testBit (s + j) = true := by
  induction k with
  | zero => exact absurd hp hk
  | succ k ih =>
    by_cases hd : blockSize s k ∣ p
    · obtain ⟨q, rfl⟩ := hd
      refine ⟨k, Nat.lt_succ_self k, ?_⟩
      rw [blockSize, Nat.testBit_two_pow_mul]
      rcases Nat.mod_two_eq_zero_or_one q with h | h
      · obtain ⟨r, rfl⟩ := Nat.dvd_of_mod_eq_zero h
        exact absurd ⟨r, by rw [blockSize_succ]; ring⟩ hk
      · simp [h]
    · obtain ⟨j, hj, hb⟩ := ih hd
      exact ⟨j, by omega, hb⟩

theorem buddy_lt_of_bit {p j : ℕ} (h : p.testBit (s + j) = true) : buddy s p j < p := by
  have hge := Nat.ge_two_pow_of_testBit h
  have hpos := Nat.two_pow_pos (s + j)
  rw [buddy, blockSize, xor_two_pow, if_pos h]
  omega

def Capped (s p j : ℕ) (B : List Block) : Prop := ∀ b ∈ B, b.Covers s p → b.order ≤ j

/-- When the buddy of the heap's first block of order `j` lies below the heap, no merge
makes a larger block at the heap's start. -/
theorem release_capped {p j : ℕ} (hj : buddy s p j < p) (n : ℕ) {L : Levels} {a k : ℕ}
    (hin : ∀ b ∈ ⟨a, k⟩ :: blocksOf K L, p ≤ b.addr) (hk : k + n ≤ K)
    (hc : Capped s p j (⟨a, k⟩ :: blocksOf K L)) :
    Capped s p j (blocksOf K (release s n L a k)) := by
  induction n generalizing L a k with
  | zero => exact fun b hb => hc b (mem_of_push hb)
  | succ n ih =>
    unfold release
    split
    · next hb =>
      have hbm : (⟨buddy s a k, k⟩ : Block) ∈ ⟨a, k⟩ :: blocksOf K L :=
        List.mem_cons_of_mem _ (mem_blocksOf.mpr ⟨by simp only; omega, hb⟩)
      have ha := hin ⟨a, k⟩ (by simp)
      have hbu := hin _ hbm
      refine ih (fun b hm => ?_) (by omega) fun b hm hx => ?_
      · rcases List.mem_cons.mp hm with rfl | hm
        · exact le_min ha hbu
        · exact hin b (List.mem_cons_of_mem _ (mem_of_remove hm))
      · rcases List.mem_cons.mp hm with rfl | hm
        · -- the merged block starts at `p`, so one of its halves does
          have hpos := blockSize_pos (s := s) k
          have hmin : min a (buddy s a k) = p := le_antisymm hx.1 (le_min ha hbu)
          have hkj : k ≤ j := by
            rcases min_choice a (buddy s a k) with he | he
            · exact hc _ (List.mem_cons_self) ⟨by simp only; omega, by simp only; omega⟩
            · exact hc _ hbm ⟨by simp only; omega, by simp only; omega⟩
          have hne : k ≠ j := by
            rintro rfl
            rcases min_choice a (buddy s a k) with he | he
            · rw [hmin] at he
              subst he
              simp only at hbu
              omega
            · rw [hmin] at he
              rw [he, buddy_buddy] at hj
              simp only at ha
              omega
          simp only
          omega
        · exact hc b (List.mem_cons_of_mem _ (mem_of_remove hm)) hx
    · exact fun b hb => hc b (mem_of_push hb)

end BuddySystem
