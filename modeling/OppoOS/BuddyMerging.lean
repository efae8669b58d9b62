import OppoOS.BuddySystem
import Mathlib.Data.Multiset.AddSub
import Mathlib.Logic.Relation
import Mathlib.Tactic.Abel

/-!
# Merging buddies in any order

A block has one buddy, so two different merges never compete for a block: merging is
confluent, and releasing blocks in any order ends in the same completely merged blocks.
No alignment is assumed.
-/
namespace BuddyMerging

open BuddyTiling BuddySystem Function Relation

variable (s K : ℕ)

/-- A block below the top order and its buddy become one block. -/
inductive Merge : Multiset Block → Multiset Block → Prop where
  | mk (a k : ℕ) (B : Multiset Block) : k < K →
      Merge (⟨a, k⟩ ::ₘ ⟨buddy s a k, k⟩ ::ₘ B) (⟨min a (buddy s a k), k + 1⟩ ::ₘ B)

variable {s K}

theorem Merge.add {A C : Multiset Block} (h : Merge s K A C) (X : Multiset Block) :
    Merge s K (A + X) (C + X) := by
  cases h with
  | mk a k B hk =>
    simp only [Multiset.cons_add]
    exact .mk a k (B + X) hk

theorem merges_add {A C : Multiset Block} (h : ReflTransGen (Merge s K) A C)
    (X : Multiset Block) : ReflTransGen (Merge s K) (A + X) (C + X) :=
  h.lift (· + X) fun _ _ hm => hm.add X

theorem mem_of_mem_cons₂ {x y z : Block} {A B : Multiset Block} (hz : z ∈ A)
    (hA : A = x ::ₘ y ::ₘ B) (hx : z ≠ x) (hy : z ≠ y) : z ∈ B := by
  rw [hA] at hz
  rcases Multiset.mem_cons.mp hz with h | hz
  · exact absurd h hx
  · exact (Multiset.mem_cons.mp hz).resolve_left hy

theorem cons_eq_add (x : Block) (A : Multiset Block) : x ::ₘ A = {x} + A :=
  (Multiset.singleton_add x A).symm

theorem cons₂_swap (x y z w : Block) (A : Multiset Block) :
    x ::ₘ y ::ₘ z ::ₘ w ::ₘ A = z ::ₘ w ::ₘ x ::ₘ y ::ₘ A := by
  simp only [cons_eq_add]
  abel

theorem pairs_apart {a b k j : ℕ} {B B' : Multiset Block}
    (hA : (⟨a, k⟩ : Block) ::ₘ ⟨buddy s a k, k⟩ ::ₘ B = ⟨b, j⟩ ::ₘ ⟨buddy s b j, j⟩ ::ₘ B')
    (hx : (⟨a, k⟩ : Block) ≠ ⟨b, j⟩) (hy : (⟨a, k⟩ : Block) ≠ ⟨buddy s b j, j⟩) :
    ∃ E, B = ⟨b, j⟩ ::ₘ ⟨buddy s b j, j⟩ ::ₘ E ∧ B' = ⟨a, k⟩ ::ₘ ⟨buddy s a k, k⟩ ::ₘ E := by
  have hx' : (⟨b, j⟩ : Block) ≠ ⟨buddy s a k, k⟩ := by
    rintro he
    obtain ⟨rfl, rfl⟩ := Block.mk.injEq .. ▸ he
    exact hy (by rw [buddy_buddy])
  have hy' : (⟨buddy s b j, j⟩ : Block) ≠ ⟨buddy s a k, k⟩ := by
    rintro he
    obtain ⟨hb, rfl⟩ := Block.mk.injEq .. ▸ he
    exact hx (by rw [← buddy_buddy (s := s) b j, hb, buddy_buddy])
  have hb : (⟨b, j⟩ : Block) ∈ B :=
    mem_of_mem_cons₂ (Multiset.mem_cons_self ..) hA.symm (Ne.symm hx) hx'
  obtain ⟨B₁, rfl⟩ := Multiset.exists_cons_of_mem hb
  have hbb : (⟨buddy s b j, j⟩ : Block) ∈ B₁ := by
    have hmem : (⟨buddy s b j, j⟩ : Block) ∈ ⟨b, j⟩ ::ₘ B₁ :=
      mem_of_mem_cons₂ (Multiset.mem_cons_of_mem (Multiset.mem_cons_self ..)) hA.symm
        (Ne.symm hy) hy'
    refine (Multiset.mem_cons.mp hmem).resolve_left fun he => ?_
    exact buddy_ne b j (congrArg Block.addr he)
  obtain ⟨E, rfl⟩ := Multiset.exists_cons_of_mem hbb
  refine ⟨E, rfl, ?_⟩
  apply (Multiset.cons_inj_right ⟨buddy s b j, j⟩).mp
  apply (Multiset.cons_inj_right ⟨b, j⟩).mp
  rw [← hA, cons₂_swap]

theorem merge_beside {b j : ℕ} (hj : j < K) (c : Block) (E : Multiset Block) :
    Merge s K (c ::ₘ ⟨b, j⟩ ::ₘ ⟨buddy s b j, j⟩ ::ₘ E)
      (c ::ₘ ⟨min b (buddy s b j), j + 1⟩ ::ₘ E) := by
  have hm := (Merge.mk b j E hj : Merge s K _ _).add {c}
  simpa only [cons_eq_add, add_assoc, add_comm, add_left_comm] using hm

theorem merge_diamond {A C D : Multiset Block} (hC : Merge s K A C) (hD : Merge s K A D) :
    C = D ∨ ∃ E, Merge s K C E ∧ Merge s K D E := by
  generalize hA : A = A' at hD
  cases hC with
  | mk a k B hk =>
    cases hD with
    | mk b j B' hj =>
      by_cases hx : (⟨a, k⟩ : Block) = ⟨b, j⟩
      · left
        obtain ⟨rfl, rfl⟩ := Block.mk.injEq .. ▸ hx
        rw [Multiset.cons_inj_right, Multiset.cons_inj_right] at hA
        rw [hA]
      · by_cases hy : (⟨a, k⟩ : Block) = ⟨buddy s b j, j⟩
        · left
          obtain ⟨rfl, rfl⟩ := Block.mk.injEq .. ▸ hy
          rw [buddy_buddy, Multiset.cons_swap, Multiset.cons_inj_right,
            Multiset.cons_inj_right] at hA
          rw [buddy_buddy, min_comm, hA]
        · right
          obtain ⟨E, rfl, rfl⟩ := pairs_apart hA hx hy
          refine ⟨⟨min a (buddy s a k), k + 1⟩ ::ₘ ⟨min b (buddy s b j), j + 1⟩ ::ₘ E, ?_, ?_⟩
          · exact merge_beside hj _ E
          · rw [Multiset.cons_swap (⟨min a (buddy s a k), k + 1⟩ : Block)]
            exact merge_beside hk _ E

/-- Completely merged results of the same blocks are equal. -/
theorem merged_unique {A C D : Multiset Block} (hC : ReflTransGen (Merge s K) A C)
    (hD : ReflTransGen (Merge s K) A D) (nC : ∀ E, ¬ Merge s K C E)
    (nD : ∀ E, ¬ Merge s K D E) : C = D := by
  have hjoin := church_rosser (fun X Y Z hY hZ => by
    rcases merge_diamond hY hZ with rfl | ⟨E, h1, h2⟩
    · exact ⟨Y, .refl, .refl⟩
    · exact ⟨E, .single h1, .single h2⟩) hC hD
  obtain ⟨E, h1, h2⟩ := hjoin
  have e1 : C = E := (h1.cases_head).resolve_right fun ⟨F, hF, _⟩ => nC F hF
  have e2 : D = E := (h2.cases_head).resolve_right fun ⟨F, hF, _⟩ => nD F hF
  rw [e1, e2]

theorem count_level (L : Levels) (k : ℕ) (b : Block) :
    (level L k).count b = if b.order = k then (L k).count b.addr else 0 := by
  unfold level
  by_cases hk : b.order = k
  · subst hk
    rw [if_pos rfl]
    exact List.count_map_of_injective (L b.order) (Block.mk · b.order)
      (fun _ _ he => congrArg Block.addr he) b.addr
  · rw [if_neg hk, List.count_eq_zero]
    intro hb
    exact hk (mem_level.mp hb).1

theorem count_blocksOf (K : ℕ) (L : Levels) (b : Block) :
    (blocksOf K L).count b = if b.order ≤ K then (L b.order).count b.addr else 0 := by
  have hrange : ∀ n, ((List.range n).flatMap (level L)).count b =
      if b.order < n then (L b.order).count b.addr else 0 := by
    intro n
    induction n with
    | zero => simp
    | succ n ih =>
      rw [List.range_succ, List.flatMap_append, List.count_append, ih, List.flatMap_singleton,
        count_level]
      by_cases hn : b.order = n
      · simp [hn]
      · rw [if_neg hn, Nat.add_zero]
        exact if_congr (by omega) rfl rfl
  rw [blocksOf, hrange]
  exact if_congr (by omega) rfl rfl

theorem blocksOf_perm {L : Levels} {k c : ℕ} {l : List ℕ} (hk : k ≤ K)
    (hl : (L k).Perm (c :: l)) :
    (blocksOf K L).Perm (⟨c, k⟩ :: blocksOf K (update L k l)) := by
  refine List.perm_iff_count.mpr fun b => ?_
  rw [List.count_cons, count_blocksOf, count_blocksOf]
  by_cases hb : b.order = k
  · subst hb
    rw [if_pos hk, if_pos hk, update_self, hl.count_eq, List.count_cons]
    have he : (⟨c, b.order⟩ : Block) = b ↔ c = b.addr := by
      cases b
      simp
    simp [he]
  · rw [update_of_ne hb]
    have hne : (⟨c, k⟩ : Block) ≠ b := fun he => hb (by rw [← he])
    simp [hne]

theorem push_perm (L : Levels) {a k : ℕ} (hk : k ≤ K) :
    (blocksOf K (update L k (a :: L k))).Perm (⟨a, k⟩ :: blocksOf K L) := by
  have hp := blocksOf_perm (L := update L k (a :: L k)) (c := a) (l := L k) hk
    (by rw [update_self])
  rwa [update_idem, update_eq_self] at hp

theorem release_merges (n : ℕ) {L : Levels} {a k : ℕ} (h : k + n ≤ K) :
    ReflTransGen (Merge s K) ↑(⟨a, k⟩ :: blocksOf K L) ↑(blocksOf K (release s n L a k)) := by
  have hk : k ≤ K := by omega
  induction n generalizing L a k with
  | zero =>
    rw [release, Multiset.coe_eq_coe.mpr (push_perm L hk)]
  | succ n ih =>
    unfold release
    split
    · next hb =>
      have hp := blocksOf_perm hk (List.perm_cons_erase hb)
      rw [← Multiset.cons_coe, Multiset.coe_eq_coe.mpr hp, ← Multiset.cons_coe]
      exact .head (.mk a k _ (by omega)) (ih (by omega) (by omega))
    · rw [Multiset.coe_eq_coe.mpr (push_perm L hk)]

variable (s K) in
def freeAll (L : Levels) (bs : List Block) : Levels :=
  bs.foldl (fun L b => free s K L b.addr b.order) L

theorem freeAll_merges (bs : List Block) {L : Levels} (hb : ∀ b ∈ bs, b.order ≤ K) :
    ReflTransGen (Merge s K) ↑(bs ++ blocksOf K L) ↑(blocksOf K (freeAll s K L bs)) := by
  induction bs generalizing L with
  | nil => exact .refl
  | cons b bs ih =>
    have hbk : b.order ≤ K := hb b (by simp)
    have hfree : ReflTransGen (Merge s K) ↑(b :: blocksOf K L)
        ↑(blocksOf K (free s K L b.addr b.order)) := release_merges _ (by omega)
    have hfirst := merges_add hfree (bs : Multiset Block)
    have hbefore : (b :: blocksOf K L ++ bs).Perm (b :: bs ++ blocksOf K L) :=
      List.perm_append_comm.cons b
    have hafter : ∀ L', (blocksOf K L' ++ bs).Perm (bs ++ blocksOf K L') := fun _ =>
      List.perm_append_comm
    rw [Multiset.coe_add, Multiset.coe_add, Multiset.coe_eq_coe.mpr hbefore,
      Multiset.coe_eq_coe.mpr (hafter _)] at hfirst
    exact hfirst.trans (ih fun c hc => hb c (List.mem_cons_of_mem _ hc))

theorem freeAll_noBuddies (bs : List Block) {L : Levels} (hb : ∀ b ∈ bs, b.order ≤ K)
    (hL : NoBuddies s K L) : NoBuddies s K (freeAll s K L bs) := by
  induction bs generalizing L with
  | nil => exact hL
  | cons b bs ih =>
    have hbk : b.order ≤ K := hb b (by simp)
    exact ih (fun c hc => hb c (List.mem_cons_of_mem _ hc)) (release_noBuddies _ hL (by omega))

theorem no_merge_of_noBuddies {L : Levels} (hL : NoBuddies s K L) (E : Multiset Block) :
    ¬ Merge s K (blocksOf K L) E := by
  intro hm
  generalize hA : (blocksOf K L : Multiset Block) = A at hm
  cases hm with
  | mk a k B hk =>
    have ha : (⟨a, k⟩ : Block) ∈ (blocksOf K L : Multiset Block) := by simp [hA]
    have hb : (⟨buddy s a k, k⟩ : Block) ∈ (blocksOf K L : Multiset Block) := by simp [hA]
    exact hL k hk a (mem_blocksOf.mp ha).2 (mem_blocksOf.mp hb).2

/-- Releasing the same blocks in any order ends with the same free blocks. -/
theorem freeAll_perm {bs bs' : List Block} (hp : bs.Perm bs') {L : Levels}
    (hb : ∀ b ∈ bs, b.order ≤ K) (hL : NoBuddies s K L) :
    (blocksOf K (freeAll s K L bs)).Perm (blocksOf K (freeAll s K L bs')) := by
  have hb' : ∀ b ∈ bs', b.order ≤ K := fun b hm => hb b (hp.mem_iff.mpr hm)
  have h1 := freeAll_merges (s := s) (L := L) bs hb
  have h2 := freeAll_merges (s := s) (L := L) bs' hb'
  rw [← Multiset.coe_eq_coe.mpr (hp.append_right (blocksOf K L))] at h2
  exact Multiset.coe_eq_coe.mp (merged_unique h1 h2
    (no_merge_of_noBuddies (freeAll_noBuddies bs hb hL))
    (no_merge_of_noBuddies (freeAll_noBuddies bs' hb' hL)))

end BuddyMerging
