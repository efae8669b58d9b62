import OppoOS.BuddyAllocator
import Mathlib.Algebra.Order.BigOperators.Group.Finset

/-!
# The free lists in memory represent a buddy system

Each pointer operation of the allocator carries out the corresponding operation on
levels, as long as the blocks do not overlap, none of them starts at NULL and all of them
end at 2^64 or below. Every spec also says which bytes the operation leaves alone.
-/
namespace AllocatorRefinement

open ByteMemory BuddyTiling BuddySystem BuddyAllocator Function

/-- The blocks of the kernel's levels: 4096-byte units, orders 0 to 10. -/
abbrev freeBlocks (L : Levels) : List Block := blocksOf maxOrder L

abbrev cover (B : List Block) (x : ℕ) : ℕ := coverage 12 B x

def Represents (σ : Machine) (L : Levels) : Prop :=
  ∀ k, k ≤ maxOrder → Chain σ.mem (σ.freeLists k) (L k)

structure Placed (B : List Block) : Prop where
  once : ∀ x, cover B x ≤ 1
  low : cover B 0 = 0
  high : ∀ x, 2 ^ 64 ≤ x → cover B x = 0

def Frame (B : List Block) (m m' : Mem) : Prop := ∀ x, cover B x = 0 → m' x = m x

theorem Frame.trans {B C : List Block} {m₁ m₂ m₃ : Mem} (h : Frame B m₁ m₂)
    (k : Frame C m₂ m₃) (hBC : ∀ x, cover B x = 0 → cover C x = 0) : Frame B m₁ m₃ :=
  fun x hx => (k x (hBC x hx)).trans (h x hx)

theorem Placed.congr {B C : List Block} (h : Placed B) (hc : ∀ x, cover C x = cover B x) :
    Placed C where
  once x := (hc x).trans_le (h.once x)
  low := (hc 0).trans h.low
  high x hx := (hc x).trans (h.high x hx)

theorem Placed.mono {B C : List Block} (h : Placed B) (hc : ∀ x, cover C x ≤ cover B x) :
    Placed C where
  once x := (hc x).trans (h.once x)
  low := Nat.le_zero.mp ((hc 0).trans_eq h.low)
  high x hx := Nat.le_zero.mp ((hc x).trans_eq (h.high x hx))

theorem Placed.tail {b : Block} {B : List Block} (h : Placed (b :: B)) : Placed B :=
  h.mono fun x => by rw [cover, cover, coverage_cons]; exact Nat.le_add_right _ _

theorem blockSize_ge (k : ℕ) : 4096 ≤ blockSize 12 k :=
  Nat.pow_le_pow_right (n := 2) (by decide) (show 12 ≤ 12 + k by omega)

theorem shift_eq_blockSize (k : ℕ) : pageSize <<< k = blockSize 12 k := by
  rw [Nat.shiftLeft_eq, blockSize, pow_add]
  rfl

theorem buddyAddr_eq (addr order : ℕ) : buddyAddr addr order = buddy 12 addr order := by
  rw [buddyAddr, buddy, shift_eq_blockSize]

theorem Placed.ne_zero {B : List Block} (h : Placed B) {b : Block} (hb : b ∈ B) :
    b.addr ≠ 0 := by
  intro hz
  have hc := hz ▸ b.covers_addr (s := 12)
  exact coverage_eq_zero.mp h.low b hb hc

theorem Placed.end_le {B : List Block} (h : Placed B) {b : Block} (hb : b ∈ B) :
    b.addr + blockSize 12 b.order ≤ 2 ^ 64 := by
  by_contra hn
  have hpos := blockSize_pos (s := 12) b.order
  have hx := h.high (b.addr + blockSize 12 b.order - 1) (by omega)
  exact coverage_eq_zero.mp hx b hb ⟨by omega, by omega⟩

theorem Placed.apart {B : List Block} (h : Placed B) {b c : Block} (hb : b ∈ B) (hc : c ∈ B)
    (hne : b ≠ c) :
    b.addr + blockSize 12 b.order ≤ c.addr ∨ c.addr + blockSize 12 c.order ≤ b.addr :=
  apart_of_coverage h.once hb hc hne

theorem mem_freeBlocks {L : Levels} {k a : ℕ} (hk : k ≤ maxOrder) (ha : a ∈ L k) :
    (⟨a, k⟩ : Block) ∈ freeBlocks L := mem_blocksOf.mpr ⟨hk, ha⟩

theorem Placed.level_nodup {L : Levels} {k : ℕ} (h : Placed (freeBlocks L))
    (hk : k ≤ maxOrder) : (L k).Nodup := by
  refine List.Nodup.of_map (Block.mk · k) (nodup_of_coverage (s := 12) fun x => ?_)
  have hm : k ∈ Finset.range (maxOrder + 1) := Finset.mem_range.mpr (by omega)
  have hle := Finset.single_le_sum (f := fun k => coverage 12 (level L k) x)
    (fun _ _ => Nat.zero_le _) hm
  have hc := h.once x
  rw [cover, coverage_blocksOf] at hc
  exact hle.trans hc

theorem Represents.head_lt {σ : Machine} {L : Levels} (h : Represents σ L)
    (hp : Placed (freeBlocks L)) {k : ℕ} (hk : k ≤ maxOrder) : σ.freeLists k < 2 ^ 64 := by
  have hc := h k hk
  cases hL : L k with
  | nil =>
    rw [hL] at hc
    rw [show σ.freeLists k = 0 from hc]
    decide
  | cons a l =>
    rw [hL] at hc
    have hm : a ∈ L k := by simp [hL]
    have he := hp.end_le (mem_freeBlocks hk hm)
    have hpos := blockSize_ge k
    rw [hc.1]
    simp only at he
    omega

theorem Represents.empty_iff {σ : Machine} {L : Levels} (h : Represents σ L) {k : ℕ}
    (hk : k ≤ maxOrder) : σ.freeLists k = 0 ↔ L k = [] := Chain.head_zero (h k hk)

theorem agree_of_frame {B : List Block} (h : Placed B) {b c : Block} (hb : b ∈ B)
    (hc : c ∈ B) (hne : c ≠ b) {m m' : Mem}
    (hm : ∀ x, ¬ b.Covers 12 x → m' x = m x) : AgreeOn m m' c.addr 8 := by
  intro x hl hr
  refine hm x fun hx => hne ?_
  have hsz := blockSize_ge c.order
  exact eq_of_covers (h.once x) hc hb ⟨hl, by omega⟩ hx

theorem Represents.frame_level {σ : Machine} {L : Levels} (h : Represents σ L)
    {B : List Block} (hp : Placed B) (hB : ∀ b ∈ freeBlocks L, b ∈ B) {b : Block} (hb : b ∈ B)
    {m' : Mem} (hm : ∀ x, ¬ b.Covers 12 x → m' x = σ.mem x) {j : ℕ} (hj : j ≤ maxOrder)
    (hne : ∀ a ∈ L j, (⟨a, j⟩ : Block) ≠ b) : Chain m' (σ.freeLists j) (L j) :=
  (h j hj).frame fun a ha => agree_of_frame hp hb (hB _ (mem_freeBlocks hj ha)) (hne a ha) hm

theorem pushBlock_represents {σ : Machine} {L : Levels} {a k : ℕ} (h : Represents σ L)
    (hp : Placed (⟨a, k⟩ :: freeBlocks L)) (hk : k ≤ maxOrder) :
    Represents (pushBlock σ k a) (update L k (a :: L k)) := by
  have hin : (⟨a, k⟩ : Block) ∈ (⟨a, k⟩ :: freeBlocks L : List Block) := by simp
  have hout : ∀ x, ¬ Block.Covers 12 ⟨a, k⟩ x →
      store64 σ.mem a (σ.freeLists k) x = σ.mem x := by
    intro x hx
    have hsz := blockSize_ge k
    exact store64_outside _ _ _ _ (by simp only [Block.Covers] at hx; omega)
  have hfr : ∀ j, j ≤ maxOrder → ∀ c ∈ L j,
      AgreeOn σ.mem (store64 σ.mem a (σ.freeLists k)) c 8 := by
    intro j hj c hc
    refine agree_of_frame (c := ⟨c, j⟩) hp hin
      (List.mem_cons_of_mem _ (mem_freeBlocks hj hc)) ?_ hout
    intro he
    have hx := hp.once a
    have hpos : 0 < coverage 12 (freeBlocks L) a :=
      coverage_pos.mpr ⟨⟨c, j⟩, mem_freeBlocks hj hc, he ▸ Block.covers_addr ⟨a, k⟩⟩
    rw [cover, coverage_cons, if_pos (Block.covers_addr ⟨a, k⟩)] at hx
    omega
  intro j hj
  by_cases hjk : j = k
  · subst hjk
    simp only [pushBlock, update_self]
    refine (h j hj).push (hp.ne_zero hin) ?_ (hfr j hj)
    rw [load64_store64_same, Nat.mod_eq_of_lt (h.head_lt hp.tail hj)]
  · simp only [pushBlock, update_of_ne hjk]
    exact (h j hj).frame (hfr j hj)

theorem pushBlock_frame (σ : Machine) (a k : ℕ) :
    Frame [⟨a, k⟩] σ.mem (pushBlock σ k a).mem := by
  intro x hx
  have hn := coverage_eq_zero.mp hx ⟨a, k⟩ (by simp)
  have hsz := blockSize_ge k
  exact store64_outside _ _ _ _ (by simp only [Block.Covers] at hn; omega)

theorem splitStep_mem {σ : Machine} {a k x : ℕ} (ha : σ.freeLists (k + 1) = a)
    (hx : ¬ Block.Covers 12 ⟨a, k + 1⟩ x) : (splitStep σ (k + 1)).mem x = σ.mem x := by
  have hsz := blockSize_ge k
  have h2 := blockSize_succ (s := 12) k
  simp only [Block.Covers] at hx
  simp only [splitStep, ha, Nat.add_sub_cancel, shift_eq_blockSize]
  rw [store64_outside _ _ _ _ (by omega), store64_outside _ _ _ _ (by omega)]

theorem splitStep_represents {σ : Machine} {L : Levels} {k : ℕ} (h : Represents σ L)
    (hp : Placed (freeBlocks L)) (hk : k + 1 ≤ maxOrder) (hne : L (k + 1) ≠ []) :
    Represents (splitStep σ (k + 1)) (splitOnce 12 L k) := by
  obtain ⟨a, rest, hL⟩ := List.exists_cons_of_ne_nil hne
  have hchain := h (k + 1) hk
  rw [hL] at hchain
  obtain ⟨ha, ha0, hrest⟩ := hchain
  have hblk : (⟨a, k + 1⟩ : Block) ∈ freeBlocks L := mem_freeBlocks hk (by simp [hL])
  have hout : ∀ x, ¬ Block.Covers 12 ⟨a, k + 1⟩ x → (splitStep σ (k + 1)).mem x = σ.mem x :=
    fun x hx => splitStep_mem ha hx
  have hsz := blockSize_ge k
  have hend := hp.end_le hblk
  have h2 := blockSize_succ (s := 12) k
  simp only [h2] at hend
  rw [splitOnce_cons hL]
  intro j hj
  rcases eq_or_ne j k with rfl | hjk
  · -- the level that receives both halves
    have hold : Chain (splitStep σ (j + 1)).mem (σ.freeLists j) (L j) := by
      refine h.frame_level hp (fun _ hb => hb) hblk hout hj fun c _ he => ?_
      exact absurd (congrArg Block.order he) (by simp)
    have hheads : (splitStep σ (j + 1)).freeLists j = a := by
      simp [splitStep, ha]
    have hw1 : load64 (splitStep σ (j + 1)).mem a = a + blockSize 12 j := by
      simp only [splitStep, ha, Nat.add_sub_cancel, shift_eq_blockSize]
      rw [load64_store64_disjoint _ _ _ _ (by omega), load64_store64_same,
        Nat.mod_eq_of_lt (by omega)]
    have hw2 : load64 (splitStep σ (j + 1)).mem (a + blockSize 12 j) = σ.freeLists j := by
      simp only [splitStep, ha, Nat.add_sub_cancel, shift_eq_blockSize]
      rw [load64_store64_same, update_of_ne (by omega), Nat.mod_eq_of_lt (h.head_lt hp hj)]
    rw [update_self, hheads]
    refine ⟨rfl, ha0, ?_⟩
    rw [hw1]
    refine ⟨rfl, by omega, ?_⟩
    rw [hw2]
    exact hold
  · rw [update_of_ne hjk]
    rcases eq_or_ne j (k + 1) with rfl | hjk'
    · -- the level that gives its head away
      rw [update_self]
      have hheads : (splitStep σ (k + 1)).freeLists (k + 1) = load64 σ.mem a := by
        simp [splitStep, ha]
      rw [hheads]
      refine hrest.frame fun c hc => ?_
      refine agree_of_frame (c := ⟨c, k + 1⟩) hp hblk (mem_freeBlocks hk (by simp [hL, hc])) ?_
        hout
      intro he
      have hnd := hp.level_nodup hk
      rw [hL] at hnd
      have hca : c = a := congrArg Block.addr he
      exact (List.nodup_cons.mp hnd).1 (hca ▸ hc)
    · rw [update_of_ne hjk']
      have hheads : (splitStep σ (k + 1)).freeLists j = σ.freeLists j := by
        simp [splitStep, update_of_ne hjk, update_of_ne hjk']
      rw [hheads]
      refine h.frame_level hp (fun _ hb => hb) hblk hout hj fun c _ he => ?_
      exact hjk' (congrArg Block.order he)

theorem findOrder_eq {σ : Machine} {L : Levels} (h : Represents σ L) (n c : ℕ)
    (hc : c + n ≤ maxOrder + 1) : findOrder σ n c = search L n c := by
  induction n generalizing c with
  | zero => rfl
  | succ n ih =>
    simp only [findOrder, search, h.empty_iff (show c ≤ maxOrder by omega)]
    rw [ih (c + 1) (by omega)]

theorem splitLoop_represents {σ : Machine} {L : Levels} (o n : ℕ) (h : Represents σ L)
    (hp : Placed (freeBlocks L)) (hn : o + n ≤ maxOrder) (hne : L (o + n) ≠ []) :
    Represents (splitLoop o n σ) (splitDown 12 o n L) ∧ splitDown 12 o n L o ≠ [] ∧
      Frame (freeBlocks L) σ.mem (splitLoop o n σ).mem := by
  induction n generalizing σ L with
  | zero => exact ⟨h, hne, fun _ _ => rfl⟩
  | succ n ih =>
    have hcov : ∀ x, cover (freeBlocks (splitOnce 12 L (o + n))) x = cover (freeBlocks L) x :=
      fun x => coverage_splitOnce (by omega) x
    obtain ⟨a, rest, hL⟩ := List.exists_cons_of_ne_nil hne
    have hstep := splitStep_represents (k := o + n) h hp (by omega) hne
    obtain ⟨h1, h2, h3⟩ := ih hstep (hp.congr hcov) (by omega)
      (by rw [splitOnce_cons (k := o + n) hL]; simp)
    refine ⟨h1, h2, Frame.trans (B := freeBlocks L) ?_ h3 fun x hx => (hcov x).trans hx⟩
    intro x hx
    have hin := mem_freeBlocks (L := L) (k := o + (n + 1)) (a := a) (by omega) (by simp [hL])
    refine splitStep_mem ?_ (coverage_eq_zero.mp hx _ hin)
    have hc := h (o + (n + 1)) (by omega)
    rw [hL] at hc
    exact hc.1

/-- `kalloc_order` carries out `alloc`; on failure nothing changes. -/
theorem kallocOrder_refines {σ : Machine} {L : Levels} (o : ℕ) (h : Represents σ L)
    (hp : Placed (freeBlocks L)) :
    (alloc 12 maxOrder L o = none ∧ kallocOrder σ o = (0, σ)) ∨
      ∃ a L', alloc 12 maxOrder L o = some (a, L') ∧ (kallocOrder σ o).1 = a ∧ a ≠ 0 ∧
        o ≤ maxOrder ∧ Represents (kallocOrder σ o).2 L' ∧
        Frame (freeBlocks L) σ.mem (kallocOrder σ o).2.mem := by
  unfold kallocOrder alloc
  by_cases ho : maxOrder < o
  · left
    have hz : maxOrder + 1 - o = 0 := by omega
    simp [hz, search, ho]
  · rw [if_neg ho]
    have hfind := findOrder_eq h (maxOrder + 1 - o) o (by omega)
    obtain ⟨hlo, hhi, -, hne⟩ := search_spec L (maxOrder + 1 - o) o
    simp only [hfind]
    generalize search L (maxOrder + 1 - o) o = c at *
    by_cases hc : maxOrder < c
    · left
      simp [hc]
    · right
      obtain ⟨n, rfl⟩ := Nat.exists_eq_add_of_le hlo
      obtain ⟨h1, h2, h3⟩ := splitLoop_represents o n h hp (by omega) (hne (by omega))
      obtain ⟨a, rest, hL⟩ := List.exists_cons_of_ne_nil h2
      have hch := h1 o (by omega)
      rw [hL] at hch
      refine ⟨a, update (splitDown 12 o n L) o rest, ?_, ?_, hch.2.1, by omega, ?_, ?_⟩
      · rw [if_pos (by omega)]
        simp [hL]
      · simp [hc, hch.1]
      · simp only [hc, if_false, Nat.add_sub_cancel_left]
        intro j hj
        rcases eq_or_ne j o with rfl | hjo
        · simp only [update_self]
          rw [hch.1]
          exact hch.2.2
        · simp only [update_of_ne hjo]
          exact h1 j hj
      · simpa only [hc, if_false, Nat.add_sub_cancel_left] using h3

theorem searchList_eq {σ : Machine} {o b : ℕ} {l : List ℕ} {fuel p curr : ℕ}
    (hc : Chain σ.mem curr l) (hf : l.length < fuel) :
    (b ∉ l ∧ searchList σ o b fuel p curr = some none) ∨
      ∃ pre post, l = pre ++ b :: post ∧ b ∉ pre ∧
        searchList σ o b fuel p curr =
          some (some (unlinkBlock σ o ((p :: pre).getLast (by simp)) b)) := by
  induction l generalizing fuel p curr with
  | nil =>
    obtain ⟨f, rfl⟩ : ∃ f, fuel = f + 1 := ⟨fuel - 1, by simp at hf; omega⟩
    left
    simp [searchList, show curr = 0 from hc]
  | cons a l ih =>
    obtain ⟨f, rfl⟩ : ∃ f, fuel = f + 1 := ⟨fuel - 1, by simp at hf; omega⟩
    obtain ⟨rfl, ha, hl⟩ := hc
    by_cases hab : curr = b
    · subst hab
      exact Or.inr ⟨[], l, rfl, by simp, by simp [searchList, ha]⟩
    · have hstep : searchList σ o b (f + 1) p curr =
          searchList σ o b f curr (load64 σ.mem curr) := by
        simp [searchList, ha, hab]
      rcases ih (p := curr) hl (by simpa using hf) with ⟨hn, he⟩ | ⟨pre, post, rfl, hn, he⟩
      · exact Or.inl ⟨by simp [hn, Ne.symm hab], hstep.trans he⟩
      · refine Or.inr ⟨curr :: pre, post, rfl, by simp [hn, Ne.symm hab], hstep.trans he⟩

theorem unlinkBlock_frame (σ : Machine) (o p b : ℕ) :
    Frame [⟨p, o⟩] σ.mem (unlinkBlock σ o p b).mem := by
  intro x hx
  unfold unlinkBlock
  split
  · have hn := coverage_eq_zero.mp hx ⟨p, o⟩ (by simp)
    have hsz := blockSize_ge o
    exact store64_outside _ _ _ _ (by simp only [Block.Covers] at hn; omega)
  · rfl

theorem unlinkBlock_represents {σ : Machine} {L : Levels} {o b : ℕ} {pre post : List ℕ}
    (h : Represents σ L) (hp : Placed (freeBlocks L)) (ho : o ≤ maxOrder)
    (hL : L o = pre ++ b :: post) (hb : b ∉ pre) :
    Represents (unlinkBlock σ o ((0 :: pre).getLast (by simp)) b)
      (update L o ((L o).erase b)) := by
  have herase : (L o).erase b = pre ++ post := by
    rw [hL, List.erase_append_right _ hb, List.erase_cons_head]
  have hchain := h o ho
  rw [hL] at hchain
  rw [herase]
  rcases List.eq_nil_or_concat pre with rfl | ⟨init, p, rfl⟩
  · -- the buddy is the head: only the list head moves
    intro j hj
    rcases eq_or_ne j o with rfl | hjo
    · simpa [unlinkBlock] using hchain.2.2
    · simpa [unlinkBlock, hjo] using h j hj
  · -- its predecessor's next pointer moves
    have hpin : (⟨p, o⟩ : Block) ∈ freeBlocks L := mem_freeBlocks ho (by simp [hL])
    have hp0 : p ≠ 0 := hp.ne_zero hpin
    have hlast : (0 :: (init ++ [p])).getLast (by simp) = p := by simp
    have hval : unlinkBlock σ o p b = { σ with mem := store64 σ.mem p (load64 σ.mem b) } := by
      simp [unlinkBlock, hp0]
    have hout : ∀ x, ¬ Block.Covers 12 ⟨p, o⟩ x →
        (unlinkBlock σ o p b).mem x = σ.mem x := fun x hx =>
      unlinkBlock_frame σ o p b x (coverage_eq_zero.mpr (by simpa using hx))
    have hheads : (unlinkBlock σ o p b).freeLists = σ.freeLists := by rw [hval]
    have hnd := hp.level_nodup ho
    rw [hL] at hnd
    rw [List.concat_eq_append, hlast]
    intro j hj
    rw [hheads]
    rcases eq_or_ne j o with rfl | hjo
    · have hfr : ∀ c ∈ init ++ post, AgreeOn σ.mem (unlinkBlock σ j p b).mem c 8 := by
        intro c hc
        refine agree_of_frame (c := ⟨c, j⟩) hp hpin (mem_freeBlocks hj ?_) ?_ hout
        · rw [hL]
          rcases List.mem_append.mp hc with hc | hc <;> simp [hc]
        · intro he
          have hcp : c = p := congrArg Block.addr he
          subst hcp
          simp only [List.concat_eq_append, List.append_assoc, List.cons_append,
            List.nil_append] at hnd
          have hmid := (List.nodup_middle.mp hnd)
          exact (List.nodup_cons.mp hmid).1 (by
            rcases List.mem_append.mp hc with hc | hc <;> simp [hc])
      rw [update_self]
      simp only [List.concat_eq_append, List.append_assoc, List.cons_append,
        List.nil_append] at hchain ⊢
      refine hchain.unlink ?_ (fun c hc => hfr c (by simp [hc])) (fun c hc => hfr c (by simp [hc]))
      rw [hval, load64_store64_same, Nat.mod_eq_of_lt (load64_lt _ _)]
    · rw [update_of_ne hjo]
      refine h.frame_level hp (fun _ hb => hb) hpin hout hj fun c _ he => ?_
      exact hjo (congrArg Block.order he)

def Fuelled (fuel : ℕ) (L : Levels) : Prop := ∀ k, k ≤ maxOrder → (L k).length < fuel

theorem Fuelled.erase {fuel : ℕ} {L : Levels} (h : Fuelled fuel L) (o b : ℕ) :
    Fuelled fuel (update L o ((L o).erase b)) := by
  intro k hk
  rcases eq_or_ne k o with rfl | hko
  · rw [update_self]
    exact lt_of_le_of_lt (List.erase_sublist).length_le (h k hk)
  · rw [update_of_ne hko]
    exact h k hk

theorem min_eq_ite (a b : ℕ) : (if a < b then a else b) = min a b := by
  split <;> omega

/-- The merge loop and the final insertion carry out `release`, touching only bytes that
are free or belong to the block being freed. -/
theorem mergeLoop_refines {fuel : ℕ} (n : ℕ) {σ : Machine} {L : Levels} {a k : ℕ}
    (h : Represents σ L) (hp : Placed (⟨a, k⟩ :: freeBlocks L)) (hk : k + n = maxOrder)
    (hf : Fuelled fuel L) :
    ∃ σ' a' k', mergeLoop fuel n σ a k = some (σ', a', k') ∧
      Represents (pushBlock σ' k' a') (release 12 n L a k) ∧
      Frame (⟨a, k⟩ :: freeBlocks L) σ.mem (pushBlock σ' k' a').mem := by
  have hpush : ∀ {σ : Machine} {L : Levels} {a k : ℕ},
      Frame (⟨a, k⟩ :: freeBlocks L) σ.mem (pushBlock σ k a).mem := by
    intro σ L a k x hx
    refine pushBlock_frame σ a k x ?_
    have hle := coverage_sublist (s := 12)
      (List.cons_sublist_cons.mpr (List.nil_sublist (freeBlocks L)) : [⟨a, k⟩].Sublist _) x
    exact Nat.le_zero.mp (hle.trans_eq hx)
  induction n generalizing σ L a k with
  | zero => exact ⟨σ, a, k, rfl, pushBlock_represents h hp (by omega), hpush⟩
  | succ n ih =>
    rcases searchList_eq (o := k) (b := buddy 12 a k) (p := 0) (h k (by omega)) (hf k (by omega)) with
      ⟨hn, he⟩ | ⟨pre, post, hL, hn, he⟩
    · refine ⟨σ, a, k, ?_, ?_, hpush⟩
      · simp [mergeLoop, buddyAddr_eq, he]
      · simpa [release, hn] using pushBlock_represents h hp (by omega)
    · have hb : buddy 12 a k ∈ L k := by simp [hL]
      have hcov : ∀ x, cover (⟨min a (buddy 12 a k), k + 1⟩ ::
          freeBlocks (update L k ((L k).erase (buddy 12 a k)))) x =
            cover (⟨a, k⟩ :: freeBlocks L) x :=
        fun x => coverage_mergeStep (by omega) hb x
      obtain ⟨σ', a', k', h1, h2, h3⟩ := ih
        (unlinkBlock_represents h hp.tail (by omega) hL hn) (hp.congr hcov) (by omega)
        (hf.erase k (buddy 12 a k))
      refine ⟨σ', a', k', ?_, ?_, ?_⟩
      · simp only [mergeLoop, buddyAddr_eq, he, min_eq_ite]
        exact h1
      · simpa [release, hb] using h2
      · refine Frame.trans ?_ h3 fun x hx => (hcov x).trans hx
        intro x hx
        unfold unlinkBlock
        split
        · next hlast =>
          have hm : (0 :: pre).getLast (by simp) ∈ pre := by
            rcases List.eq_nil_or_concat pre with rfl | ⟨init, p, rfl⟩
            · simp at hlast
            · simp
          have hmL : (0 :: pre).getLast (by simp) ∈ L k := by
            rw [hL]
            exact List.mem_append_left _ hm
          have hkmax : k ≤ maxOrder := by omega
          have hin := mem_freeBlocks hkmax hmL
          have hx' := coverage_eq_zero.mp hx _ (List.mem_cons_of_mem _ hin)
          have hsz := blockSize_ge k
          exact store64_outside _ _ _ _ (by simp only [Block.Covers] at hx'; omega)
        · rfl

theorem exists_fuelled (L : Levels) : ∃ fuel, ∀ fuel', fuel ≤ fuel' → Fuelled fuel' L := by
  refine ⟨∑ k ∈ Finset.range (maxOrder + 1), (L k).length + 1, fun fuel' hle k hk => ?_⟩
  have hs := Finset.single_le_sum (f := fun k => (L k).length) (fun _ _ => Nat.zero_le _)
    (Finset.mem_range.mpr (show k < maxOrder + 1 by omega))
  omega

theorem searchList_mono {σ : Machine} {o b fuel fuel' prev curr : ℕ} {r : Option Machine}
    (h : searchList σ o b fuel prev curr = some r) (hle : fuel ≤ fuel') :
    searchList σ o b fuel' prev curr = some r := by
  induction fuel generalizing fuel' prev curr with
  | zero => cases h
  | succ fuel ih =>
    obtain ⟨f, rfl⟩ : ∃ f, fuel' = f + 1 := ⟨fuel' - 1, by omega⟩
    unfold searchList at h ⊢
    by_cases hz : curr = 0
    · rw [if_pos hz] at h ⊢
      exact h
    · rw [if_neg hz] at h ⊢
      by_cases hb : curr = b
      · rw [if_pos hb] at h ⊢
        exact h
      · rw [if_neg hb] at h ⊢
        exact ih h (by omega)

theorem mergeLoop_mono {fuel fuel' : ℕ} (hle : fuel ≤ fuel') (n : ℕ) {σ : Machine} {a k : ℕ}
    {r : Machine × ℕ × ℕ} (h : mergeLoop fuel n σ a k = some r) :
    mergeLoop fuel' n σ a k = some r := by
  induction n generalizing σ a k with
  | zero => exact h
  | succ n ih =>
    unfold mergeLoop at h ⊢
    cases hs : searchList σ k (buddyAddr a k) fuel 0 (σ.freeLists k) with
    | none => simp [hs] at h
    | some q =>
      simp only [hs] at h
      simp only [searchList_mono hs hle]
      cases q with
      | none => exact h
      | some σ' => exact ih h

theorem kfreeOrder_mono {fuel fuel' : ℕ} (hle : fuel ≤ fuel') {σ σ' : Machine} {a k : ℕ}
    (h : kfreeOrder fuel σ a k = some σ') : kfreeOrder fuel' σ a k = some σ' := by
  unfold kfreeOrder at h ⊢
  by_cases hk : maxOrder < k
  · rw [if_pos hk] at h ⊢
    exact h
  · rw [if_neg hk] at h ⊢
    cases hm : mergeLoop fuel (maxOrder - k) σ a k with
    | none => simp [hm] at h
    | some r =>
      simp only [hm] at h
      simpa only [mergeLoop_mono hle _ hm] using h

/-- With enough fuel `kfree_order` returns, and it carries out `free`. -/
theorem kfreeOrder_refines {fuel : ℕ} {σ : Machine} {L : Levels} {a k : ℕ}
    (h : Represents σ L) (hp : Placed (⟨a, k⟩ :: freeBlocks L)) (hk : k ≤ maxOrder)
    (hf : Fuelled fuel L) :
    ∃ σ', kfreeOrder fuel σ a k = some σ' ∧ Represents σ' (free 12 maxOrder L a k) ∧
      Frame (⟨a, k⟩ :: freeBlocks L) σ.mem σ'.mem := by
  obtain ⟨σ', a', k', h1, h2, h3⟩ := mergeLoop_refines (maxOrder - k) h hp (by omega) hf
  refine ⟨pushBlock σ' k' a', ?_, h2, h3⟩
  simp [kfreeOrder, h1, show ¬ maxOrder < k by omega]

theorem placed_of_tiles {base len : ℕ} {B : List Block} (h : Tiles 12 base len B)
    (hb : 0 < base) (he : base + len ≤ 2 ^ 64) : Placed B where
  once := h.le_one
  low := by rw [cover, h 0, if_neg (by omega)]
  high x hx := by rw [cover, h x, if_neg (by omega)]

theorem blockPages_mul (k : ℕ) : (1 <<< k) * pageSize = blockSize 12 k := by
  rw [← shift_eq_blockSize, Nat.shiftLeft_eq, Nat.shiftLeft_eq, Nat.one_mul, Nat.mul_comm]

theorem run_cons (a sz q : ℕ) (l : List ℕ) :
    ((List.range q).map (fun i => a + sz + i * sz)).reverse ++ (a :: l) =
      ((List.range (q + 1)).map (fun i => a + i * sz)).reverse ++ l := by
  rw [List.range_succ_eq_map]
  simp only [List.map_cons, List.map_map, List.reverse_cons, List.append_assoc,
    Nat.zero_mul, Nat.add_zero, List.cons_append, List.nil_append]
  congr 3
  funext i
  simp only [Function.comp, Nat.succ_mul]
  omega

theorem initLoop_refines (k n : ℕ) {σ : Machine} {L : Levels} {base d t : ℕ}
    (h : Represents σ L) (ht : Tiles 12 base d (freeBlocks L)) (hk : k ≤ maxOrder)
    (hb : 0 < base) (he : base + d + t * 4096 ≤ 2 ^ 64) (hn : t ≤ n) :
    ∃ σ', initLoop k n σ (base + d) t =
        (σ', base + d + t / 2 ^ k * blockSize 12 k, t % 2 ^ k) ∧
      Represents σ' (update L k (((List.range (t / 2 ^ k)).map
        (fun i => base + d + i * blockSize 12 k)).reverse ++ L k)) ∧
      ∀ x, ¬ (base + d ≤ x ∧ x < base + d + t * 4096) → σ'.mem x = σ.mem x := by
  have hsz : blockSize 12 k = 2 ^ k * 4096 := by
    rw [← blockPages_mul, Nat.shiftLeft_eq, Nat.one_mul]; rfl
  induction n generalizing σ L d t with
  | zero =>
    obtain rfl : t = 0 := by omega
    exact ⟨σ, by simp [initLoop], by simpa using h, fun _ _ => rfl⟩
  | succ n ih =>
    have hpow := Nat.two_pow_pos k
    unfold initLoop
    rw [Nat.shiftLeft_eq, Nat.one_mul]
    by_cases hle : 2 ^ k ≤ t
    · have hmul := Nat.mul_le_mul_right 4096 hle
      have hsub : (t - 2 ^ k) * 4096 = t * 4096 - blockSize 12 k := by
        rw [Nat.sub_mul, hsz]
      have hq : t / 2 ^ k = (t - 2 ^ k) / 2 ^ k + 1 := by
        rw [Nat.div_eq_sub_div hpow hle]
      have hadd : base + d + 2 ^ k * pageSize = base + (d + blockSize 12 k) := by
        rw [hsz, pageSize]; omega
      have htl := Tiles.extend ht k
      have hpl := placed_of_tiles htl hb (by omega)
      have hrep := pushBlock_represents h hpl hk
      obtain ⟨σ', h1, h2, h3⟩ := ih (d := d + blockSize 12 k) (t := t - 2 ^ k) hrep
        (htl.congr fun x => coverage_push hk _ x) (by omega) (by omega)
      refine ⟨σ', ?_, ?_, ?_⟩
      · rw [if_pos hle, hadd, h1, hq, Nat.mod_eq_sub_mod hle]
        simp only [Nat.succ_mul, Prod.mk.injEq, and_true, true_and]
        omega
      · rw [hq, ← run_cons]
        simpa [Nat.add_assoc] using h2
      · intro x hx
        rw [h3 x (by omega)]
        refine pushBlock_frame σ _ k x (coverage_eq_zero.mpr ?_)
        simp only [List.mem_singleton, forall_eq, Block.Covers]
        omega
    · rw [if_neg hle]
      refine ⟨σ, ?_, ?_, fun _ _ => rfl⟩
      · rw [Nat.div_eq_of_lt (by omega), Nat.mod_eq_of_lt (by omega)]
        simp
      · rw [Nat.div_eq_of_lt (by omega)]
        simpa using h

theorem initOrders_refines (k : ℕ) {σ : Machine} {L : Levels} {base d t : ℕ}
    (h : Represents σ L) (ht : Tiles 12 base d (freeBlocks L)) (hk : k ≤ maxOrder + 1)
    (hb : 0 < base) (he : base + d + t * 4096 ≤ 2 ^ 64) :
    Represents (initOrders k σ (base + d) t) (seed 12 k (base + d) t L) ∧
      ∀ x, ¬ (base + d ≤ x ∧ x < base + d + t * 4096) →
        (initOrders k σ (base + d) t).mem x = σ.mem x := by
  induction k generalizing σ L d t with
  | zero => exact ⟨h, fun _ _ => rfl⟩
  | succ k ih =>
    obtain ⟨σ', h1, h2, h3⟩ := initLoop_refines k t h ht (by omega) hb he le_rfl
    have hdm : t * 4096 = t / 2 ^ k * blockSize 12 k + t % 2 ^ k * 4096 :=
      units_split (s := 12) t k
    have htl := tiles_fill ht (show k ≤ maxOrder by omega) (t / 2 ^ k)
    obtain ⟨h4, h5⟩ := ih (d := d + t / 2 ^ k * blockSize 12 k)
      (t := t % 2 ^ k) h2 htl (by omega) (by omega)
    simp only [initOrders, h1, seed]
    rw [Nat.add_assoc base d]
    refine ⟨?_, fun x hx => ?_⟩
    · simpa only [Nat.add_assoc] using h4
    · rw [h5 x (by omega), h3 x (by omega)]

/-- `init_memory` on empty lists sets up the initial buddy system of the heap and writes
only inside it. -/
theorem initMemory_refines (σ : Machine) (hσ : ∀ k, σ.freeLists k = 0) {heapStart heapEnd : ℕ}
    (hb : 0 < heapStart) (hle : heapStart ≤ heapEnd) (he : heapEnd < 2 ^ 64) :
    Represents (initMemory σ heapStart heapEnd)
        (initial 12 maxOrder heapStart ((heapEnd - heapStart) / pageSize)) ∧
      ∀ x, ¬ (heapStart ≤ x ∧ x < heapEnd) → (initMemory σ heapStart heapEnd).mem x = σ.mem x := by
  have hdiv : (heapEnd - heapStart) / pageSize * 4096 ≤ heapEnd - heapStart :=
    Nat.div_mul_le_self _ _
  have h0 : Tiles 12 heapStart 0 (freeBlocks fun _ => []) := by
    intro x
    rw [if_neg (by omega)]
    exact coverage_eq_zero.mpr fun b hb => by simp [mem_blocksOf] at hb
  unfold initMemory initial
  generalize (heapEnd - heapStart) / pageSize = t at *
  have hrep : Represents σ fun _ => [] := fun k _ => hσ k
  obtain ⟨h1, h2⟩ := initOrders_refines (maxOrder + 1) (t := t) hrep h0 le_rfl hb (by omega)
  simp only [Nat.add_zero] at h1 h2
  exact ⟨h1, fun x hx => h2 x (by omega)⟩

end AllocatorRefinement
