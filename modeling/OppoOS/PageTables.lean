import OppoOS.Paging

/-!
# The tree a page table stores

A page table is a tree of three levels of 512 entries. `map_page` adds the missing tables
on the way to a leaf and writes the leaf; `vaddr_to_paddr` reads it back.
-/
namespace PageTables

open ByteMemory BuddyAllocator TableTree Paging Function

def sv39 : Format (ℕ × ℕ) := ⟨512, 3, branchPte, fun e => leafPte e.1 e.2⟩

def key (v : ℕ) : List ℕ := [vpn0 v, vpn1 v, vpn2 v]

def Encodable (t : ℕ) : Prop := pageSize ∣ t ∧ t < 2 ^ 46

structure PageTable (m : Mem) (root : ℕ) (loc : List ℕ → Option ℕ)
    (M : List ℕ → Option (ℕ × ℕ)) : Prop extends Stores sv39 m root loc M where
  tables : ∀ {i p t}, loc (i :: p) = some t → Encodable t
  frames : ∀ {p e}, M p = some e → Encodable e.1 ∧ e.2 < 2 ^ 10

def rootOnly (root : ℕ) : List ℕ → Option ℕ := update (fun _ => none) [] (some root)

theorem key_eq_iff {a b : ℕ} (ha : a < 2 ^ 39) (hb : b < 2 ^ 39) :
    key a = key b ↔ a / pageSize = b / pageSize := by
  constructor
  · intro h
    simp only [key, List.cons.injEq, and_true] at h
    exact page_eq_of_vpn ha hb h.2.2 h.2.1 h.1
  · intro h
    simp only [key, vpn2_eq, vpn1_eq, vpn0_eq, List.cons.injEq, and_true]
    simp only [pageSize] at h
    omega

theorem pageTable_empty {m : Mem} {root : ℕ}
    (hz : ∀ x, root ≤ x → x < root + pageSize → m x = 0) :
    PageTable m root (rootOnly root) fun _ => none where
  toStores := stores_empty (by decide) hz
  tables := by
    intro i p t h
    rw [rootOnly, update_of_ne (by simp)] at h
    cases h
  frames := by
    intro p e h
    cases h

section
variable {m : Mem} {root : ℕ} {loc : List ℕ → Option ℕ} {M : List ℕ → Option (ℕ × ℕ)}

theorem PageTable.frame {m' : Mem} (h : PageTable m root loc M)
    (hm : SameTables sv39 loc m m') : PageTable m' root loc M where
  toStores := h.toStores.frame hm
  tables := h.tables
  frames := h.frames

theorem PageTable.branch_entry (h : PageTable m root loc M) {p : List ℕ} {t i : ℕ}
    (hp : loc p = some t) (hi : i < 512) (hlen : p.length < 2) :
    load64 m (entryAddr t i) = (loc (i :: p)).elim 0 branchPte := by
  rw [h.entries hp hi, Format.entry, if_pos (by simp only [sv39]; omega)]
  rfl

theorem PageTable.leaf_entry (h : PageTable m root loc M) {p : List ℕ} {t i : ℕ}
    (hp : loc p = some t) (hi : i < 512) (hlen : p.length = 2) :
    load64 m (entryAddr t i) = (M (i :: p)).elim 0 fun e => leafPte e.1 e.2 := by
  rw [h.entries hp hi, Format.entry, if_neg (by simp only [sv39]; omega)]
  rfl

theorem branchPte_valid {t : ℕ} (h : Encodable t) : branchPte t &&& pageV = 1 := by
  rw [branchPte_eq_leafPte]
  exact leafPte_valid h.2 (by decide)

theorem PageTable.branch_invalid_iff (h : PageTable m root loc M) {p : List ℕ} {t i : ℕ}
    (hp : loc p = some t) (hi : i < 512) (hlen : p.length < 2) :
    load64 m (entryAddr t i) &&& pageV = 0 ↔ loc (i :: p) = none := by
  rw [h.branch_entry hp hi hlen]
  cases hc : loc (i :: p) with
  | none => simp
  | some u =>
    have hv := branchPte_valid (h.tables hc)
    simp only [Option.elim_some, hv]
    simp

theorem PageTable.nextTable_eq (h : PageTable m root loc M) {p : List ℕ} {t u i : ℕ}
    (hp : loc p = some t) (hi : i < 512) (hlen : p.length < 2) (hc : loc (i :: p) = some u) :
    nextTable (load64 m (entryAddr t i)) = u := by
  rw [h.branch_entry hp hi hlen, hc]
  exact nextTable_branchPte (h.tables hc).1 (h.tables hc).2

/-- The leaf entry the three-level walk ends at, when every entry on the way is valid. -/
def leafEntry (m : Mem) (root vaddr : ℕ) : Option ℕ :=
  let pte2 := load64 m (entryAddr root (vpn2 vaddr))
  if pte2 &&& pageV = 0 then none
  else
    let pte1 := load64 m (entryAddr (nextTable pte2) (vpn1 vaddr))
    if pte1 &&& pageV = 0 then none
    else
      let pte0 := load64 m (entryAddr (nextTable pte1) (vpn0 vaddr))
      if pte0 &&& pageV = 0 then none else some pte0

theorem vaddrToPaddr_eq (m : Mem) (root v : ℕ) :
    vaddrToPaddr m root v = (leafEntry m root v).elim 0 fun pte =>
      (((pte >>> 10) &&& ppnMask) <<< pageShift) ||| (v &&& (pageSize - 1)) := by
  unfold vaddrToPaddr leafEntry
  dsimp only
  split_ifs <;> rfl

theorem PageTable.leafEntry_eq (h : PageTable m root loc M) (v : ℕ) :
    leafEntry m root v = (M (key v)).map fun e => leafPte e.1 e.2 := by
  obtain ⟨h2, h1, h0⟩ := vpn_lt v
  have hr := h.root_loc
  have hpath : ∀ e, M (key v) = some e →
      ∃ t, loc [vpn1 v, vpn2 v] = some t ∧ ∃ u, loc [vpn2 v] = some u := by
    intro e he
    obtain ⟨-, -, t, ht⟩ := h.mapped he
    exact ⟨t, ht, (h.parent ht).2⟩
  unfold leafEntry
  dsimp only
  split
  · next hv =>
    rw [h.branch_invalid_iff hr h2 (by simp)] at hv
    cases hM : M (key v) with
    | none => rfl
    | some e =>
      obtain ⟨t, -, u, hu⟩ := hpath e hM
      rw [hv] at hu
      cases hu
  · next hv =>
    rw [h.branch_invalid_iff hr h2 (by simp)] at hv
    obtain ⟨t1, ht1⟩ := Option.ne_none_iff_exists'.mp hv
    rw [h.nextTable_eq hr h2 (by simp) ht1]
    split
    · next hw =>
      rw [h.branch_invalid_iff ht1 h1 (by simp)] at hw
      cases hM : M (key v) with
      | none => rfl
      | some e =>
        obtain ⟨t, ht, -⟩ := hpath e hM
        rw [hw] at ht
        cases ht
    · next hw =>
      rw [h.branch_invalid_iff ht1 h1 (by simp)] at hw
      obtain ⟨t0, ht0⟩ := Option.ne_none_iff_exists'.mp hw
      have hleaf := h.leaf_entry ht0 h0 (by simp)
      rw [show vpn0 v :: [vpn1 v, vpn2 v] = key v from rfl] at hleaf
      rw [h.nextTable_eq ht1 h1 (by simp) ht0]
      cases hM : M (key v) with
      | none =>
        rw [hM, Option.elim_none] at hleaf
        rw [hleaf]
        rfl
      | some e =>
        obtain ⟨he, hf⟩ := h.frames hM
        rw [hM, Option.elim_some] at hleaf
        rw [hleaf, if_neg (by simp [leafPte_valid he.2 hf])]
        rfl

/-- The walk of `vaddr_to_paddr` is a lookup in the map of leaves. -/
theorem PageTable.vaddrToPaddr_eq (h : PageTable m root loc M) (v : ℕ) :
    vaddrToPaddr m root v = (M (key v)).elim 0 fun e => e.1 + v % pageSize := by
  rw [PageTables.vaddrToPaddr_eq, h.leafEntry_eq]
  cases hM : M (key v) with
  | none => rfl
  | some e =>
    obtain ⟨he, hf⟩ := h.frames hM
    exact paddr_of_leafPte v he.1 he.2 hf

end

section
variable {kalloc : Pages → ℕ × Pages} {σ : Pages} {root : ℕ}
  {loc : List ℕ → Option ℕ} {M : List ℕ → Option (ℕ × ℕ)}

/-- The allocator called in `σ` returns a zeroed page apart from the tables and leaves the
tables alone. -/
structure FreshTable (kalloc : Pages → ℕ × Pages) (loc : List ℕ → Option ℕ)
    (σ : Pages) : Prop where
  encodable : Encodable (kalloc σ).1
  zeroed : ∀ x, (kalloc σ).1 ≤ x → x < (kalloc σ).1 + pageSize → (kalloc σ).2.mem x = 0
  apart : Apart sv39 loc (kalloc σ).1
  kept : SameTables sv39 loc σ.mem (kalloc σ).2.mem

theorem tableFor_present (h : PageTable σ.mem root loc M) {p : List ℕ} {t u i : ℕ}
    (hp : loc p = some t) (hi : i < 512) (hlen : p.length < 2) (hc : loc (i :: p) = some u) :
    tableFor kalloc σ (entryAddr t i) = (u, σ) := by
  have hv : ¬ load64 σ.mem (entryAddr t i) &&& pageV = 0 := by
    rw [h.branch_invalid_iff hp hi hlen, hc]
    simp
  rw [tableFor, if_neg hv]
  simp only [h.nextTable_eq hp hi hlen hc]

def linked (kalloc : Pages → ℕ × Pages) (σ : Pages) (a : ℕ) : Pages :=
  { (kalloc σ).2 with mem := store64 (kalloc σ).2.mem a (branchPte (kalloc σ).1) }

theorem tableFor_absent (h : PageTable σ.mem root loc M) {p : List ℕ} {t i : ℕ}
    (hp : loc p = some t) (hi : i < 512) (hlen : p.length < 2) (hc : loc (i :: p) = none)
    (hf : FreshTable kalloc loc σ) :
    tableFor kalloc σ (entryAddr t i) = ((kalloc σ).1, linked kalloc σ (entryAddr t i)) ∧
      PageTable (linked kalloc σ (entryAddr t i)).mem root
        (update loc (i :: p) (some (kalloc σ).1)) M := by
  have hv : load64 σ.mem (entryAddr t i) &&& pageV = 0 :=
    (h.branch_invalid_iff hp hi hlen).mpr hc
  have hb : branchPte (kalloc σ).1 < 2 ^ 64 := by
    rw [branchPte_eq_leafPte]
    exact leafPte_lt hf.encodable.2 (by decide)
  refine ⟨?_, ?_, ?_, ?_⟩
  · rw [tableFor, if_pos hv]
    simp only [linked, load64_store64_same, Nat.mod_eq_of_lt hb,
      nextTable_branchPte hf.encodable.1 hf.encodable.2]
  · exact (h.toStores.frame hf.kept).link hp hi (by simp only [sv39]; omega) hc hf.apart
      hf.zeroed hb
  · intro j q w hq
    by_cases hqp : j :: q = i :: p
    · rw [hqp, update_self] at hq
      obtain rfl : (kalloc σ).1 = w := by simpa using hq
      exact hf.encodable
    · rw [update_of_ne hqp] at hq
      exact h.tables hq
  · exact h.frames

theorem PageTable.setLeaf {m : Mem} (h : PageTable m root loc M) {v t paddr flags : ℕ}
    (ht : loc [vpn1 v, vpn2 v] = some t) (hp : Encodable paddr) (hf : flags < 2 ^ 10) :
    PageTable (store64 m (entryAddr t (vpn0 v)) (leafPte paddr flags)) root loc
      (update M (key v) (some (paddr, flags))) where
  toStores := h.toStores.setLeaf (a := (paddr, flags)) ht (vpn_lt v).2.2 rfl
    (leafPte_lt hp.2 hf)
  tables := h.tables
  frames := by
    intro q e he
    by_cases hq : q = key v
    · rw [hq, update_self] at he
      obtain rfl : (paddr, flags) = e := by simpa using he
      exact ⟨hp, hf⟩
    · rw [update_of_ne hq] at he
      exact h.frames he

/-- Arguments with which `map_page` does not panic and the entry encodes the page. -/
structure MapArgs (vaddr paddr flags : ℕ) : Prop where
  vaddr_aligned : pageSize ∣ vaddr
  paddr_encodable : Encodable paddr
  flags_lt : flags < 2 ^ 10
  permission : flags &&& 0xe ≠ 0

theorem mapPage_eq {v paddr flags : ℕ} (ha : MapArgs v paddr flags) :
    mapPage kalloc σ root v paddr flags =
      let r₁ := tableFor kalloc σ (entryAddr root (vpn2 v))
      let r₀ := tableFor kalloc r₁.2 (entryAddr r₁.1 (vpn1 v))
      some { r₀.2 with
        mem := store64 r₀.2.mem (entryAddr r₀.1 (vpn0 v)) (leafPte paddr flags) } := by
  have h1 := (isAligned_iff v).mpr ha.vaddr_aligned
  have h2 := (isAligned_iff paddr).mpr ha.paddr_encodable.1
  rw [mapPage, if_neg (by simp [h1]), if_neg (by simp [h2]), if_neg ha.permission]

end

end PageTables
