import OppoOS.PageGrants
import OppoOS.PageTables

/-!
# Page tables over the page allocator

As long as no allocation fails, the tables that `map_page` adds are granted pages, and
nothing that was held before changes except tables of this address space. Tables are counted,
so that the free pages before a call decide whether its allocations succeed.
-/
namespace AddressSpace

open ByteMemory BuddyTiling BuddyAllocator AllocatorRuns TableTree Paging PageTables
open PageGrants Function

def InTables (loc : List ℕ → Option ℕ) (x : ℕ) : Prop := ∃ p t, loc p = some t ∧ InPage t x

def tablePaths (v : ℕ) : Finset (List ℕ) := {[vpn2 v], [vpn1 v, vpn2 v]}

section
variable {h : Heap} {base : List Block} {σ σ₁ σ₂ : Pages} {root : ℕ}
  {loc loc₁ loc₂ : List ℕ → Option ℕ} {M : List ℕ → Option (ℕ × ℕ)} {g : List ℕ}
  {S : Finset (List ℕ)} {c : ℕ} {kalloc : Pages → ℕ × Pages}

/-- An address space whose tables are granted pages, `S` their paths; `c` granted pages have
other uses. -/
structure Space (h : Heap) (base : List Block) (σ : Pages) (root : ℕ)
    (loc : List ℕ → Option ℕ) (M : List ℕ → Option (ℕ × ℕ)) (S : Finset (List ℕ)) (c : ℕ) :
    Prop where
  owned : Owned h base σ
  table : PageTable σ.mem root loc M
  tables_granted : ∀ {p t}, loc p = some t → t ∈ σ.granted
  paths : ∀ p, p ∈ S ↔ loc p ≠ none
  count : σ.granted.length = S.card + c

/-- From `σ` to `σ₁` pages were granted and tables of one space written, nothing else. -/
structure Extends (h : Heap) (base : List Block) (σ : Pages) (loc : List ℕ → Option ℕ)
    (σ₁ : Pages) (loc₁ : List ℕ → Option ℕ) : Prop where
  grown : σ.granted <:+ σ₁.granted
  fresh : ∀ x, InTables loc₁ x → InTables loc x ∨ ¬ Held h base σ.granted x
  kept : ∀ x, Held h base σ.granted x → ¬ InTables loc x → σ₁.mem x = σ.mem x

theorem Extends.refl (σ : Pages) (loc : List ℕ → Option ℕ) : Extends h base σ loc σ loc where
  grown := List.suffix_rfl
  fresh _ hx := Or.inl hx
  kept _ _ _ := rfl

theorem Extends.held (he : Extends h base σ loc σ₁ loc₁) {x : ℕ}
    (hx : Held h base σ.granted x) : Held h base σ₁.granted x := by
  obtain ⟨l, hl⟩ := he.grown
  rw [← hl]
  exact hx.append l

theorem Extends.not_inTables (he : Extends h base σ loc σ₁ loc₁) {x : ℕ}
    (hx : Held h base σ.granted x) (hn : ¬ InTables loc x) : ¬ InTables loc₁ x := by
  intro hc
  rcases he.fresh x hc with hc | hc
  · exact hn hc
  · exact hc hx

theorem Extends.trans (a : Extends h base σ loc σ₁ loc₁) (b : Extends h base σ₁ loc₁ σ₂ loc₂) :
    Extends h base σ loc σ₂ loc₂ where
  grown := a.grown.trans b.grown
  fresh x hx := by
    rcases b.fresh x hx with hx | hx
    · exact a.fresh x hx
    · exact Or.inr fun hc => hx (a.held hc)
  kept x hx hn := by
    rw [b.kept x (a.held hx) (a.not_inTables hx hn), a.kept x hx hn]

theorem entry_inPage {t i : ℕ} (hi : i < 512) {x : ℕ} (hl : entryAddr t i ≤ x)
    (hr : x < entryAddr t i + 8) : InPage t x := by
  unfold entryAddr at hl hr
  simp only [InPage, pageSize]
  omega

theorem Space.freshTable (hs : Space h base σ root loc M S c)
    (hk : PageAllocator h base kalloc) (hend : h.heapEnd ≤ 2 ^ 46)
    (hn : (kalloc σ).1 ≠ 0) : FreshTable kalloc loc σ := by
  have hg := hk.grants σ hs.owned hn
  have hsize : 8 * sv39.fan = pageSize := rfl
  refine ⟨⟨hg.aligned, ?_⟩, fun x hl hr => hg.zeroed x ⟨hl, hr⟩, ?_, ?_⟩
  · have hin := hg.inside.2
    have hpos : 0 < pageSize := by decide
    omega
  · intro p t hp
    rw [hsize]
    exact apart_of_unheld (hs.tables_granted hp) hg.unheld
  · intro p t hp x hl hr
    rw [hsize] at hr
    exact hg.kept x (held_of_granted (hs.tables_granted hp) ⟨hl, hr⟩)

theorem Extends.store (he : Extends h base σ loc σ₁ loc₁) {p : List ℕ} {t i v : ℕ}
    (hp : loc₁ p = some t) (hi : i < 512) :
    Extends h base σ loc { σ₁ with mem := store64 σ₁.mem (entryAddr t i) v } loc₁ where
  grown := he.grown
  fresh := he.fresh
  kept x hx hn := by
    rw [← he.kept x hx hn]
    apply store64_outside
    by_contra hc
    push Not at hc
    exact he.not_inTables hx hn ⟨p, t, hp, entry_inPage hi hc.1 hc.2⟩

theorem owned_store (ho : Owned h base σ) {t i v : ℕ} (ht : t ∈ σ.granted) (hi : i < 512) :
    Owned h base { σ with mem := store64 σ.mem (entryAddr t i) v } := by
  apply ho.write
  intro x hx
  apply store64_outside
  by_contra hc
  push Not at hc
  exact hx t ht (entry_inPage hi hc.1 hc.2)

theorem Space.tableFor (hs : Space h base σ root loc M S c)
    (hk : PageAllocator h base kalloc) (hend : h.heapEnd ≤ 2 ^ 46)
    {p : List ℕ} {t i : ℕ} (hp : loc p = some t) (hi : i < 512) (hlen : p.length < 2)
    (hok : 0 ∉ (tableFor kalloc σ (entryAddr t i)).2.granted) :
    ∃ loc₁, Space h base (tableFor kalloc σ (entryAddr t i)).2 root loc₁ M
        (insert (i :: p) S) c ∧
      loc₁ (i :: p) = some (tableFor kalloc σ (entryAddr t i)).1 ∧
      Extends h base σ loc (tableFor kalloc σ (entryAddr t i)).2 loc₁ := by
  cases hc : loc (i :: p) with
  | some u =>
    have hmem : i :: p ∈ S := (hs.paths _).mpr (by rw [hc]; simp)
    rw [tableFor_present hs.table hp hi hlen hc, Finset.insert_eq_of_mem hmem]
    exact ⟨loc, hs, hc, Extends.refl σ loc⟩
  | none =>
    have hv := (hs.table.branch_invalid_iff hp hi hlen).mpr hc
    have hn : (kalloc σ).1 ≠ 0 := by
      intro h0
      apply hok
      rw [Paging.tableFor, if_pos hv]
      simp only [hk.recorded, h0]
      exact List.mem_cons_self
    have hg := hk.grants σ hs.owned hn
    obtain ⟨he, ht⟩ := tableFor_absent hs.table hp hi hlen hc (hs.freshTable hk hend hn)
    rw [he]
    have hgr := hs.tables_granted hp
    have hmem : ∀ {a}, a ∈ σ.granted → a ∈ (kalloc σ).2.granted := by
      intro a ha
      rw [hk.recorded]
      exact List.mem_cons_of_mem _ ha
    have hext : Extends h base σ loc (kalloc σ).2
        (update loc (i :: p) (some (kalloc σ).1)) := by
      refine ⟨⟨[(kalloc σ).1], (hk.recorded σ).symm⟩, ?_, fun x hx _ => hg.kept x hx⟩
      rintro x ⟨q, w, hq, hx⟩
      by_cases hqp : q = i :: p
      · rw [hqp, update_self] at hq
        obtain rfl : (kalloc σ).1 = w := by simpa only [Option.some.injEq] using hq
        exact Or.inr (hg.unheld x hx)
      · rw [update_of_ne hqp] at hq
        exact Or.inl ⟨q, w, hq, hx⟩
    have hp' : update loc (i :: p) (some (kalloc σ).1) p = some t := by
      rw [update_of_ne (Ne.symm (List.cons_ne_self i p)), hp]
    refine ⟨_, ⟨owned_store hg.owned (hmem hgr) hi, ht, ?_, ?_, ?_⟩, update_self ..,
      hext.store hp' hi⟩
    · intro q w hq
      by_cases hqp : q = i :: p
      · rw [hqp, update_self] at hq
        obtain rfl : (kalloc σ).1 = w := by simpa only [Option.some.injEq] using hq
        simp only [linked, hk.recorded]
        exact List.mem_cons_self
      · rw [update_of_ne hqp] at hq
        exact hmem (hs.tables_granted hq)
    · intro q
      by_cases hqp : q = i :: p
      · simp [hqp]
      · rw [update_of_ne hqp, Finset.mem_insert, ← hs.paths q]
        simp [hqp]
    · have hnew : i :: p ∉ S := fun hm => (hs.paths _).mp hm hc
      have hcount := hs.count
      simp only [linked, hk.recorded, List.length_cons, Finset.card_insert_of_notMem hnew]
      omega

theorem space_of_root (hk : PageAllocator h base kalloc) (ho : Owned h base σ)
    (hn : (kalloc σ).1 ≠ 0) :
    Space h base (kalloc σ).2 (kalloc σ).1 (rootOnly (kalloc σ).1) (fun _ => none) {[]}
      σ.granted.length := by
  have hg := hk.grants σ ho hn
  refine ⟨hg.owned, pageTable_empty fun x hl hr => hg.zeroed x ⟨hl, hr⟩, ?_, ?_, ?_⟩
  · intro p t hp
    rw [hk.recorded]
    by_cases hnil : p = []
    · rw [hnil, rootOnly, update_self, Option.some.injEq] at hp
      rw [← hp]
      exact List.mem_cons_self
    · rw [rootOnly, update_of_ne hnil] at hp
      cases hp
  · intro p
    by_cases hnil : p = []
    · simp [hnil, rootOnly]
    · simp [hnil, rootOnly]
  · rw [hk.recorded, List.length_cons, Finset.card_singleton, Nat.add_comm]

theorem tableFor_granted (hk : PageAllocator h base kalloc) (σ : Pages) (entry : ℕ) :
    (tableFor kalloc σ entry).2.granted = σ.granted ∨
      (tableFor kalloc σ entry).2.granted = (kalloc σ).1 :: σ.granted := by
  unfold tableFor
  dsimp only
  split
  · exact Or.inr (hk.recorded σ)
  · exact Or.inl rfl

theorem tableFor_grown (hk : PageAllocator h base kalloc) (σ : Pages) (entry : ℕ) :
    σ.granted <:+ (tableFor kalloc σ entry).2.granted := by
  rcases tableFor_granted hk σ entry with hl | hl
  · rw [hl]
  · rw [hl]
    exact List.suffix_cons _ _

theorem mapPage_grown (hk : PageAllocator h base kalloc) {root v paddr flags : ℕ}
    (hm : mapPage kalloc σ root v paddr flags = some σ₁) : σ.granted <:+ σ₁.granted := by
  unfold mapPage at hm
  split at hm
  · cases hm
  · split at hm
    · cases hm
    · split at hm
      · cases hm
      · rw [← Option.some.inj hm]
        exact (tableFor_grown hk σ _).trans (tableFor_grown hk _ _)

theorem Space.mapPage (hs : Space h base σ root loc M S c)
    (hk : PageAllocator h base kalloc) (hend : h.heapEnd ≤ 2 ^ 46)
    {v paddr flags : ℕ} (ha : MapArgs v paddr flags)
    (hm : mapPage kalloc σ root v paddr flags = some σ₁) (hok : 0 ∉ σ₁.granted) :
    ∃ loc₁, Space h base σ₁ root loc₁ (update M (key v) (some (paddr, flags)))
        (S ∪ tablePaths v) c ∧
      Extends h base σ loc σ₁ loc₁ := by
  obtain ⟨h2, h1, h0⟩ := vpn_lt v
  rw [mapPage_eq ha, Option.some.injEq] at hm
  dsimp only at hm
  set r₁ := Paging.tableFor kalloc σ (entryAddr root (vpn2 v)) with hr₁
  set r₀ := Paging.tableFor kalloc r₁.2 (entryAddr r₁.1 (vpn1 v)) with hr₀
  subst hm
  have hok₁ : 0 ∉ r₁.2.granted := fun hc => hok ((tableFor_grown hk _ _).subset hc)
  obtain ⟨loc₁, hs₁, ht₁, he₁⟩ := hs.tableFor hk hend hs.table.root_loc h2 (by simp) hok₁
  obtain ⟨loc₀, hs₀, ht₀, he₀⟩ := hs₁.tableFor hk hend ht₁ h1 (by simp) hok
  have hS : insert [vpn1 v, vpn2 v] (insert [vpn2 v] S) = S ∪ tablePaths v := by
    ext p
    simp only [tablePaths, Finset.mem_insert, Finset.mem_union, Finset.mem_singleton]
    tauto
  rw [hS] at hs₀
  refine ⟨loc₀, ⟨owned_store hs₀.owned (hs₀.tables_granted ht₀) h0, ?_, hs₀.tables_granted,
    hs₀.paths, hs₀.count⟩, ?_⟩
  · exact hs₀.table.setLeaf ht₀ ha.paddr_encodable ha.flags_lt
  · exact (he₁.trans he₀).store ht₀ h0

theorem Space.served (hs : Space h base σ root loc M S c) (hk : PageAllocator h base kalloc)
    (hroom : S.card + c < freePages h base []) : (kalloc σ).1 ≠ 0 := by
  intro h0
  have hfree := (hk.serves σ hs.owned).mp h0
  have hadd := hs.owned.freePages_add
  rw [hs.count] at hadd
  omega

theorem Space.tableFor_served (hs : Space h base σ root loc M S c)
    (hk : PageAllocator h base kalloc) {p : List ℕ} {t i : ℕ} (hp : loc p = some t)
    (hi : i < 512) (hlen : p.length < 2)
    (hroom : (insert (i :: p) S).card + c ≤ freePages h base []) :
    0 ∉ (Paging.tableFor kalloc σ (entryAddr t i)).2.granted := by
  have hz := hs.owned.zero_notMem
  cases hc : loc (i :: p) with
  | some u => rwa [tableFor_present hs.table hp hi hlen hc]
  | none =>
    have hnew : i :: p ∉ S := fun hm => (hs.paths _).mp hm hc
    rw [Finset.card_insert_of_notMem hnew] at hroom
    have hn := hs.served hk (by omega)
    rcases tableFor_granted hk σ (entryAddr t i) with hl | hl
    · rwa [hl]
    · rw [hl, List.mem_cons]
      rintro (hc | hc)
      · exact hn hc.symm
      · exact hz hc

theorem Space.mapPage_served (hs : Space h base σ root loc M S c)
    (hk : PageAllocator h base kalloc) (hend : h.heapEnd ≤ 2 ^ 46)
    {v paddr flags : ℕ} (ha : MapArgs v paddr flags)
    (hm : Paging.mapPage kalloc σ root v paddr flags = some σ₁)
    (hroom : (S ∪ tablePaths v).card + c ≤ freePages h base []) : 0 ∉ σ₁.granted := by
  obtain ⟨h2, h1, -⟩ := vpn_lt v
  rw [mapPage_eq ha, Option.some.injEq] at hm
  rw [← hm]
  have hsub₁ : insert [vpn2 v] S ⊆ S ∪ tablePaths v := by
    intro p hp
    simp only [tablePaths, Finset.mem_insert, Finset.mem_union, Finset.mem_singleton] at hp ⊢
    tauto
  have hsub₀ : insert [vpn1 v, vpn2 v] (insert [vpn2 v] S) ⊆ S ∪ tablePaths v := by
    intro p hp
    simp only [tablePaths, Finset.mem_insert, Finset.mem_union, Finset.mem_singleton] at hp ⊢
    tauto
  have hcard₁ := Finset.card_le_card hsub₁
  have hcard₀ := Finset.card_le_card hsub₀
  have hok₁ := hs.tableFor_served hk hs.table.root_loc h2 (by simp) (by omega)
  obtain ⟨loc₁, hs₁, ht₁, -⟩ := hs.tableFor hk hend hs.table.root_loc h2 (by simp) hok₁
  exact hs₁.tableFor_served hk ht₁ h1 (by simp) (by omega)

end

end AddressSpace
