import OppoOS.AddressSpace
import OppoOS.AllocatorPartition

/-!
# Page tables are a finite map

Any sequence of `map_page` calls on one root, with any allocator that returns fresh zeroed
pages: `vaddr_to_paddr` answers with the last call that mapped the page.
-/
namespace PageTableMap

open ByteMemory BuddyTiling BuddySystem BuddyAllocator AllocatorRefinement AllocatorRuns
open TableTree Paging PageTables PageGrants AddressSpace Function

inductive InUse (m : Mem) (root : ℕ) : ℕ → ℕ → Prop where
  | root : InUse m root 2 root
  | next {level t i} : InUse m root (level + 1) t → i < 512 →
      load64 m (entryAddr t i) &&& pageV ≠ 0 →
      InUse m root level (nextTable (load64 m (entryAddr t i)))

/-- In `σ` the allocator returns a zeroed page the entries can encode, disjoint from the
tables in use, which it does not change. -/
structure Fresh (kalloc : Pages → ℕ × Pages) (root : ℕ) (σ : Pages) : Prop where
  encodable : Encodable (kalloc σ).1
  zeroed : ∀ x, InPage (kalloc σ).1 x → (kalloc σ).2.mem x = 0
  disjoint : ∀ k t, InUse σ.mem root k t → ∀ x, InPage t x → ¬ InPage (kalloc σ).1 x
  kept : ∀ k t, InUse σ.mem root k t → ∀ x, InPage t x → (kalloc σ).2.mem x = σ.mem x

def FreshCalls (kalloc : Pages → ℕ × Pages) (root : ℕ) (σ : Pages) (vaddr : ℕ) : Prop :=
  (load64 σ.mem (entryAddr root (vpn2 vaddr)) &&& pageV = 0 → Fresh kalloc root σ) ∧
    let r := tableFor kalloc σ (entryAddr root (vpn2 vaddr))
    load64 r.2.mem (entryAddr r.1 (vpn1 vaddr)) &&& pageV = 0 → Fresh kalloc root r.2

structure MapCall where
  vaddr : ℕ
  paddr : ℕ
  flags : ℕ
  deriving DecidableEq, Repr

structure MapCall.Valid (c : MapCall) : Prop where
  args : MapArgs c.vaddr c.paddr c.flags
  vaddr_lt : c.vaddr < 2 ^ 39

inductive MapRun (kalloc : Pages → ℕ × Pages) (root : ℕ) (σ₀ : Pages) :
    List MapCall → Pages → Prop where
  | start : MapRun kalloc root σ₀ [] σ₀
  | call {calls σ σ' c} : MapRun kalloc root σ₀ calls σ → c.Valid →
      FreshCalls kalloc root σ c.vaddr →
      mapPage kalloc σ root c.vaddr c.paddr c.flags = some σ' →
      MapRun kalloc root σ₀ (c :: calls) σ'

def lastCall (calls : List MapCall) (a : ℕ) : Option MapCall :=
  calls.find? fun c => c.vaddr / pageSize = a / pageSize

theorem lastCall_cons (c : MapCall) (calls : List MapCall) (a : ℕ) :
    lastCall (c :: calls) a =
      if c.vaddr / pageSize = a / pageSize then some c else lastCall calls a := by
  unfold lastCall
  rw [List.find?_cons]
  by_cases hc : c.vaddr / pageSize = a / pageSize <;> simp [hc]

section
variable {kalloc : Pages → ℕ × Pages} {root : ℕ} {σ₀ σ : Pages} {calls : List MapCall}
  {loc : List ℕ → Option ℕ} {M : List ℕ → Option (ℕ × ℕ)}

theorem inUse_of_loc (h : PageTable σ.mem root loc M) (p : List ℕ) {t : ℕ}
    (hp : loc p = some t) : InUse σ.mem root (2 - p.length) t := by
  induction p generalizing t with
  | nil =>
    have ht : root = t := Option.some.inj (h.root_loc.symm.trans hp)
    rw [← ht]
    exact .root
  | cons i p ih =>
    obtain ⟨hi, u, hu⟩ := h.parent hp
    have hshort := h.short hp
    simp only [List.length_cons, sv39] at hshort
    have hlen : p.length < 2 := by omega
    have hlevel : 2 - p.length = (2 - (i :: p).length) + 1 := by
      rw [List.length_cons]
      omega
    have hv : load64 σ.mem (entryAddr u i) &&& pageV ≠ 0 := by
      rw [ne_eq, h.branch_invalid_iff hu hi hlen, hp]
      simp
    rw [← h.nextTable_eq hu hi hlen hp]
    exact InUse.next (hlevel ▸ ih hu) hi hv

theorem loc_of_inUse (h : PageTable σ.mem root loc M) {k t : ℕ} (hu : InUse σ.mem root k t) :
    ∃ p, loc p = some t ∧ p.length + k = 2 := by
  induction hu with
  | root => exact ⟨[], h.root_loc, rfl⟩
  | @next k t i _ hi hv ih =>
    obtain ⟨p, hp, hlen⟩ := ih
    rw [ne_eq, h.branch_invalid_iff hp hi (by omega)] at hv
    obtain ⟨u, hu⟩ := Option.ne_none_iff_exists'.mp hv
    rw [h.nextTable_eq hp hi (by omega) hu]
    exact ⟨i :: p, hu, by rw [List.length_cons]; omega⟩

theorem Fresh.table (h : PageTable σ.mem root loc M) (hf : Fresh kalloc root σ) :
    FreshTable kalloc loc σ where
  encodable := hf.encodable
  zeroed x hl hr := hf.zeroed x ⟨hl, hr⟩
  apart p t hp := by
    have hsize : 8 * sv39.fan = pageSize := rfl
    have hpos : 0 < pageSize := by decide
    rw [hsize]
    by_contra hc
    push Not at hc
    exact hf.disjoint _ t (inUse_of_loc h p hp) (max t (kalloc σ).1) (by omega) (by omega)
  kept p t hp x hl hr := hf.kept _ t (inUse_of_loc h p hp) x ⟨hl, hr⟩

theorem tableFor_fresh (h : PageTable σ.mem root loc M) {p : List ℕ} {t i : ℕ}
    (hp : loc p = some t) (hi : i < 512) (hlen : p.length < 2)
    (hf : load64 σ.mem (entryAddr t i) &&& pageV = 0 → Fresh kalloc root σ) :
    ∃ loc₁, PageTable (tableFor kalloc σ (entryAddr t i)).2.mem root loc₁ M ∧
      loc₁ (i :: p) = some (tableFor kalloc σ (entryAddr t i)).1 := by
  cases hc : loc (i :: p) with
  | some u =>
    rw [tableFor_present h hp hi hlen hc]
    exact ⟨loc, h, hc⟩
  | none =>
    have hfresh := (hf ((h.branch_invalid_iff hp hi hlen).mpr hc)).table h
    obtain ⟨he, ht⟩ := tableFor_absent h hp hi hlen hc hfresh
    rw [he]
    exact ⟨_, ht, update_self ..⟩

theorem mapPage_fresh (h : PageTable σ.mem root loc M) {c : MapCall} (hc : c.Valid)
    (hf : FreshCalls kalloc root σ c.vaddr) :
    ∃ σ' loc', mapPage kalloc σ root c.vaddr c.paddr c.flags = some σ' ∧
      PageTable σ'.mem root loc' (update M (key c.vaddr) (some (c.paddr, c.flags))) := by
  obtain ⟨h2, h1, -⟩ := vpn_lt c.vaddr
  obtain ⟨loc₁, ht₁, hl₁⟩ := tableFor_fresh h h.root_loc h2 (by simp) hf.1
  obtain ⟨loc₀, ht₀, hl₀⟩ := tableFor_fresh ht₁ hl₁ h1 (by simp) hf.2
  refine ⟨_, loc₀, mapPage_eq hc.args, ?_⟩
  exact ht₀.setLeaf hl₀ hc.args.paddr_encodable hc.args.flags_lt

def Records (M : List ℕ → Option (ℕ × ℕ)) (calls : List MapCall) : Prop :=
  ∀ a, a < 2 ^ 39 → M (key a) = (lastCall calls a).map fun c => (c.paddr, c.flags)

theorem Records.cons (hr : Records M calls) {c : MapCall} (hc : c.Valid) :
    Records (update M (key c.vaddr) (some (c.paddr, c.flags))) (c :: calls) := by
  intro a ha
  rw [lastCall_cons]
  by_cases hp : c.vaddr / pageSize = a / pageSize
  · rw [if_pos hp, (key_eq_iff ha hc.vaddr_lt).mpr hp.symm, update_self]
    rfl
  · rw [if_neg hp, update_of_ne, hr a ha]
    intro hk
    exact hp ((key_eq_iff ha hc.vaddr_lt).mp hk).symm

theorem run_pageTable (hz : ∀ x, InPage root x → σ₀.mem x = 0)
    (hr : MapRun kalloc root σ₀ calls σ) :
    ∃ loc M, PageTable σ.mem root loc M ∧ Records M calls := by
  induction hr with
  | start =>
    refine ⟨rootOnly root, fun _ => none, ?_, fun a _ => rfl⟩
    exact pageTable_empty fun x hl hr => hz x ⟨hl, hr⟩
  | call _ hc hf hm ih =>
    obtain ⟨loc, M, ht, hrec⟩ := ih
    obtain ⟨σ', loc', hm', ht'⟩ := mapPage_fresh ht hc hf
    obtain rfl := Option.some.inj (hm'.symm.trans hm)
    exact ⟨loc', _, ht', hrec.cons hc⟩

/-- What `vaddr_to_paddr` and the leaf entries say after the calls. -/
structure MapsLast (m : Mem) (root : ℕ) (calls : List MapCall) : Prop where
  translation : ∀ a, a < 2 ^ 39 →
    vaddrToPaddr m root a = (lastCall calls a).elim 0 fun c => c.paddr + a % pageSize
  flags : ∀ a, a < 2 ^ 39 →
    (leafEntry m root a).map (· % 2 ^ 10) = (lastCall calls a).map fun c => c.flags ||| pageV
  page : ∀ a, a < 2 ^ 39 →
    (leafEntry m root a).map (· / 2 ^ 10) = (lastCall calls a).map fun c => c.paddr / pageSize

theorem mapsLast_of_pageTable (ht : PageTable σ.mem root loc M) (hrec : Records M calls) :
    MapsLast σ.mem root calls := by
  have hfield : ∀ a c, a < 2 ^ 39 → lastCall calls a = some c →
      leafPte c.paddr c.flags = c.paddr / pageSize * 1024 + (c.flags ||| pageV) ∧
        c.flags ||| pageV < 2 ^ 10 := by
    intro a c ha hc
    have he := hrec a ha
    rw [hc, Option.map_some] at he
    obtain ⟨hp, hf⟩ := ht.frames he
    exact ⟨leafPte_eq hp.2 hf, flags_lt hf⟩
  refine ⟨fun a ha => ?_, fun a ha => ?_, fun a ha => ?_⟩
  · rw [ht.vaddrToPaddr_eq, hrec a ha]
    cases lastCall calls a <;> rfl
  · rw [ht.leafEntry_eq, hrec a ha]
    cases hc : lastCall calls a with
    | none => rfl
    | some c =>
      obtain ⟨he, hlt⟩ := hfield a c ha hc
      simp only [Option.map_some, he, Option.some.injEq]
      omega
  · rw [ht.leafEntry_eq, hrec a ha]
    cases hc : lastCall calls a with
    | none => rfl
    | some c =>
      obtain ⟨he, hlt⟩ := hfield a c ha hc
      simp only [Option.map_some, he, Option.some.injEq]
      omega

end

/-- After every run the last call of each page decides its translation and its flags. A
further call does not panic, and no other page's translation changes with it. -/
theorem page_table_is_finite_map (kalloc : Pages → ℕ × Pages) (root : ℕ) (σ₀ : Pages)
    (hz : ∀ x, InPage root x → σ₀.mem x = 0) (calls : List MapCall) (σ : Pages)
    (hr : MapRun kalloc root σ₀ calls σ) :
    MapsLast σ.mem root calls ∧
      ∀ c : MapCall, c.Valid → FreshCalls kalloc root σ c.vaddr →
        ∃ σ', mapPage kalloc σ root c.vaddr c.paddr c.flags = some σ' ∧
          MapsLast σ'.mem root (c :: calls) ∧
          ∀ a, a < 2 ^ 39 → a / pageSize ≠ c.vaddr / pageSize →
            vaddrToPaddr σ'.mem root a = vaddrToPaddr σ.mem root a := by
  obtain ⟨loc, M, ht, hrec⟩ := run_pageTable hz hr
  have hlast := mapsLast_of_pageTable ht hrec
  refine ⟨hlast, fun c hc hf => ?_⟩
  obtain ⟨σ', loc', hm, ht'⟩ := mapPage_fresh ht hc hf
  have hlast' := mapsLast_of_pageTable ht' (hrec.cons hc)
  refine ⟨σ', hm, hlast', fun a ha hne => ?_⟩
  rw [hlast'.translation a ha, hlast.translation a ha, lastCall_cons, if_neg (Ne.symm hne)]

section
variable {h : Heap} {base : List Block} {kalloc : Pages → ℕ × Pages} {σ : Pages} {root : ℕ}
  {loc : List ℕ → Option ℕ} {M : List ℕ → Option (ℕ × ℕ)} {S : Finset (List ℕ)} {c : ℕ}

theorem fresh_of_space (hs : Space h base σ root loc M S c) (hk : PageAllocator h base kalloc)
    (hend : h.heapEnd ≤ 2 ^ 46) (hroom : S.card + c < freePages h base []) :
    Fresh kalloc root σ := by
  have hn := hs.served hk hroom
  have hg := hk.grants σ hs.owned hn
  have hheld : ∀ k t, InUse σ.mem root k t → ∀ x, InPage t x → Held h base σ.granted x := by
    intro k t hu x hx
    obtain ⟨p, hp, -⟩ := loc_of_inUse hs.table hu
    exact held_of_granted (hs.tables_granted hp) hx
  refine ⟨(hs.freshTable hk hend hn).encodable, hg.zeroed, ?_, ?_⟩
  · intro k t hu x hx hc
    exact hg.unheld x hc (hheld k t hu x hx)
  · intro k t hu x hx
    exact hg.kept x (hheld k t hu x hx)

theorem freshCalls_of_space (hs : Space h base σ root loc M S c)
    (hk : PageAllocator h base kalloc) (hend : h.heapEnd ≤ 2 ^ 46)
    (hroom : S.card + c + 2 ≤ freePages h base []) (v : ℕ) : FreshCalls kalloc root σ v := by
  refine ⟨fun _ => fresh_of_space hs hk hend (by omega), ?_⟩
  dsimp only
  intro _
  have hcard := Finset.card_insert_le [vpn2 v] S
  have hserved := hs.tableFor_served hk hs.table.root_loc (vpn_lt v).1 (by simp)
    (show (insert [vpn2 v] S).card + c ≤ _ by omega)
  obtain ⟨loc₁, hs₁, -, -⟩ :=
    hs.tableFor hk hend hs.table.root_loc (vpn_lt v).1 (by simp) hserved
  exact fresh_of_space hs₁ hk hend (by omega)

theorem rootCall_fresh (hk : PageAllocator h base kalloc) (ho : Owned h base σ)
    (hend : h.heapEnd ≤ 2 ^ 46) (hroom : σ.granted.length + 3 ≤ freePages h base []) (v : ℕ) :
    (∀ x, InPage (kalloc σ).1 x → (kalloc σ).2.mem x = 0) ∧
      FreshCalls kalloc (kalloc σ).1 (kalloc σ).2 v := by
  have hn : (kalloc σ).1 ≠ 0 := fun h0 => by
    have hfree := (hk.serves σ ho).mp h0
    have hadd := ho.freePages_add
    omega
  have hs := space_of_root hk ho hn
  refine ⟨(hk.grants σ ho hn).zeroed, freshCalls_of_space hs hk hend ?_ v⟩
  rw [Finset.card_singleton]
  omega

end

def fourPages : Heap := AllocatorPartition.smallHeap

def bootPages : Pages := ⟨(boot fourPages fun _ => 0).machine, []⟩

def onePage : MapCall := ⟨0x1000, 0x2000, pageR⟩

theorem finite_map_after_one_call :
    ∃ σ, mapPage kallocPage (kallocPage bootPages).2 (kallocPage bootPages).1 onePage.vaddr
        onePage.paddr onePage.flags = some σ ∧
      MapsLast σ.mem (kallocPage bootPages).1 [onePage] := by
  have hvalid : onePage.Valid :=
    ⟨⟨by decide, ⟨by decide, by decide⟩, by decide, by decide⟩, by decide⟩
  have ho : Owned fourPages [] bootPages := ⟨_, boot_invariant fourPages fun _ => 0⟩
  obtain ⟨hz, hfresh⟩ := rootCall_fresh (kallocPage_allocator fourPages []) ho (by decide)
    (show 0 + 3 ≤ freePages fourPages [] [] by decide) onePage.vaddr
  exact ⟨_, mapPage_eq hvalid.args, (page_table_is_finite_map kallocPage _ _ hz [onePage] _
    (.call .start hvalid hfresh (mapPage_eq hvalid.args))).1⟩

end PageTableMap
