import OppoOS.ProcessSpace

/-!
# Running out of memory

Neither `map_page` nor `create_process` tests what `kalloc(1)` returns. Once a call has
failed all later ones fail as well, so a result is sound only if no call fails, and this is
decided by the number of free pages before the call.
-/
namespace OutOfMemory

open ByteMemory BuddyTiling BuddySystem BuddyAllocator AllocatorRefinement AllocatorRuns
open TableTree Paging PageTables PageGrants AddressSpace Processes ProcessSpace Function

def Exhausted (σ : Machine) : Prop := ∀ k, k ≤ maxOrder → σ.freeLists k = 0

def returned (σ : Pages) : List ℕ := σ.granted.filter (· ≠ 0)

structure Failed (σ : Pages) (r : ℕ × Pages) : Prop where
  null : r.1 = 0
  exhausted : Exhausted r.2.toMachine
  cleared : ∀ x, x < pageSize → r.2.mem x = 0
  kept : ∀ x, pageSize ≤ x → r.2.mem x = σ.mem x

/-- A page allocator that fails from the first time its lists are empty. -/
structure FailingAllocator (h : Heap) (base : List Block) (kalloc : Pages → ℕ × Pages) :
    Prop extends PageAllocator h base kalloc where
  exhausted : ∀ σ, Owned h base σ → (kalloc σ).1 = 0 → Exhausted σ.toMachine
  fails : ∀ σ, Exhausted σ.toMachine → Failed σ (kalloc σ)

theorem findOrder_exhausted {σ : Machine} (h : Exhausted σ) (n curr : ℕ)
    (hc : curr + n = maxOrder + 1) : findOrder σ n curr = maxOrder + 1 := by
  induction n generalizing curr with
  | zero => exact hc
  | succ n ih =>
    rw [findOrder, if_pos (h curr (by omega))]
    exact ih (curr + 1) (by omega)

theorem kallocOrder_exhausted {σ : Machine} (h : Exhausted σ) (order : ℕ) :
    kallocOrder σ order = (0, σ) := by
  unfold kallocOrder
  split
  · rfl
  · next ho =>
    rw [findOrder_exhausted h _ _ (by omega)]
    exact if_pos (Nat.lt_succ_self _)

theorem kallocPage_failed {σ : Pages} (h : Exhausted σ.toMachine) :
    Failed σ (kallocPage σ) := by
  have hr : (kalloc σ.toMachine 1) =
      (0, { σ.toMachine with mem := memset σ.mem 0 0 (pageSize * 1 % 2 ^ 64) }) := by
    rw [kalloc, kallocOrder_exhausted h]
  have hlen : pageSize * 1 % 2 ^ 64 = pageSize := by decide
  rw [hlen] at hr
  constructor
  · rw [kallocPage_page, hr]
  · intro k hk
    rw [kallocPage_machine, hr]
    exact h k hk
  · intro x hx
    rw [kallocPage_machine, hr]
    dsimp only
    rw [memset_apply, if_pos ⟨Nat.zero_le x, by omega⟩]
  · intro x hx
    rw [kallocPage_machine, hr]
    dsimp only
    rw [memset_apply, if_neg (by omega)]

theorem kallocPage_failing (h : Heap) (base : List Block) :
    FailingAllocator h base kallocPage where
  toPageAllocator := kallocPage_allocator h base
  exhausted σ ho h0 := by
    have hz := (kallocPage_serves ho).mp h0
    obtain ⟨L, hi⟩ := ho
    have he := (levels_empty_iff hi).mpr hz
    exact fun k hk => (hi.represents.empty_iff hk).mpr (he k hk)
  fails _ he := kallocPage_failed he

def Spent (n : ℕ) (σ : Pages) : Prop := Exhausted σ.toMachine ∧ (returned σ).length = n

section
variable {h : Heap} {base : List Block} {kalloc : Pages → ℕ × Pages} {σ σ₁ : Pages} {root n : ℕ}

theorem kalloc_spent (hk : FailingAllocator h base kalloc) (hs : Spent n σ) :
    Spent n (kalloc σ).2 := by
  have hf := hk.fails σ hs.1
  refine ⟨hf.exhausted, ?_⟩
  rw [returned, hk.recorded, hf.null]
  exact hs.2

theorem tableFor_spent (hk : FailingAllocator h base kalloc) (hs : Spent n σ) (entry : ℕ) :
    Spent n (tableFor kalloc σ entry).2 := by
  unfold tableFor
  dsimp only
  split
  · exact kalloc_spent hk hs
  · exact hs

theorem mapPage_spent (hk : FailingAllocator h base kalloc) (hs : Spent n σ)
    {v paddr flags : ℕ} (hm : mapPage kalloc σ root v paddr flags = some σ₁) : Spent n σ₁ := by
  unfold mapPage at hm
  split at hm
  · cases hm
  · split at hm
    · cases hm
    · split at hm
      · cases hm
      · rw [← Option.some.inj hm]
        exact tableFor_spent hk (tableFor_spent hk hs _) _

theorem mapAll_spent (hk : FailingAllocator h base kalloc) (hs : Spent n σ) {flags : ℕ}
    (as : List ℕ) (hm : mapAll kalloc root flags as σ = some σ₁) : Spent n σ₁ := by
  induction as generalizing σ with
  | nil => rwa [← Option.some.inj hm]
  | cons a as ih =>
    obtain ⟨σ', h₁, h₂⟩ := Option.bind_eq_some_iff.mp hm
    exact ih (mapPage_spent hk hs h₁) h₂

theorem loadPage_spent (hk : FailingAllocator h base kalloc) (hs : Spent n σ)
    (image imageSize off : ℕ) : Spent n (loadPage kalloc image imageSize off σ) :=
  kalloc_spent hk hs

theorem loadImage_spent (hk : FailingAllocator h base kalloc) (hs : Spent n σ)
    {image imageSize : ℕ} (offs : List ℕ)
    (hm : loadImage kalloc root image imageSize offs σ = some σ₁) : Spent n σ₁ := by
  induction offs generalizing σ with
  | nil => rwa [← Option.some.inj hm]
  | cons off offs ih =>
    rw [loadImage_cons] at hm
    obtain ⟨σ', h₁, h₂⟩ := Option.bind_eq_some_iff.mp hm
    exact ih (mapPage_spent hk (loadPage_spent hk hs image imageSize off) h₁) h₂

variable {loc : List ℕ → Option ℕ} {M : List ℕ → Option (ℕ × ℕ)} {S : Finset (List ℕ)} {c : ℕ}

theorem returned_eq (ho : 0 ∉ σ.granted) : returned σ = σ.granted := by
  apply List.filter_eq_self.mpr
  intro a ha
  simp only [ne_eq, decide_not, Bool.not_eq_eq_eq_not, Bool.not_true, decide_eq_false_iff_not]
  rintro rfl
  exact ho ha

theorem kalloc_first (hk : FailingAllocator h base kalloc) (ho : Owned h base σ)
    (h0 : (kalloc σ).1 = 0) : Spent (freePages h base []) (kalloc σ).2 := by
  apply kalloc_spent hk
  refine ⟨hk.exhausted σ ho h0, ?_⟩
  have hfree := (hk.serves σ ho).mp h0
  have hadd := ho.freePages_add
  rw [returned_eq ho.zero_notMem]
  omega

theorem tableFor_first (hk : FailingAllocator h base kalloc) (ho : Owned h base σ) (entry : ℕ)
    (hfail : 0 ∈ (tableFor kalloc σ entry).2.granted) :
    Spent (freePages h base []) (tableFor kalloc σ entry).2 := by
  have hz := ho.zero_notMem
  unfold tableFor at hfail ⊢
  dsimp only at hfail ⊢
  split at hfail
  · next hv =>
    rw [if_pos hv]
    rw [hk.recorded, List.mem_cons] at hfail
    exact kalloc_first hk ho (hfail.resolve_right hz).symm
  · exact absurd hfail hz

theorem mapPage_first (hk : FailingAllocator h base kalloc) (hend : h.heapEnd ≤ 2 ^ 46)
    (hs : Space h base σ root loc M S c) {v paddr flags : ℕ} (ha : MapArgs v paddr flags)
    (hm : mapPage kalloc σ root v paddr flags = some σ₁) (hfail : 0 ∈ σ₁.granted) :
    Spent (freePages h base []) σ₁ := by
  rw [mapPage_eq ha, Option.some.injEq] at hm
  rw [← hm] at hfail ⊢
  by_cases hok : 0 ∈ (tableFor kalloc σ (entryAddr root (vpn2 v))).2.granted
  · exact tableFor_spent hk (tableFor_first hk hs.owned _ hok) _
  · obtain ⟨loc₁, hs₁, -⟩ := hs.tableFor hk.toPageAllocator hend hs.table.root_loc
      (vpn_lt v).1 (by simp) hok
    exact tableFor_first hk hs₁.owned _ hfail

theorem mapAll_first (hk : FailingAllocator h base kalloc) (hend : h.heapEnd ≤ 2 ^ 46)
    {flags : ℕ} (hf : flags < 2 ^ 10) (hp : flags &&& 0xe ≠ 0) (as : List ℕ)
    (has : ∀ a ∈ as, Encodable a) (hs : Space h base σ root loc M S c)
    (hm : mapAll kalloc root flags as σ = some σ₁) (hfail : 0 ∈ σ₁.granted) :
    Spent (freePages h base []) σ₁ := by
  induction as generalizing σ loc M S with
  | nil =>
    rw [← Option.some.inj hm] at hfail
    exact absurd hfail hs.owned.zero_notMem
  | cons a as ih =>
    obtain ⟨σ', h₁, h₂⟩ := Option.bind_eq_some_iff.mp hm
    have ha := has a List.mem_cons_self
    have hargs : MapArgs a a flags := ⟨ha.1, ha, hf, hp⟩
    by_cases hok : 0 ∈ σ'.granted
    · exact mapAll_spent hk (mapPage_first hk hend hs hargs h₁ hok) as h₂
    · obtain ⟨loc', hs', -⟩ := hs.mapPage hk.toPageAllocator hend hargs h₁ hok
      exact ih (fun b hb => has b (List.mem_cons_of_mem _ hb)) hs' h₂

theorem loadImage_first (hk : FailingAllocator h base kalloc) (hend : h.heapEnd ≤ 2 ^ 46)
    {image imageSize : ℕ} (offs : List ℕ) (hoffs : ∀ off ∈ offs, pageSize ∣ off)
    (hs : Space h base σ root loc M S c)
    (hm : loadImage kalloc root image imageSize offs σ = some σ₁) (hfail : 0 ∈ σ₁.granted) :
    Spent (freePages h base []) σ₁ := by
  induction offs generalizing σ loc M S c with
  | nil =>
    rw [← Option.some.inj hm] at hfail
    exact absurd hfail hs.owned.zero_notMem
  | cons off offs ih =>
    rw [loadImage_cons] at hm
    obtain ⟨σ', h₁, h₂⟩ := Option.bind_eq_some_iff.mp hm
    by_cases hn : (kalloc σ).1 = 0
    · have hspent : Spent (freePages h base []) (loadPage kalloc image imageSize off σ) :=
        kalloc_first hk hs.owned hn
      exact loadImage_spent hk (mapPage_spent hk hspent h₁) offs h₂
    · obtain ⟨hs₀, -⟩ := loadPage_space hk.toPageAllocator hs hn image imageSize off
      have hargs : MapArgs (userBase + off) (kalloc σ).1 userFlags := by
        refine ⟨?_, (hs.freshTable hk.toPageAllocator hend hn).encodable, by decide, by decide⟩
        exact Nat.dvd_add (by decide) (hoffs off List.mem_cons_self)
      by_cases hok : 0 ∈ σ'.granted
      · exact loadImage_spent hk (mapPage_first hk hend hs₀ hargs h₁ hok) offs h₂
      · obtain ⟨loc', hs', -⟩ := hs₀.mapPage hk.toPageAllocator hend hargs h₁ hok
        exact ih (fun o ho => hoffs o (List.mem_cons_of_mem _ ho)) hs' h₂

theorem mapPage_served_iff (hk : PageAllocator h base kalloc) (hend : h.heapEnd ≤ 2 ^ 46)
    (hs : Space h base σ root loc M S c) {v paddr flags : ℕ} (ha : MapArgs v paddr flags)
    (hm : mapPage kalloc σ root v paddr flags = some σ₁) :
    0 ∉ σ₁.granted ↔ (tablePaths v \ S).card ≤ freePages h base σ.granted := by
  have hadd := hs.owned.freePages_add
  have hcount := hs.count
  have hcard := Finset.card_sdiff_add_card (tablePaths v) S
  rw [Finset.union_comm] at hcard
  constructor
  · intro hok
    obtain ⟨loc₁, hs₁, -⟩ := hs.mapPage hk hend ha hm hok
    have hadd₁ := hs₁.owned.freePages_add
    have hcount₁ := hs₁.count
    omega
  · intro hroom
    exact hs.mapPage_served hk hend ha hm (by omega)

/-- A table that could not be allocated: the entry is made valid and points to page 0. -/
structure Dangling (σ : Pages) (entry : ℕ) (r : ℕ × Pages) : Prop where
  null : r.1 = 0
  exhausted : Exhausted r.2.toMachine
  dangling : load64 r.2.mem entry = branchPte 0
  kept : ∀ x, pageSize ≤ x → x < entry ∨ entry + 8 ≤ x → r.2.mem x = σ.mem x
  cleared : pageSize ≤ entry → ∀ x, x < pageSize → r.2.mem x = 0

theorem tableFor_failed (hk : FailingAllocator h base kalloc) (he : Exhausted σ.toMachine)
    {entry : ℕ} (hv : load64 σ.mem entry &&& pageV = 0) :
    Dangling σ entry (tableFor kalloc σ entry) := by
  have hf := hk.fails σ he
  have hpte : branchPte 0 % 2 ^ 64 = branchPte 0 := by decide
  have hnext : nextTable (branchPte 0) = 0 := by decide
  unfold tableFor
  dsimp only
  rw [if_pos hv, hf.null, load64_store64_same, hpte, hnext]
  constructor
  · rfl
  · exact hf.exhausted
  · dsimp only
    rw [load64_store64_same, hpte]
  · intro x hx hout
    dsimp only
    rw [store64_outside _ _ _ _ hout, hf.kept x hx]
  · intro hentry x hx
    dsimp only
    rw [store64_outside _ _ _ _ (by omega), hf.cleared x hx]

theorem tableFor_dangling (hk : FailingAllocator h base kalloc) (ho : Owned h base σ)
    {entry : ℕ} (hfail : 0 ∈ (tableFor kalloc σ entry).2.granted) :
    Dangling σ entry (tableFor kalloc σ entry) := by
  have hz := ho.zero_notMem
  by_cases hv : load64 σ.mem entry &&& pageV = 0
  · have hgranted : (tableFor kalloc σ entry).2.granted = (kalloc σ).1 :: σ.granted := by
      rw [tableFor, if_pos hv]
      exact hk.recorded σ
    rw [hgranted, List.mem_cons] at hfail
    exact tableFor_failed hk (hk.exhausted σ ho (hfail.resolve_right hz).symm) hv
  · rw [tableFor, if_neg hv] at hfail
    exact absurd hfail hz

theorem Dangling.again (hk : FailingAllocator h base kalloc) {entry i : ℕ} {r : ℕ × Pages}
    (hd : Dangling σ entry r) (hentry : pageSize ≤ entry) (hi : i < 512) :
    Dangling r.2 (entryAddr r.1 i) (tableFor kalloc r.2 (entryAddr r.1 i)) ∧
      load64 (tableFor kalloc r.2 (entryAddr r.1 i)).2.mem entry = branchPte 0 := by
  have hlow : entryAddr r.1 i + 8 ≤ pageSize := by
    rw [hd.null]
    unfold entryAddr
    simp only [pageSize]
    omega
  have hzero : load64 r.2.mem (entryAddr r.1 i) = 0 := by
    apply load64_zero
    intro x _ hx
    exact hd.cleared hentry x (by omega)
  have hv : load64 r.2.mem (entryAddr r.1 i) &&& pageV = 0 := by rw [hzero, Nat.zero_and]
  have hagain := tableFor_failed hk hd.exhausted hv
  refine ⟨hagain, ?_⟩
  rw [← hd.dangling]
  apply load64_congr
  intro x hl _
  exact hagain.kept x (hentry.trans hl) (Or.inr (by omega))

/-- The tables are returned pages, and every valid entry is a branch to a table of its own
or one of the leaves asked for. -/
structure Sound (σ : Pages) (root : ℕ) (asked : List ℕ → Option (ℕ × ℕ))
    (loc : List ℕ → Option ℕ) (M : List ℕ → Option (ℕ × ℕ)) : Prop where
  table : PageTable σ.mem root loc M
  tables_returned : ∀ p t, loc p = some t → t ∈ returned σ
  leaves_asked : ∀ p e, M p = some e → asked p = some e

theorem zero_notMem_returned (σ : Pages) : 0 ∉ returned σ := by
  simp [returned]

/-- A branch to page 0 is not sound. -/
theorem Sound.no_dangling {asked : List ℕ → Option (ℕ × ℕ)} (hs : Sound σ root asked loc M)
    {p : List ℕ} {t i : ℕ} (hp : loc p = some t) (hi : i < 512) (hlen : p.length < 2) :
    load64 σ.mem (entryAddr t i) ≠ branchPte 0 := by
  intro hentry
  have hv : ¬ load64 σ.mem (entryAddr t i) &&& pageV = 0 := by
    rw [hentry]
    decide
  rw [hs.table.branch_invalid_iff hp hi hlen] at hv
  obtain ⟨u, hu⟩ := Option.ne_none_iff_exists'.mp hv
  have hnext := hs.table.nextTable_eq hp hi hlen hu
  rw [hentry] at hnext
  obtain rfl : 0 = u := hnext
  exact zero_notMem_returned σ (hs.tables_returned _ _ hu)

theorem heapStart_ge (h : Heap) : pageSize ≤ h.heapStart := Nat.le_of_dvd h.start_pos h.start_aligned

/-- A `map_page` with a failed allocation leaves a branch to page 0 in a table. -/
theorem mapPage_unsound (hk : FailingAllocator h base kalloc) (hend : h.heapEnd ≤ 2 ^ 46)
    (hs : Space h base σ root loc M S c) {v paddr flags : ℕ} (ha : MapArgs v paddr flags)
    (hm : mapPage kalloc σ root v paddr flags = some σ₁) (hfail : 0 ∈ σ₁.granted)
    {asked : List ℕ → Option (ℕ × ℕ)} {loc₁ : List ℕ → Option ℕ}
    {M₁ : List ℕ → Option (ℕ × ℕ)} : ¬ Sound σ₁ root asked loc₁ M₁ := by
  intro hsound
  obtain ⟨h2, h1, h0⟩ := vpn_lt v
  have hstart := heapStart_ge h
  have hroot := (hs.owned.granted_inside (hs.tables_granted hs.table.root_loc)).2.1
  rw [mapPage_eq ha, Option.some.injEq] at hm
  dsimp only at hm
  set r₁ := tableFor kalloc σ (entryAddr root (vpn2 v)) with hr₁
  set r₀ := tableFor kalloc r₁.2 (entryAddr r₁.1 (vpn1 v)) with hr₀
  have hentry : ∀ t i, h.heapStart ≤ t → pageSize ≤ entryAddr t i := by
    intro t i ht
    unfold entryAddr
    omega
  -- the table of the leaf is page 0, so the leaf is written there
  have hlast : r₀.1 = 0 → ∀ a, pageSize ≤ a → load64 σ₁.mem a = load64 r₀.2.mem a := by
    intro h0' a hle
    rw [← hm]
    dsimp only
    rw [h0']
    apply load64_store64_disjoint
    unfold entryAddr
    simp only [pageSize] at hle
    omega
  by_cases hfail₁ : 0 ∈ r₁.2.granted
  · have hd₁ := tableFor_dangling hk hs.owned hfail₁
    obtain ⟨hd₀, hroot₀⟩ := hd₁.again hk (hentry _ _ hroot) h1
    refine hsound.no_dangling hsound.table.root_loc h2 (by simp) ?_
    rw [hlast hd₀.null _ (hentry _ _ hroot)]
    exact hroot₀
  · obtain ⟨loc', hs', ht', -⟩ :=
      hs.tableFor hk.toPageAllocator hend hs.table.root_loc h2 (by simp) hfail₁
    rw [← hr₁] at hs' ht'
    have hfail₀ : 0 ∈ r₀.2.granted := by rwa [← hm] at hfail
    have hd₀ := tableFor_dangling hk hs'.owned hfail₀
    have ht := (hs'.owned.granted_inside (hs'.tables_granted ht')).2.1
    have hbranch : load64 σ₁.mem (entryAddr root (vpn2 v)) = branchPte r₁.1 := by
      rw [hlast hd₀.null _ (hentry _ _ hroot)]
      have hapart := hs'.table.apart hs'.table.root_loc ht' (by simp)
      have hb := hs'.table.branch_entry hs'.table.root_loc h2 (by simp)
      rw [ht', Option.elim_some] at hb
      rw [← hb]
      apply load64_congr
      intro x hl hr
      apply hd₀.kept x ((hentry _ _ hroot).trans hl)
      simp only [entryAddr, sv39] at hapart hl hr ⊢
      omega
    have hv : ¬ load64 σ₁.mem (entryAddr root (vpn2 v)) &&& pageV = 0 := by
      rw [hbranch, branchPte_valid (hs'.table.tables ht')]
      decide
    rw [hsound.table.branch_invalid_iff hsound.table.root_loc h2 (by simp)] at hv
    obtain ⟨u, hu⟩ := Option.ne_none_iff_exists'.mp hv
    have hnext := hsound.table.nextTable_eq hsound.table.root_loc h2 (by simp) hu
    have henc := hs'.table.tables ht'
    rw [hbranch, nextTable_branchPte henc.1 henc.2] at hnext
    rw [← hnext] at hu
    refine hsound.no_dangling hu h1 (by simp) ?_
    rw [hlast hd₀.null _ (hentry _ _ ht)]
    exact hd₀.dangling

theorem mapPage_sound_iff (hk : FailingAllocator h base kalloc) (hend : h.heapEnd ≤ 2 ^ 46)
    (hs : Space h base σ root loc M S c) {v paddr flags : ℕ} (ha : MapArgs v paddr flags)
    (hm : mapPage kalloc σ root v paddr flags = some σ₁) :
    (∃ loc₁ M₁, Sound σ₁ root (update M (key v) (some (paddr, flags))) loc₁ M₁) ↔
      (tablePaths v \ S).card ≤ freePages h base σ.granted := by
  rw [← mapPage_served_iff hk.toPageAllocator hend hs ha hm]
  constructor
  · rintro ⟨loc₁, M₁, hsound⟩ hfail
    exact mapPage_unsound hk hend hs ha hm hfail hsound
  · intro hok
    obtain ⟨loc₁, hs₁, -⟩ := hs.mapPage hk.toPageAllocator hend ha hm hok
    refine ⟨loc₁, _, hs₁.table, ?_, fun _ _ he => he⟩
    intro p t hp
    rw [returned_eq hok]
    exact hs₁.tables_granted hp

end

section
variable {l : Layout} {base : List Block} {kalloc : Pages → ℕ × Pages} {t t' : ProcTable}
  {i : Fin procsMax} {image n : ℕ} {σ σ₁ : Pages} {root : ℕ} {loc : List ℕ → Option ℕ}
  {frames : List ℕ}

theorem buildSpace_spent (hk : FailingAllocator (heapOf l) base kalloc) {k : ℕ}
    (hs : Spent k σ) (hb : buildSpace kalloc l root image n σ = some σ₁) : Spent k σ₁ := by
  obtain ⟨σ', σ'', h₁, h₂, h₃⟩ := (buildSpace_eq_some kalloc).mp hb
  exact loadImage_spent hk (mapAll_spent hk (mapAll_spent hk hs _ h₁) _ h₂) _ h₃

theorem buildSpace_first (hk : FailingAllocator (heapOf l) base kalloc)
    {M : List ℕ → Option (ℕ × ℕ)} {S : Finset (List ℕ)} {c : ℕ}
    (hs : Space (heapOf l) base σ root loc M S c)
    (hb : buildSpace kalloc l root image n σ = some σ₁) (hfail : 0 ∈ σ₁.granted) :
    Spent (freePages (heapOf l) base []) σ₁ := by
  obtain ⟨σ', σ'', h₁, h₂, h₃⟩ := (buildSpace_eq_some kalloc).mp hb
  have hend := heapEnd_le l
  by_cases hok₁ : 0 ∈ σ'.granted
  · have hsp := mapAll_first hk hend (by decide) (by decide) _ (kernelPages_encodable l) hs h₁ hok₁
    exact loadImage_spent hk (mapAll_spent hk hsp _ h₂) _ h₃
  · obtain ⟨loc', hs', -⟩ := mapAll_space hk.toPageAllocator hend (by decide) (by decide) _
      (kernelPages_encodable l) hs h₁ hok₁
    by_cases hok₂ : 0 ∈ σ''.granted
    · have hsp := mapAll_first hk hend (by decide) (by decide) _ devicePages_encodable hs' h₂ hok₂
      exact loadImage_spent hk hsp _ h₃
    · obtain ⟨loc'', hs'', -⟩ := mapAll_space hk.toPageAllocator hend (by decide) (by decide) _
        devicePages_encodable hs' h₂ hok₂
      exact loadImage_first hk hend _ (offsets_aligned n) hs'' h₃ hfail

theorem createProcess_first (hk : FailingAllocator (heapOf l) base kalloc)
    (ho : Owned (heapOf l) base t.pages) (hc : createProcess kalloc l t image n = some (i, t'))
    (hfail : 0 ∈ t'.pages.granted) : Spent (freePages (heapOf l) base []) t'.pages := by
  obtain ⟨-, hb, -⟩ := createProcess_cases hc
  have ho₀ := framed_owned ho i
  generalize framed l t i = σ₀ at hb ho₀
  by_cases hn : (kalloc σ₀).1 = 0
  · exact buildSpace_spent hk (kalloc_first hk ho₀ hn) hb
  · exact buildSpace_first hk (space_of_root hk.toPageAllocator ho₀ hn) hb hfail

/-- The address space as when every allocation succeeds: all pages of the kernel, of the
devices and of the image are mapped, and each table and each page of the image has a page of
its own that `kalloc` returned. -/
structure Built (l : Layout) (n : ℕ) (σ : Pages) (root : ℕ) (loc : List ℕ → Option ℕ)
    (frames : List ℕ) : Prop where
  sound : Sound σ root (spaceLeaves l n frames) loc (spaceLeaves l n frames)
  frames_length : frames.length = (pageAddrs 0 n).length
  frames_returned : ∀ f ∈ frames, f ∈ returned σ
  frames_nodup : frames.Nodup
  frames_apart : ∀ f ∈ frames, ∀ p, loc p ≠ some f

theorem Built.spacePaths_loc (hb : Built l n σ root loc frames)
    (hn : userBase + n ≤ virtioPaddr) : ∀ p ∈ spacePaths l n, loc p ≠ none := by
  have htable := hb.sound.table
  have hpath : ∀ v e, spaceLeaves l n frames (key v) = some e →
      ∀ p ∈ tablePaths v, loc p ≠ none := by
    intro v e he p hp
    obtain ⟨-, -, w, hw⟩ := htable.mapped he
    simp only [tablePaths, Finset.mem_insert, Finset.mem_singleton] at hp
    rcases hp with rfl | rfl
    · obtain ⟨-, u, hu⟩ := htable.parent hw
      rw [hu]
      exact Option.some_ne_none u
    · rw [hw]
      exact Option.some_ne_none w
  have hroot : ∀ p ∈ ({[]} : Finset (List ℕ)), loc p ≠ none := by
    intro p hp
    rw [Finset.mem_singleton.mp hp, htable.root_loc]
    exact Option.some_ne_none root
  have hkernel := allPaths_forall hroot fun v hv => hpath v _ (spaceLeaves_kernel hn hv)
  have hdevice := allPaths_forall hkernel fun v hv => hpath v _ (spaceLeaves_device hn hv)
  refine allPaths_forall hdevice fun v hv => ?_
  obtain ⟨off, hoff, rfl⟩ := List.mem_map.mp hv
  rw [← List.map_fst_zip hb.frames_length.ge] at hoff
  obtain ⟨r, hr, rfl⟩ := List.mem_map.mp hoff
  exact hpath _ _ (spaceLeaves_image hn hb.frames_length hr)

theorem Built.pages (hb : Built l n σ root loc frames) (hn : userBase + n ≤ virtioPaddr) :
    pagesNeeded l n ≤ (returned σ).length := by
  have hloc := hb.spacePaths_loc hn
  have hsome : ∀ p ∈ spacePaths l n, loc p = some ((loc p).getD 0) := by
    intro p hp
    obtain ⟨a, ha⟩ := Option.ne_none_iff_exists'.mp (hloc p hp)
    rw [ha, Option.getD_some]
  have hcard : ((spacePaths l n).image fun p => (loc p).getD 0).card = (spacePaths l n).card := by
    apply Finset.card_image_of_injOn
    intro p hp q hq he
    by_contra hne
    have hapart := hb.sound.table.apart (hsome p hp) (hsome q hq) hne
    simp only [sv39] at hapart he
    omega
  have hdisj : Disjoint ((spacePaths l n).image fun p => (loc p).getD 0) frames.toFinset := by
    apply Finset.disjoint_left.mpr
    intro a ha hf
    obtain ⟨p, hp, rfl⟩ := Finset.mem_image.mp ha
    exact hb.frames_apart _ (List.mem_toFinset.mp hf) p (hsome p hp)
  have hsub : ((spacePaths l n).image fun p => (loc p).getD 0) ∪ frames.toFinset ⊆
      (returned σ).toFinset := by
    intro a ha
    rw [List.mem_toFinset]
    rcases Finset.mem_union.mp ha with ha | ha
    · obtain ⟨p, hp, rfl⟩ := Finset.mem_image.mp ha
      exact hb.sound.tables_returned p _ (hsome p hp)
    · exact hb.frames_returned a (List.mem_toFinset.mp ha)
  have hle := (Finset.card_le_card hsub).trans (List.toFinset_card_le _)
  rw [Finset.card_union_of_disjoint hdisj, hcard, List.toFinset_card_of_nodup hb.frames_nodup,
    hb.frames_length] at hle
  exact hle

theorem createProcess_built_iff (hk : FailingAllocator (heapOf l) base kalloc)
    (ho : Owned (heapOf l) base t.pages) (hg : t.pages.granted = [])
    (hc : createProcess kalloc l t image n = some (i, t')) :
    (∃ loc frames, Built l n t'.pages (t'.procs i).pageTable loc frames) ↔
      pagesNeeded l n ≤ freePages (heapOf l) base [] := by
  rw [← hg, ← createProcess_served_iff hk.toPageAllocator ho hc]
  constructor
  · rintro ⟨loc, frames, hb⟩ hfail
    obtain ⟨-, hcount⟩ := createProcess_first hk ho hc hfail
    have htotal : freePages (heapOf l) base [] ≤ 32768 := by
      rw [← heapOf_totalPages l, freePages]
      refine (Finset.card_filter_le _ _).trans ?_
      rw [Finset.card_range]
    have hframes : frames.length ≤ (returned t'.pages).length :=
      (hb.frames_nodup.subperm hb.frames_returned).length_le
    rw [hb.frames_length, pageAddrs_length] at hframes
    have hn : userBase + n ≤ virtioPaddr := by
      simp only [userBase, virtioPaddr, pageSize] at hframes ⊢
      omega
    have hpages := hb.pages hn
    rw [hcount, ← hg, ← createProcess_served_iff hk.toPageAllocator ho hc] at hpages
    exact hpages hfail
  · intro hok
    obtain ⟨loc, frames, hs⟩ := createProcess_space hk.toPageAllocator ho hc hok
    have hreturned := returned_eq hok
    refine ⟨loc, frames, ⟨hs.space.table, ?_, fun _ _ he => he⟩, hs.length, ?_,
      hs.new_frames.nodup, ?_⟩
    · intro p a hp
      rw [hreturned]
      exact hs.space.tables_granted hp
    · rw [hreturned]
      exact hs.new_frames.granted
    · intro f hf p hp
      have hself : InPage f f := by simp [InPage, pageSize]
      exact hs.new_frames.apart f hf f hself ⟨p, f, hp, hself⟩

theorem createProcess_runnable (hc : createProcess kalloc l t image n = some (i, t')) :
    (t'.procs i).state = .runnable := by
  obtain ⟨-, -, hp⟩ := createProcess_cases hc
  rw [hp, update_self]

theorem loadImage_silent (hk : FailingAllocator (heapOf l) base kalloc) (root image n : ℕ)
    {k : ℕ} (hs : Spent k σ) (offs : List ℕ) (hoffs : ∀ off ∈ offs, pageSize ∣ off) :
    ∃ σ₁, loadImage kalloc root image n offs σ = some σ₁ := by
  induction offs generalizing σ with
  | nil => exact ⟨σ, rfl⟩
  | cons off offs ih =>
    have hv : pageSize ∣ userBase + off :=
      Nat.dvd_add (by decide) (hoffs off List.mem_cons_self)
    have hp : pageSize ∣ (kalloc σ).1 := by
      rw [(hk.fails σ hs.1).null]
      exact Nat.dvd_zero _
    have hflags : userFlags &&& 0xe ≠ 0 := by decide
    obtain ⟨σ', h₁⟩ := mapPage_returns kalloc hv hp hflags root (loadPage kalloc image n off σ)
    obtain ⟨σ₁, h₂⟩ := ih (mapPage_spent hk (loadPage_spent hk hs image n off) h₁)
      fun o ho => hoffs o (List.mem_cons_of_mem _ ho)
    exact ⟨σ₁, by rw [loadImage_cons, h₁, Option.bind_some, h₂]⟩

/-- A runnable process whose page table is NULL. -/
theorem createProcess_silent (hk : FailingAllocator (heapOf l) base kalloc)
    (ho : Owned (heapOf l) base t.pages) (hi : findUnused t.procs = some i)
    (hfree : freePages (heapOf l) base t.pages.granted = 0) :
    ∃ t', createProcess kalloc l t image n = some (i, t') ∧
      (t'.procs i).state = .runnable ∧ (t'.procs i).pageTable = 0 := by
  have ho₀ := framed_owned ho i
  have hn : (kalloc (framed l t i)).1 = 0 := by
    refine (hk.serves _ ho₀).mpr ?_
    rwa [framed_granted]
  have hs := kalloc_first hk ho₀ hn
  have hkernel : kernelFlags &&& 0xe ≠ 0 := by decide
  have hdevice : deviceFlags &&& 0xe ≠ 0 := by decide
  obtain ⟨σ', h₁⟩ := mapAll_returns kalloc (kalloc (framed l t i)).1 hkernel _
    (kernelPages_aligned l) (kalloc (framed l t i)).2
  obtain ⟨σ'', h₂⟩ := mapAll_returns kalloc (kalloc (framed l t i)).1 hdevice _
    devicePages_aligned σ'
  obtain ⟨σ₁, h₃⟩ := loadImage_silent hk (kalloc (framed l t i)).1 image n
    (mapAll_spent hk (mapAll_spent hk hs _ h₁) _ h₂) _ (offsets_aligned n)
  obtain ⟨t', hc, -⟩ := createProcess_eq_some kalloc hi
    ((buildSpace_eq_some kalloc).mpr ⟨σ', σ'', h₁, h₂, h₃⟩)
  obtain ⟨-, -, hp⟩ := createProcess_cases hc
  refine ⟨t', hc, createProcess_runnable hc, ?_⟩
  rw [hp, update_self]
  exact hn

end

def takePages (kalloc : Pages → ℕ × Pages) : ℕ → Pages → Pages
  | 0, σ => σ
  | n + 1, σ => (kalloc (takePages kalloc n σ)).2

theorem takePages_owned {h : Heap} {base : List Block} {kalloc : Pages → ℕ × Pages} {σ : Pages}
    (hk : PageAllocator h base kalloc) (ho : Owned h base σ) {n : ℕ}
    (hn : n ≤ freePages h base σ.granted) :
    Owned h base (takePages kalloc n σ) ∧
      freePages h base (takePages kalloc n σ).granted + n = freePages h base σ.granted := by
  induction n with
  | zero => exact ⟨ho, rfl⟩
  | succ n ih =>
    obtain ⟨ho', hfree⟩ := ih (by omega)
    have hne : (kalloc (takePages kalloc n σ)).1 ≠ 0 := by
      intro h0
      have := (hk.serves _ ho').mp h0
      omega
    have ho'' := (hk.grants _ ho' hne).owned
    have hadd' := ho'.freePages_add
    have hadd'' := ho''.freePages_add
    rw [hk.recorded, List.length_cons] at hadd''
    refine ⟨ho'', ?_⟩
    rw [takePages, hk.recorded]
    omega

theorem owned_rebase {h : Heap} {base : List Block} {σ : Pages} (ho : Owned h base σ) :
    Owned h (pageBlocks σ.granted ++ base) ⟨σ.toMachine, []⟩ := ho

/-- From any state of the allocator reached by harmless calls, with the list heads in front
of the heap: `map_page` in any address space, and `create_process`. The second result counts
every page returned in the call. -/
theorem out_of_memory (l : Layout) (heads : ℕ) (hh : heads ≤ l.freeRam)
    (s : AllocatorRuns.State) (hs : Reachable (heapOf l) (Harmless heads) s) :
    (∀ σ root loc M S c, Space (heapOf l) s.live σ root loc M S c →
      ∀ v paddr flags, MapArgs v paddr flags →
      ∀ σ₁, mapPage kallocPage σ root v paddr flags = some σ₁ →
        ((∃ loc₁ M₁, Sound σ₁ root (update M (key v) (some (paddr, flags))) loc₁ M₁) ↔
          (tablePaths v \ S).card ≤ freePages (heapOf l) s.live σ.granted)) ∧
    ∀ procs image n i t', createProcess kallocPage l ⟨⟨s.machine, []⟩, procs⟩ image n = some (i, t') →
      (((t'.procs i).state = .runnable →
          ∃ loc frames, Built l n t'.pages (t'.procs i).pageTable loc frames) ↔
        pagesNeeded l n ≤ freePages (heapOf l) s.live []) := by
  have hk := kallocPage_failing (heapOf l) s.live
  constructor
  · intro σ root loc M S c hspace v paddr flags ha σ₁ hm
    exact mapPage_sound_iff hk (heapEnd_le l) hspace ha hm
  · intro procs image n i t' hc
    obtain ⟨L, hi⟩ := AllocatorRuns.reachable_invariant hh (fun _ _ he => he) hs
    have ho : Owned (heapOf l) s.live ⟨s.machine, []⟩ := ⟨L, hi⟩
    have hiff := createProcess_built_iff hk ho rfl hc
    have hrun := createProcess_runnable hc
    exact ⟨fun hb => hiff.mp (hb hrun), fun hroom _ => hiff.mpr hroom⟩

/-- One page mapped and one process created while there is room. -/
theorem out_of_memory_after_boot :
    (∃ σ root, ∃ σ₁ loc₁ M₁,
      mapPage kallocPage σ root userBase userBase userFlags = some σ₁ ∧
        Sound σ₁ root (update (fun _ => none) (key userBase) (some (userBase, userFlags))) loc₁ M₁) ∧
    ∃ (t' : ProcTable) (loc : _) (frames : _), (t'.procs 0).state = .runnable ∧
      Built sampleLayout 0x3000 t'.pages (t'.procs 0).pageTable loc frames := by
  have hboot : Reachable (heapOf sampleLayout) (Harmless kernelBase)
      (boot (heapOf sampleLayout) fun _ => 0) := .boot _
  have hk := kallocPage_allocator (heapOf sampleLayout) []
  have ho := owned_boot (heapOf sampleLayout) fun _ => 0
  have hfree : freePages (heapOf sampleLayout) [] [] = 32768 := by
    rw [freePages_nil, heapOf_totalPages]
  obtain ⟨hmap, hcreate⟩ := out_of_memory sampleLayout kernelBase (by decide) _ hboot
  have hlive : (boot (heapOf sampleLayout) fun _ => 0).live = [] := by rw [boot]
  rw [hlive] at hmap hcreate
  constructor
  · have hne : (kallocPage ⟨(boot (heapOf sampleLayout) fun _ => 0).machine, []⟩).1 ≠ 0 := by
      intro h0
      exact absurd (hfree.symm.trans ((hk.serves _ ho).mp h0)) (by decide)
    have hs := space_of_root hk ho hne
    generalize kallocPage ⟨(boot (heapOf sampleLayout) fun _ => 0).machine, []⟩ = r at hs
    have hadd := hs.owned.freePages_add
    have hcount : r.2.granted.length = 1 := hs.count
    have haligned : pageSize ∣ userBase := by decide
    have hflags : userFlags &&& 0xe ≠ 0 := by decide
    obtain ⟨σ₁, hm⟩ := mapPage_returns kallocPage haligned haligned hflags r.1 r.2
    have hcard : (tablePaths userBase \ {[]}).card ≤ 2 :=
      (Finset.card_le_card Finset.sdiff_subset).trans Finset.card_le_two
    have hargs : MapArgs userBase userBase userFlags :=
      ⟨by decide, ⟨by decide, by decide⟩, by decide, by decide⟩
    obtain ⟨loc₁, M₁, hsound⟩ := (hmap _ _ _ _ _ _ hs _ _ _ hargs σ₁ hm).mpr (by omega)
    exact ⟨r.2, r.1, σ₁, loc₁, M₁, hm, hsound⟩
  · obtain ⟨t', hc, hok⟩ := createProcess_after_boot (n := 0x3000) hk (fun _ => 0)
      noProcs_unused kernelBase (by decide)
    have hrun := createProcess_runnable hc
    have hsize : 0x3000 ≤ maxImage := by decide
    have hneed := pagesNeeded_le sampleLayout hsize
    obtain ⟨loc, frames, hb⟩ := (hcreate _ _ _ _ _ hc).mpr (by omega) hrun
    exact ⟨t', loc, frames, hrun, hb⟩

/-- After 32768 calls of `kalloc(1)` the heap is full; the new process is runnable with NULL
as its page table. -/
theorem full_heap_null_page_table :
    let full := takePages kallocPage 32768 ⟨(boot (heapOf sampleLayout) fun _ => 0).machine, []⟩
    ∃ t', createProcess kallocPage sampleLayout
        ⟨⟨full.toMachine, []⟩, noProcs⟩ kernelBase 0x3000 = some (0, t') ∧
      (t'.procs 0).state = .runnable ∧ (t'.procs 0).pageTable = 0 ∧
      ¬ ∃ loc frames, Built sampleLayout 0x3000 t'.pages (t'.procs 0).pageTable loc frames := by
  intro full
  have ho := owned_boot (heapOf sampleLayout) fun _ => 0
  have htotal : freePages (heapOf sampleLayout) [] [] = 32768 := by
    rw [freePages_nil, heapOf_totalPages]
  have hfull := takePages_owned (n := 32768) (kallocPage_allocator (heapOf sampleLayout) []) ho
    htotal.ge
  change Owned _ _ full ∧ freePages _ _ full.granted + _ = _ at hfull
  generalize full = σ at hfull ⊢
  obtain ⟨hσ, hfree⟩ := hfull
  have ho' := owned_rebase hσ
  have hk := kallocPage_failing (heapOf sampleLayout) (pageBlocks σ.granted ++ [])
  have hzero : freePages (heapOf sampleLayout) (pageBlocks σ.granted ++ []) [] = 0 := by
    change freePages (heapOf sampleLayout) [] σ.granted = 0
    change _ + 32768 = freePages (heapOf sampleLayout) [] [] at hfree
    omega
  obtain ⟨t', hc, hrun, hnull⟩ := createProcess_silent (t := ⟨⟨σ.toMachine, []⟩,
    noProcs⟩) (i := 0) (n := 0x3000) hk ho'
    (findUnused_all noProcs_unused) hzero
  refine ⟨t', hc, hrun, hnull, fun hb => ?_⟩
  have hneed := (createProcess_built_iff hk ho' rfl hc).mp hb
  have hpos := spacePaths_pos sampleLayout 0x3000
  rw [hzero, pagesNeeded] at hneed
  omega

end OutOfMemory
