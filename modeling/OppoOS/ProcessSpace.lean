import OppoOS.AddressSpace
import OppoOS.Processes

/-!
# The address space of a new process

What `create_process` builds when no allocation fails: the kernel's pages, the device pages
and one new page for each page of the image, in tables that are new pages as well.
-/
namespace ProcessSpace

open ByteMemory BuddyTiling BuddyAllocator AllocatorRuns TableTree Paging PageTables
open PageGrants AddressSpace Processes Function

def kernelFlags : ℕ := pageR ||| pageW ||| pageX
def deviceFlags : ℕ := pageR ||| pageW
def userFlags : ℕ := pageU ||| pageR ||| pageW ||| pageX

def heapOf (l : Layout) : Heap where
  heapStart := l.freeRam
  heapEnd := l.freeRamEnd
  start_pos := by
    have := l.procs_inside
    simp only [kernelBase] at this
    omega
  start_aligned := l.freeRam_aligned
  ordered := by
    simp only [Layout.freeRamEnd]
    omega
  end_lt := by
    have := l.ram_end
    simp only [Layout.freeRamEnd]
    omega

def leaves (flags : ℕ) (as : List ℕ) (M : List ℕ → Option (ℕ × ℕ)) : List ℕ → Option (ℕ × ℕ) :=
  as.foldl (fun M a => update M (key a) (some (a, flags))) M

def imageLeaves (rs : List (ℕ × ℕ)) (M : List ℕ → Option (ℕ × ℕ)) : List ℕ → Option (ℕ × ℕ) :=
  rs.foldl (fun M r => update M (key (userBase + r.1)) (some (r.2, userFlags))) M

def allPaths (vs : List ℕ) (S : Finset (List ℕ)) : Finset (List ℕ) :=
  vs.foldl (fun S v => S ∪ tablePaths v) S

def imageAddrs (offs : List ℕ) : List ℕ := offs.map (userBase + ·)

def spacePaths (l : Layout) (imageSize : ℕ) : Finset (List ℕ) :=
  allPaths (imageAddrs (pageAddrs 0 imageSize)) (allPaths devicePages (allPaths l.kernelPages {[]}))

/-- The pages a process takes: its tables and its frames. -/
def pagesNeeded (l : Layout) (imageSize : ℕ) : ℕ :=
  (spacePaths l imageSize).card + (pageAddrs 0 imageSize).length

def spaceLeaves (l : Layout) (imageSize : ℕ) (frames : List ℕ) : List ℕ → Option (ℕ × ℕ) :=
  imageLeaves ((pageAddrs 0 imageSize).zip frames)
    (leaves deviceFlags devicePages (leaves kernelFlags l.kernelPages fun _ => none))

section
variable {h : Heap} {base : List Block} {σ σ₁ σ₂ : Pages} {root : ℕ}
  {loc loc₁ loc₂ : List ℕ → Option ℕ} {M : List ℕ → Option (ℕ × ℕ)}
  {S : Finset (List ℕ)} {c : ℕ} {kalloc : Pages → ℕ × Pages}

theorem mapAll_grown (hk : PageAllocator h base kalloc) {flags : ℕ} (as : List ℕ)
    (hm : mapAll kalloc root flags as σ = some σ₁) : σ.granted <:+ σ₁.granted := by
  induction as generalizing σ with
  | nil => rw [← Option.some.inj hm]
  | cons a as ih =>
    obtain ⟨σ', h₁, h₂⟩ := Option.bind_eq_some_iff.mp hm
    exact (mapPage_grown hk h₁).trans (ih h₂)

theorem mapAll_space (hk : PageAllocator h base kalloc) (hend : h.heapEnd ≤ 2 ^ 46)
    {flags : ℕ} (hf : flags < 2 ^ 10) (hp : flags &&& 0xe ≠ 0) (as : List ℕ)
    (has : ∀ a ∈ as, Encodable a) (hs : Space h base σ root loc M S c)
    (hm : mapAll kalloc root flags as σ = some σ₁) (hok : 0 ∉ σ₁.granted) :
    ∃ loc₁, Space h base σ₁ root loc₁ (leaves flags as M) (allPaths as S) c ∧
      Extends h base σ loc σ₁ loc₁ := by
  induction as generalizing σ loc M S with
  | nil =>
    obtain rfl := Option.some.inj hm
    exact ⟨loc, hs, Extends.refl σ loc⟩
  | cons a as ih =>
    obtain ⟨σ', h₁, h₂⟩ := Option.bind_eq_some_iff.mp hm
    have ha := has a List.mem_cons_self
    have hok' : 0 ∉ σ'.granted := fun hc => hok ((mapAll_grown hk as h₂).subset hc)
    obtain ⟨loc', hs', he'⟩ := hs.mapPage hk hend ⟨ha.1, ha, hf, hp⟩ h₁ hok'
    obtain ⟨loc₁, hs₁, he₁⟩ := ih (fun b hb => has b (List.mem_cons_of_mem _ hb)) hs' h₂
    exact ⟨loc₁, hs₁, he'.trans he₁⟩

theorem subset_allPaths (vs : List ℕ) (S : Finset (List ℕ)) : S ⊆ allPaths vs S := by
  induction vs generalizing S with
  | nil => exact Finset.Subset.refl S
  | cons v vs ih => exact Finset.subset_union_left.trans (ih (S ∪ tablePaths v))

theorem mapAll_served (hk : PageAllocator h base kalloc) (hend : h.heapEnd ≤ 2 ^ 46)
    {flags : ℕ} (hf : flags < 2 ^ 10) (hp : flags &&& 0xe ≠ 0) (as : List ℕ)
    (has : ∀ a ∈ as, Encodable a) (hs : Space h base σ root loc M S c)
    (hroom : (allPaths as S).card + c ≤ freePages h base []) :
    ∃ σ₁, mapAll kalloc root flags as σ = some σ₁ ∧ 0 ∉ σ₁.granted := by
  induction as generalizing σ loc M S with
  | nil => exact ⟨σ, rfl, hs.owned.zero_notMem⟩
  | cons a as ih =>
    have ha := has a List.mem_cons_self
    obtain ⟨σ', h₁⟩ := mapPage_returns kalloc ha.1 ha.1 hp root σ
    have hcard := Finset.card_le_card (subset_allPaths as (S ∪ tablePaths a))
    have hroom' : (allPaths as (S ∪ tablePaths a)).card + c ≤ freePages h base [] := hroom
    have hok := hs.mapPage_served hk hend ⟨ha.1, ha, hf, hp⟩ h₁ (by omega)
    obtain ⟨loc', hs', -⟩ := hs.mapPage hk hend ⟨ha.1, ha, hf, hp⟩ h₁ hok
    obtain ⟨σ₁, h₂, hok₁⟩ := ih (fun b hb => has b (List.mem_cons_of_mem _ hb)) hs' hroom'
    exact ⟨σ₁, Option.bind_eq_some_iff.mpr ⟨σ', h₁, h₂⟩, hok₁⟩

/-- The page of the image at `off`: allocated and filled, not yet mapped. -/
def loadPage (kalloc : Pages → ℕ × Pages) (image imageSize off : ℕ) (σ : Pages) : Pages :=
  let r := kalloc σ
  let remaining := imageSize - off
  let copySize := if pageSize ≤ remaining then pageSize else remaining
  { r.2 with mem := memcpy r.2.mem r.1 (image + off) copySize }

theorem loadImage_cons (kalloc : Pages → ℕ × Pages) (root image imageSize off : ℕ)
    (offs : List ℕ) (σ : Pages) :
    loadImage kalloc root image imageSize (off :: offs) σ =
      (mapPage kalloc (loadPage kalloc image imageSize off σ) root (userBase + off)
        (kalloc σ).1 userFlags).bind (loadImage kalloc root image imageSize offs) := rfl

theorem loadPage_granted (hk : PageAllocator h base kalloc) (image imageSize off : ℕ)
    (σ : Pages) :
    (loadPage kalloc image imageSize off σ).granted = (kalloc σ).1 :: σ.granted := hk.recorded σ

theorem loadImage_grown (hk : PageAllocator h base kalloc) {image imageSize : ℕ}
    (offs : List ℕ) (hm : loadImage kalloc root image imageSize offs σ = some σ₁) :
    σ.granted <:+ σ₁.granted := by
  induction offs generalizing σ with
  | nil => rw [← Option.some.inj hm]
  | cons off offs ih =>
    rw [loadImage_cons] at hm
    obtain ⟨σ', h₁, h₂⟩ := Option.bind_eq_some_iff.mp hm
    have h₀ := mapPage_grown hk h₁
    rw [loadPage_granted hk] at h₀
    exact ((List.suffix_cons _ _).trans h₀).trans (ih h₂)

theorem loadPage_mem (hk : PageAllocator h base kalloc) (ho : Owned h base σ)
    (hn : (kalloc σ).1 ≠ 0) (image imageSize off : ℕ) :
    (∀ x, Held h base σ.granted x → (loadPage kalloc image imageSize off σ).mem x = σ.mem x) ∧
      ((∀ x, image + off ≤ x → x < image + imageSize → Held h base σ.granted x) →
        ∀ j, j < pageSize → (loadPage kalloc image imageSize off σ).mem ((kalloc σ).1 + j) =
          if off + j < imageSize then σ.mem (image + off + j) else 0) := by
  have hg := hk.grants σ ho hn
  have hcopy : (if pageSize ≤ imageSize - off then pageSize else imageSize - off) =
      min pageSize (imageSize - off) := by
    split <;> omega
  have hmem : (loadPage kalloc image imageSize off σ).mem =
      memcpy (kalloc σ).2.mem (kalloc σ).1 (image + off) (min pageSize (imageSize - off)) := by
    simp only [loadPage, hcopy]
  constructor
  · intro x hx
    rw [hmem, memcpy_outside, hg.kept x hx]
    by_contra hc
    push Not at hc
    exact hg.unheld x ⟨hc.1, by omega⟩ hx
  · intro hsrc j hj
    rw [hmem, memcpy_apply]
    · by_cases hlt : off + j < imageSize
      · rw [if_pos (by omega), if_pos hlt, Nat.add_sub_cancel_left]
        exact hg.kept _ (hsrc _ (by omega) (by omega))
      · rw [if_neg (by omega), if_neg hlt]
        exact hg.zeroed _ ⟨by omega, by omega⟩
    · intro y hl hr hc
      exact hg.unheld y ⟨hc.1, by omega⟩ (hsrc y (by omega) (by omega))

theorem loadPage_space (hk : PageAllocator h base kalloc) (hs : Space h base σ root loc M S c)
    (hn : (kalloc σ).1 ≠ 0) (image imageSize off : ℕ) :
    Space h base (loadPage kalloc image imageSize off σ) root loc M S (c + 1) ∧
      Extends h base σ loc (loadPage kalloc image imageSize off σ) loc := by
  have hg := hk.grants σ hs.owned hn
  have hkept := (loadPage_mem hk hs.owned hn image imageSize off).1
  have hgr := loadPage_granted hk image imageSize off σ
  refine ⟨⟨?_, ?_, ?_, hs.paths, ?_⟩, ⟨?_, fun x hx => Or.inl hx, fun x hx _ => hkept x hx⟩⟩
  · apply hg.owned.write
    intro x hx
    have hcopy : (if pageSize ≤ imageSize - off then pageSize else imageSize - off) ≤
        pageSize := by
      split <;> omega
    apply memcpy_outside
    by_contra hc
    push Not at hc
    refine hx (kalloc σ).1 ?_ ⟨hc.1, by omega⟩
    rw [hk.recorded]
    exact List.mem_cons_self
  · apply hs.table.frame
    intro p t hp x hl hr
    exact hkept x (held_of_granted (hs.tables_granted hp) ⟨hl, hr⟩)
  · intro p t hp
    rw [hgr]
    exact List.mem_cons_of_mem _ (hs.tables_granted hp)
  · rw [hgr, List.length_cons, hs.count, Nat.add_assoc]
  · rw [hgr]
    exact List.suffix_cons _ _

structure NewFrames (h : Heap) (base : List Block) (σ σ₁ : Pages) (loc₁ : List ℕ → Option ℕ)
    (frames : List ℕ) : Prop where
  nodup : frames.Nodup
  granted : ∀ f ∈ frames, f ∈ σ₁.granted
  unheld : ∀ f ∈ frames, ∀ x, InPage f x → ¬ Held h base σ.granted x
  apart : ∀ f ∈ frames, ∀ x, InPage f x → ¬ InTables loc₁ x

def Filled (m m₁ : Mem) (image imageSize : ℕ) (rs : List (ℕ × ℕ)) : Prop :=
  ∀ r ∈ rs, ∀ j, j < pageSize →
    m₁ (r.2 + j) = if r.1 + j < imageSize then m (image + r.1 + j) else 0

theorem inTables_held (hs : Space h base σ root loc M S c) {x : ℕ} (hx : InTables loc x) :
    Held h base σ.granted x := by
  obtain ⟨p, t, hp, hx⟩ := hx
  exact held_of_granted (hs.tables_granted hp) hx

/-- The loop over the image. The last part needs an image nobody else writes to. -/
theorem loadImage_space (hk : PageAllocator h base kalloc) (hend : h.heapEnd ≤ 2 ^ 46)
    {image imageSize : ℕ} (offs : List ℕ) (hoffs : ∀ off ∈ offs, pageSize ∣ off)
    (hs : Space h base σ root loc M S c)
    (hm : loadImage kalloc root image imageSize offs σ = some σ₁) (hok : 0 ∉ σ₁.granted) :
    ∃ loc₁ frames, frames.length = offs.length ∧
      Space h base σ₁ root loc₁ (imageLeaves (offs.zip frames) M) (allPaths (imageAddrs offs) S)
        (c + offs.length) ∧
      Extends h base σ loc σ₁ loc₁ ∧ NewFrames h base σ σ₁ loc₁ frames ∧
      ((∀ x, image ≤ x → x < image + imageSize →
          Held h base σ.granted x ∧ ¬ InTables loc x) →
        Filled σ.mem σ₁.mem image imageSize (offs.zip frames)) := by
  induction offs generalizing σ loc M S c with
  | nil =>
    obtain rfl := Option.some.inj hm
    refine ⟨loc, [], rfl, hs, Extends.refl σ loc, ⟨List.nodup_nil, ?_, ?_, ?_⟩, fun _ r hr => ?_⟩
    all_goals simp at *
  | cons off offs ih =>
    rw [loadImage_cons] at hm
    obtain ⟨σ', h₁, h₂⟩ := Option.bind_eq_some_iff.mp hm
    have hgrown' := loadImage_grown hk offs h₂
    have hok' : 0 ∉ σ'.granted := fun hc => hok (hgrown'.subset hc)
    have hgrown := mapPage_grown hk h₁
    rw [loadPage_granted hk] at hgrown
    have hmem : (kalloc σ).1 ∈ σ'.granted := hgrown.subset List.mem_cons_self
    have hn : (kalloc σ).1 ≠ 0 := fun h0 => hok' (h0 ▸ hmem)
    have hg := hk.grants σ hs.owned hn
    obtain ⟨hs₀, he₀⟩ := loadPage_space hk hs hn image imageSize off
    have hargs : MapArgs (userBase + off) (kalloc σ).1 userFlags := by
      refine ⟨?_, (hs.freshTable hk hend hn).encodable, by decide, by decide⟩
      exact Nat.dvd_add (by decide) (hoffs off List.mem_cons_self)
    obtain ⟨loc', hs', he'⟩ := hs₀.mapPage hk hend hargs h₁ hok'
    obtain ⟨loc₁, frames, hlen, hs₁, he₁, hnew, hfill⟩ :=
      ih (fun o ho => hoffs o (List.mem_cons_of_mem _ ho)) hs' h₂
    have hext := he₀.trans he'
    have hheld : ∀ x, InPage (kalloc σ).1 x →
        Held h base (loadPage kalloc image imageSize off σ).granted x := by
      intro x hx
      rw [loadPage_granted hk]
      exact held_of_granted List.mem_cons_self hx
    have hapart : ∀ x, InPage (kalloc σ).1 x → ¬ InTables loc x := fun x hx hc =>
      hg.unheld x hx (inTables_held hs hc)
    have hcount : c + (off :: offs).length = c + 1 + offs.length := by
      rw [List.length_cons]
      omega
    refine ⟨loc₁, (kalloc σ).1 :: frames, by rw [List.length_cons, hlen]; rfl,
      by rw [hcount]; exact hs₁, hext.trans he₁, ⟨?_, ?_, ?_, ?_⟩, ?_⟩
    · refine List.nodup_cons.mpr ⟨fun hc => ?_, hnew.nodup⟩
      have hself : InPage (kalloc σ).1 (kalloc σ).1 := by simp [InPage, pageSize]
      exact hnew.unheld _ hc _ hself (held_of_granted hmem hself)
    · intro f hf
      rcases List.mem_cons.mp hf with rfl | hf
      · exact hgrown'.subset hmem
      · exact hnew.granted f hf
    · intro f hf x hx
      rcases List.mem_cons.mp hf with rfl | hf
      · exact hg.unheld x hx
      · exact fun hc => hnew.unheld f hf x hx (hext.held hc)
    · intro f hf x hx
      rcases List.mem_cons.mp hf with rfl | hf
      · exact he₁.not_inTables (he'.held (hheld x hx))
          (he'.not_inTables (hheld x hx) (hapart x hx))
      · exact hnew.apart f hf x hx
    · intro hsrc r hr j hj
      rw [List.zip_cons_cons, List.mem_cons] at hr
      rcases hr with rfl | hr
      · have hpage : InPage (kalloc σ).1 ((kalloc σ).1 + j) := by
          simp only [InPage]
          omega
        have hx := hheld _ hpage
        rw [he₁.kept _ (he'.held hx) (he'.not_inTables hx (hapart _ hpage)),
          he'.kept _ hx (hapart _ hpage)]
        exact (loadPage_mem hk hs.owned hn image imageSize off).2
          (fun x hl hr => (hsrc x (by omega) hr).1) j hj
      · have hsrc' : ∀ x, image ≤ x → x < image + imageSize →
            Held h base σ'.granted x ∧ ¬ InTables loc' x := fun x hl hr =>
          ⟨hext.held (hsrc x hl hr).1, hext.not_inTables (hsrc x hl hr).1 (hsrc x hl hr).2⟩
        rw [hfill hsrc' r hr j hj]
        split
        · next hlt =>
          obtain ⟨hx, ht⟩ := hsrc (image + r.1 + j) (by omega) (by omega)
          exact hext.kept _ hx ht
        · rfl

theorem loadImage_served (hk : PageAllocator h base kalloc) (hend : h.heapEnd ≤ 2 ^ 46)
    {image imageSize : ℕ} (offs : List ℕ) (hoffs : ∀ off ∈ offs, pageSize ∣ off)
    (hs : Space h base σ root loc M S c)
    (hroom : (allPaths (imageAddrs offs) S).card + (c + offs.length) ≤ freePages h base []) :
    ∃ σ₁, loadImage kalloc root image imageSize offs σ = some σ₁ ∧ 0 ∉ σ₁.granted := by
  induction offs generalizing σ loc M S c with
  | nil => exact ⟨σ, rfl, hs.owned.zero_notMem⟩
  | cons off offs ih =>
    rw [List.length_cons] at hroom
    have hroom' : (allPaths (imageAddrs offs) (S ∪ tablePaths (userBase + off))).card +
        (c + (offs.length + 1)) ≤ freePages h base [] := hroom
    have hcard := Finset.card_le_card
      (subset_allPaths (imageAddrs offs) (S ∪ tablePaths (userBase + off)))
    have hsub := Finset.card_le_card
      (show S ⊆ S ∪ tablePaths (userBase + off) from Finset.subset_union_left)
    have hn := hs.served hk (by omega)
    obtain ⟨hs₀, -⟩ := loadPage_space hk hs hn image imageSize off
    have hargs : MapArgs (userBase + off) (kalloc σ).1 userFlags := by
      refine ⟨?_, (hs.freshTable hk hend hn).encodable, by decide, by decide⟩
      exact Nat.dvd_add (by decide) (hoffs off List.mem_cons_self)
    obtain ⟨σ', h₁⟩ := mapPage_returns kalloc hargs.vaddr_aligned
      hargs.paddr_encodable.1 hargs.permission root (loadPage kalloc image imageSize off σ)
    have hok := hs₀.mapPage_served hk hend hargs h₁ (by omega)
    obtain ⟨loc', hs', -⟩ := hs₀.mapPage hk hend hargs h₁ hok
    obtain ⟨σ₁, h₂, hok₁⟩ :=
      ih (fun o ho => hoffs o (List.mem_cons_of_mem _ ho)) hs' (by omega)
    refine ⟨σ₁, ?_, hok₁⟩
    rw [loadImage_cons]
    exact Option.bind_eq_some_iff.mpr ⟨σ', h₁, h₂⟩

end

def InSlot (l : Layout) (i : Fin procsMax) (x : ℕ) : Prop := l.proc i ≤ x ∧ x < l.stackTop i

theorem stackTop_le (l : Layout) (i : Fin procsMax) : l.stackTop i ≤ l.freeRam := by
  have hi := i.isLt
  have hin := l.procs_inside
  simp only [Layout.stackTop, Layout.proc, processSize, stackSize, procsMax] at hi hin ⊢
  omega

theorem initialFrame_sp (l : Layout) (m : Mem) (sp : ℕ) : (initialFrame l m sp).2 = sp - 104 :=
  pushWords_sp _ m sp

theorem initialFrame_outside (l : Layout) (m : Mem) {sp x : ℕ} (hsp : 104 ≤ sp)
    (hx : x < sp - 104 ∨ sp ≤ x) : (initialFrame l m sp).1 x = m x :=
  pushWords_outside _ m hsp hx

theorem kernelPages_lt (l : Layout) : ∀ a ∈ l.kernelPages, kernelBase ≤ a ∧ a < l.freeRamEnd := by
  intro a ha
  obtain ⟨i, hi, rfl⟩ := mem_pageAddrs.mp ha
  simp only [pageSize] at hi ⊢
  omega

theorem kernelPages_encodable (l : Layout) : ∀ a ∈ l.kernelPages, Encodable a := by
  intro a ha
  refine ⟨kernelPages_aligned l a ha, ?_⟩
  have hlt := (kernelPages_lt l a ha).2
  have hend := l.ram_end
  simp only [Layout.freeRamEnd] at hlt
  omega

theorem devicePages_encodable : ∀ a ∈ devicePages, Encodable a := by
  intro a ha
  refine ⟨devicePages_aligned a ha, ?_⟩
  revert a
  decide

theorem offsets_aligned (n : ℕ) : ∀ off ∈ pageAddrs 0 n, pageSize ∣ off := by
  intro off hoff
  obtain ⟨i, -, rfl⟩ := mem_pageAddrs.mp hoff
  rw [Nat.zero_add]
  exact Nat.dvd_mul_right _ _

/-- The new process owns new tables and new frames; what others hold is as it was after the
initial frame was written. -/
structure NewSpace (l : Layout) (base : List Block) (t t' : ProcTable) (i : Fin procsMax)
    (image imageSize : ℕ) (loc : List ℕ → Option ℕ) (frames : List ℕ) : Prop where
  space : Space (heapOf l) base t'.pages (t'.procs i).pageTable loc
    (spaceLeaves l imageSize frames) (spacePaths l imageSize)
    (t.pages.granted.length + (pageAddrs 0 imageSize).length)
  length : frames.length = (pageAddrs 0 imageSize).length
  new_frames : NewFrames (heapOf l) base t.pages t'.pages loc frames
  new_tables : ∀ x, InTables loc x → ¬ Held (heapOf l) base t.pages.granted x
  grown : t.pages.granted <:+ t'.pages.granted
  kept : ∀ x, Held (heapOf l) base t.pages.granted x →
    t'.pages.mem x = (framed l t i).mem x
  filled : (∀ x, image ≤ x → x < image + imageSize → Held (heapOf l) base t.pages.granted x) →
    Filled (framed l t i).mem t'.pages.mem image imageSize ((pageAddrs 0 imageSize).zip frames)

section
variable {l : Layout} {base : List Block} {t t' : ProcTable} {image imageSize : ℕ}
  {i : Fin procsMax} {kalloc : Pages → ℕ × Pages}

theorem buildSpace_grown {σ σ₁ : Pages} {root : ℕ} (hk : PageAllocator (heapOf l) base kalloc)
    (hb : buildSpace kalloc l root image imageSize σ = some σ₁) : σ.granted <:+ σ₁.granted := by
  obtain ⟨σ', σ'', h₁, h₂, h₃⟩ := (buildSpace_eq_some kalloc).mp hb
  exact ((mapAll_grown hk _ h₁).trans (mapAll_grown hk _ h₂)).trans (loadImage_grown hk _ h₃)

theorem heapEnd_le (l : Layout) : (heapOf l).heapEnd ≤ 2 ^ 46 := by
  have := l.ram_end
  simp only [heapOf, Layout.freeRamEnd]
  omega

theorem buildSpace_space {σ σ₁ : Pages} {root c : ℕ} {loc : List ℕ → Option ℕ}
    (hk : PageAllocator (heapOf l) base kalloc)
    (hs : Space (heapOf l) base σ root loc (fun _ => none) {[]} c)
    (hb : buildSpace kalloc l root image imageSize σ = some σ₁) (hok : 0 ∉ σ₁.granted) :
    ∃ loc₁ frames, frames.length = (pageAddrs 0 imageSize).length ∧
      Space (heapOf l) base σ₁ root loc₁ (spaceLeaves l imageSize frames)
        (spacePaths l imageSize) (c + (pageAddrs 0 imageSize).length) ∧
      Extends (heapOf l) base σ loc σ₁ loc₁ ∧
      NewFrames (heapOf l) base σ σ₁ loc₁ frames ∧
      ((∀ x, image ≤ x → x < image + imageSize →
          Held (heapOf l) base σ.granted x ∧ ¬ InTables loc x) →
        Filled σ.mem σ₁.mem image imageSize ((pageAddrs 0 imageSize).zip frames)) := by
  obtain ⟨σ', σ'', h₁, h₂, h₃⟩ := (buildSpace_eq_some kalloc).mp hb
  have hend := heapEnd_le l
  have hok₂ : 0 ∉ σ''.granted := fun hc => hok ((loadImage_grown hk _ h₃).subset hc)
  have hok₁ : 0 ∉ σ'.granted := fun hc => hok₂ ((mapAll_grown hk _ h₂).subset hc)
  obtain ⟨loc', hs', he'⟩ := mapAll_space hk hend (by decide) (by decide) _
    (kernelPages_encodable l) hs h₁ hok₁
  obtain ⟨loc'', hs'', he''⟩ := mapAll_space hk hend (by decide) (by decide) _
    devicePages_encodable hs' h₂ hok₂
  obtain ⟨loc₁, frames, hlen, hs₁, he₁, hnew, hfill⟩ :=
    loadImage_space hk hend _ (offsets_aligned imageSize) hs'' h₃ hok
  have hext := he'.trans he''
  refine ⟨loc₁, frames, hlen, hs₁, hext.trans he₁, ⟨hnew.nodup, hnew.granted, ?_, hnew.apart⟩, ?_⟩
  · exact fun f hf x hx hc => hnew.unheld f hf x hx (hext.held hc)
  · intro hsrc r hr j hj
    have hsrc' : ∀ x, image ≤ x → x < image + imageSize →
        Held (heapOf l) base σ''.granted x ∧ ¬ InTables loc'' x := fun x hl hr =>
      ⟨hext.held (hsrc x hl hr).1, hext.not_inTables (hsrc x hl hr).1 (hsrc x hl hr).2⟩
    rw [hfill hsrc' r hr j hj]
    split
    · obtain ⟨hx, ht⟩ := hsrc (image + r.1 + j) (by omega) (by omega)
      exact hext.kept _ hx ht
    · rfl

theorem buildSpace_served {σ : Pages} {root c : ℕ} {loc : List ℕ → Option ℕ}
    (hk : PageAllocator (heapOf l) base kalloc)
    (hs : Space (heapOf l) base σ root loc (fun _ => none) {[]} c)
    (hroom : pagesNeeded l imageSize + c ≤ freePages (heapOf l) base []) :
    ∃ σ₁, buildSpace kalloc l root image imageSize σ = some σ₁ ∧ 0 ∉ σ₁.granted := by
  have hend := heapEnd_le l
  have hcard₁ := Finset.card_le_card
    (subset_allPaths devicePages (allPaths l.kernelPages {[]}))
  have hcard₂ : (allPaths devicePages (allPaths l.kernelPages {[]})).card ≤
      (spacePaths l imageSize).card := Finset.card_le_card (subset_allPaths _ _)
  simp only [pagesNeeded] at hroom
  have hkernel : kernelFlags < 2 ^ 10 := by decide
  have hdevice : deviceFlags < 2 ^ 10 := by decide
  obtain ⟨σ', h₁, hok₁⟩ := mapAll_served hk hend hkernel (by decide) _
    (kernelPages_encodable l) hs (by omega)
  obtain ⟨loc', hs', -⟩ := mapAll_space hk hend (by decide) (by decide) _
    (kernelPages_encodable l) hs h₁ hok₁
  obtain ⟨σ'', h₂, hok₂⟩ := mapAll_served hk hend hdevice (by decide) _
    devicePages_encodable hs' (by omega)
  obtain ⟨loc'', hs'', -⟩ := mapAll_space hk hend (by decide) (by decide) _
    devicePages_encodable hs' h₂ hok₂
  have hroom' : (spacePaths l imageSize).card + (c + (pageAddrs 0 imageSize).length) ≤
      freePages (heapOf l) base [] := by omega
  obtain ⟨σ₁, h₃, hok⟩ := loadImage_served hk hend _ (offsets_aligned imageSize) hs'' hroom'
  exact ⟨σ₁, (buildSpace_eq_some kalloc).mpr ⟨σ', σ'', h₁, h₂, h₃⟩, hok⟩

theorem framed_outside (l : Layout) (t : ProcTable) {i : Fin procsMax} {x : ℕ}
    (hx : ¬ InSlot l i x) : (framed l t i).mem x = t.pages.mem x := by
  have htop : l.stackTop i = l.proc i + 8216 := rfl
  have hsp : l.spAddr i = l.proc i + 8 := rfl
  simp only [InSlot] at hx
  rw [framed]
  dsimp only
  rw [store64_outside _ _ _ _ (by omega)]
  exact @initialFrame_outside l t.pages.mem (l.stackTop i) x (by omega) (by omega)

theorem framed_owned (ho : Owned (heapOf l) base t.pages) (i : Fin procsMax) :
    Owned (heapOf l) base (framed l t i) := by
  have htop := stackTop_le l i
  apply ho.low_write
  intro x hx
  exact framed_outside l t fun hin => absurd hin.2 (not_lt.mpr (htop.trans hx))

theorem framed_granted (l : Layout) (t : ProcTable) (i : Fin procsMax) :
    (framed l t i).granted = t.pages.granted := by
  rw [framed]

theorem createProcess_space (hk : PageAllocator (heapOf l) base kalloc)
    (ho : Owned (heapOf l) base t.pages)
    (hc : createProcess kalloc l t image imageSize = some (i, t'))
    (hok : 0 ∉ t'.pages.granted) :
    ∃ loc frames, NewSpace l base t t' i image imageSize loc frames := by
  obtain ⟨-, hb, hp⟩ := createProcess_cases hc
  have ho₀ := framed_owned ho i
  have hgranted := framed_granted l t i
  generalize hσ₀ : framed l t i = σ₀ at hb hp ho₀ hgranted
  have hroot : (t'.procs i).pageTable = (kalloc σ₀).1 := by rw [hp, update_self]
  have hgrown := buildSpace_grown hk hb
  have hmem : (kalloc σ₀).1 ∈ t'.pages.granted := by
    refine hgrown.subset ?_
    rw [hk.recorded]
    exact List.mem_cons_self
  have hn : (kalloc σ₀).1 ≠ 0 := fun h0 => hok (h0 ▸ hmem)
  have hg := hk.grants σ₀ ho₀ hn
  have hs₀ := space_of_root hk ho₀ hn
  obtain ⟨loc, frames, hlen, hs, he, hnew, hfill⟩ := buildSpace_space hk hs₀ hb hok
  have hheld : ∀ x, Held (heapOf l) base t.pages.granted x →
      Held (heapOf l) base (kalloc σ₀).2.granted x := by
    intro x hx
    rw [hk.recorded, hgranted]
    exact hx.append [(kalloc σ₀).1]
  have hroot' : ∀ x, InTables (rootOnly (kalloc σ₀).1) x → InPage (kalloc σ₀).1 x := by
    rintro x ⟨p, t, hp, hx⟩
    by_cases hnil : p = []
    · rw [hnil, rootOnly, update_self, Option.some.injEq] at hp
      rwa [hp]
    · rw [rootOnly, update_of_ne hnil] at hp
      cases hp
  have hapart : ∀ x, Held (heapOf l) base t.pages.granted x →
      ¬ InTables (rootOnly (kalloc σ₀).1) x := fun x hx hc =>
    hg.unheld x (hroot' x hc) (by rwa [hgranted])
  have hkept : ∀ x, Held (heapOf l) base t.pages.granted x →
      (kalloc σ₀).2.mem x = σ₀.mem x := fun x hx => hg.kept x (by rwa [hgranted])
  rw [hgranted] at hs
  refine ⟨loc, frames, by rw [hroot]; exact hs, hlen,
    ⟨hnew.nodup, hnew.granted, ?_, hnew.apart⟩, ?_, ?_, ?_, ?_⟩
  · exact fun f hf x hx hc => hnew.unheld f hf x hx (hheld x hc)
  · intro x hx hc
    rcases he.fresh x hx with hx | hx
    · exact hapart x hc hx
    · exact hx (hheld x hc)
  · refine List.IsSuffix.trans ?_ hgrown
    rw [hk.recorded, hgranted]
    exact List.suffix_cons _ _
  · intro x hx
    rw [he.kept x (hheld x hx) (hapart x hx), hkept x hx, hσ₀]
  · intro hsrc r hr j hj
    rw [hfill (fun x hl hr => ⟨hheld x (hsrc x hl hr), hapart x (hsrc x hl hr)⟩) r hr j hj, hσ₀]
    split
    · exact hkept _ (hsrc (image + r.1 + j) (by omega) (by omega))
    · rfl

theorem spacePaths_pos (l : Layout) (n : ℕ) : 0 < (spacePaths l n).card := by
  apply Finset.card_pos.mpr
  refine ⟨[], subset_allPaths _ _ (subset_allPaths _ _ (subset_allPaths _ _ ?_))⟩
  exact Finset.mem_singleton_self _

theorem createProcess_served (hk : PageAllocator (heapOf l) base kalloc)
    (ho : Owned (heapOf l) base t.pages) (image : ℕ) (hi : findUnused t.procs = some i)
    (hroom : pagesNeeded l imageSize ≤ freePages (heapOf l) base t.pages.granted) :
    ∃ t', createProcess kalloc l t image imageSize = some (i, t') ∧ 0 ∉ t'.pages.granted := by
  have hadd := ho.freePages_add
  have ho₀ := framed_owned ho i
  have hpos := spacePaths_pos l imageSize
  have hn : (kalloc (framed l t i)).1 ≠ 0 := by
    intro h0
    have hz := (hk.serves _ ho₀).mp h0
    rw [framed_granted] at hz
    simp only [pagesNeeded] at hroom
    omega
  have hserved : ∃ σ₁, buildSpace kalloc l (kalloc (framed l t i)).1 image imageSize
      (kalloc (framed l t i)).2 = some σ₁ ∧ 0 ∉ σ₁.granted :=
    buildSpace_served hk (space_of_root hk ho₀ hn) (by rw [framed_granted]; omega)
  obtain ⟨σ₁, hb, hok⟩ := hserved
  obtain ⟨t', hc, hp⟩ := createProcess_eq_some kalloc hi hb
  exact ⟨t', hc, by rwa [hp]⟩

/-- Every allocation succeeds exactly when enough pages are free before the call. -/
theorem createProcess_served_iff (hk : PageAllocator (heapOf l) base kalloc)
    (ho : Owned (heapOf l) base t.pages)
    (hc : createProcess kalloc l t image imageSize = some (i, t')) :
    0 ∉ t'.pages.granted ↔
      pagesNeeded l imageSize ≤ freePages (heapOf l) base t.pages.granted := by
  constructor
  · intro hok
    obtain ⟨loc, frames, hnew⟩ := createProcess_space hk ho hc hok
    have hcount := hnew.space.count
    have hadd := ho.freePages_add
    have hadd' := hnew.space.owned.freePages_add
    simp only [pagesNeeded]
    omega
  · intro hroom
    obtain ⟨t₁, hc₁, hok⟩ := createProcess_served hk ho image (createProcess_cases hc).1 hroom
    obtain ⟨-, rfl⟩ := Prod.mk.inj (Option.some.inj (hc₁.symm.trans hc))
    exact hok

end

theorem allPaths_forall {P : List ℕ → Prop} {vs : List ℕ} {S : Finset (List ℕ)}
    (hS : ∀ p ∈ S, P p) (hvs : ∀ v ∈ vs, ∀ p ∈ tablePaths v, P p) : ∀ p ∈ allPaths vs S, P p := by
  induction vs generalizing S with
  | nil => exact hS
  | cons v vs ih =>
    apply ih
    · intro p hp
      rcases Finset.mem_union.mp hp with hp | hp
      · exact hS p hp
      · exact hvs v List.mem_cons_self p hp
    · exact fun w hw => hvs w (List.mem_cons_of_mem _ hw)

theorem allPaths_subset {vs : List ℕ} {S T : Finset (List ℕ)} (hS : S ⊆ T)
    (hvs : ∀ v ∈ vs, tablePaths v ⊆ T) : allPaths vs S ⊆ T := by
  have h : ∀ p ∈ allPaths vs S, p ∈ T := by
    apply allPaths_forall
    · exact fun p hp => hS hp
    · exact fun v hv p hp => hvs v hv hp
  exact h

def lowPaths : Finset (List ℕ) :=
  insert [] ((Finset.range 3).image (fun a => [a]) ∪
    (Finset.range 512 ×ˢ Finset.range 3).image fun q => [q.1, q.2])

theorem tablePaths_low {v : ℕ} (hv : v < 0xC0000000) : tablePaths v ⊆ lowPaths := by
  have h2 : vpn2 v < 3 := by
    rw [vpn2_eq]
    omega
  have h1 := (vpn_lt v).2.1
  intro p hp
  simp only [tablePaths, Finset.mem_insert, Finset.mem_singleton] at hp
  simp only [lowPaths, Finset.mem_insert, Finset.mem_union, Finset.mem_image, Finset.mem_range,
    Finset.mem_product, Prod.exists]
  rcases hp with rfl | rfl
  · exact Or.inr (Or.inl ⟨_, h2, rfl⟩)
  · exact Or.inr (Or.inr ⟨_, _, ⟨h1, h2⟩, rfl⟩)

theorem lowPaths_card : lowPaths.card ≤ 1540 := by
  have h1 : ((Finset.range 3).image fun a => [a]).card ≤ 3 :=
    Finset.card_image_le.trans (by simp)
  have h2 : ((Finset.range 512 ×ˢ Finset.range 3).image fun q => [q.1, q.2]).card ≤ 1536 :=
    Finset.card_image_le.trans (by simp)
  have h3 := Finset.card_union_le ((Finset.range 3).image fun a => [a])
    ((Finset.range 512 ×ˢ Finset.range 3).image fun q => [q.1, q.2])
  have h4 := Finset.card_insert_le [] ((Finset.range 3).image (fun a => [a]) ∪
    (Finset.range 512 ×ˢ Finset.range 3).image fun q => [q.1, q.2])
  simp only [lowPaths]
  omega

/-- The largest image `user.ld` accepts. -/
def maxImage : ℕ := 0x800000

theorem pageAddrs_length (n : ℕ) : (pageAddrs 0 n).length = (n + pageSize - 1) / pageSize := by
  simp [pageAddrs]

theorem spacePaths_low (l : Layout) {n : ℕ} (hn : n ≤ maxImage) : spacePaths l n ⊆ lowPaths := by
  have hroot : ({[]} : Finset (List ℕ)) ⊆ lowPaths := by
    simp only [Finset.singleton_subset_iff, lowPaths, Finset.mem_insert, true_or]
  have hkernel : ∀ v ∈ l.kernelPages, v < 0xC0000000 := by
    intro v hv
    have hlt := (kernelPages_lt l v hv).2
    have hend := l.ram_end
    simp only [Layout.freeRamEnd] at hlt
    omega
  have hdevice : ∀ v ∈ devicePages, v < 0xC0000000 := by decide
  have himage : ∀ v ∈ imageAddrs (pageAddrs 0 n), v < 0xC0000000 := by
    intro v hv
    obtain ⟨off, hoff, hv⟩ := List.mem_map.mp hv
    obtain ⟨j, hj, ho⟩ := mem_pageAddrs.mp hoff
    simp only [userBase, maxImage, pageSize] at hn hj ho hv
    omega
  have h1 := allPaths_subset hroot fun v hv => tablePaths_low (hkernel v hv)
  have h2 := allPaths_subset h1 fun v hv => tablePaths_low (hdevice v hv)
  exact allPaths_subset h2 fun v hv => tablePaths_low (himage v hv)

theorem pagesNeeded_le (l : Layout) {n : ℕ} (hn : n ≤ maxImage) : pagesNeeded l n ≤ 3588 := by
  have hcard := (Finset.card_le_card (spacePaths_low l hn)).trans lowPaths_card
  rw [pagesNeeded, pageAddrs_length]
  simp only [maxImage, pageSize] at hn ⊢
  omega

theorem heapOf_totalPages (l : Layout) : (heapOf l).totalPages = 32768 := by
  simp only [Heap.totalPages, heapOf, Layout.freeRamEnd, Nat.add_sub_cancel_left, pageSize]

theorem createProcess_after_boot {kalloc : Pages → ℕ × Pages} {l : Layout}
    (hk : PageAllocator (heapOf l) [] kalloc) (m : Mem) {procs : Fin procsMax → Process}
    (hun : ∀ i, (procs i).state = .unused) (image : ℕ) {n : ℕ} (hn : n ≤ maxImage) :
    ∃ t, createProcess kalloc l ⟨⟨(boot (heapOf l) m).machine, []⟩, procs⟩ image n = some (0, t) ∧
      0 ∉ t.pages.granted := by
  have ho := owned_boot (heapOf l) m
  have hroom : pagesNeeded l n ≤ freePages (heapOf l) [] [] := by
    rw [freePages_nil, heapOf_totalPages]
    exact (pagesNeeded_le l hn).trans (by decide)
  generalize (boot (heapOf l) m).machine = σ at ho ⊢
  exact createProcess_served (t := ⟨⟨σ, []⟩, procs⟩) hk ho image (findUnused_all hun) hroom

theorem leaves_cases {flags : ℕ} (as : List ℕ) {M : List ℕ → Option (ℕ × ℕ)} {p : List ℕ}
    {e : ℕ × ℕ} (h : leaves flags as M p = some e) :
    (∃ a ∈ as, p = key a ∧ e = (a, flags)) ∨ M p = some e := by
  induction as generalizing M with
  | nil => exact Or.inr h
  | cons a as ih =>
    rcases ih h with ⟨b, hb, hp, he⟩ | hM
    · exact Or.inl ⟨b, List.mem_cons_of_mem _ hb, hp, he⟩
    · dsimp only at hM
      by_cases hp : p = key a
      · rw [hp, update_self] at hM
        exact Or.inl ⟨a, List.mem_cons_self, hp, (Option.some.inj hM).symm⟩
      · rw [update_of_ne hp] at hM
        exact Or.inr hM

theorem imageLeaves_cases (rs : List (ℕ × ℕ)) {M : List ℕ → Option (ℕ × ℕ)} {p : List ℕ}
    {e : ℕ × ℕ} (h : imageLeaves rs M p = some e) :
    (∃ r ∈ rs, p = key (userBase + r.1) ∧ e = (r.2, userFlags)) ∨ M p = some e := by
  induction rs generalizing M with
  | nil => exact Or.inr h
  | cons r rs ih =>
    rcases ih h with ⟨q, hq, hp, he⟩ | hM
    · exact Or.inl ⟨q, List.mem_cons_of_mem _ hq, hp, he⟩
    · dsimp only at hM
      by_cases hp : p = key (userBase + r.1)
      · rw [hp, update_self] at hM
        exact Or.inl ⟨r, List.mem_cons_self, hp, (Option.some.inj hM).symm⟩
      · rw [update_of_ne hp] at hM
        exact Or.inr hM

theorem spaceLeaves_cases {l : Layout} {imageSize : ℕ} {frames : List ℕ} {p : List ℕ}
    {e : ℕ × ℕ} (h : spaceLeaves l imageSize frames p = some e) :
    (e.1 ∈ l.kernelPages ∧ p = key e.1 ∧ e.2 = kernelFlags) ∨
      (e.1 ∈ devicePages ∧ p = key e.1 ∧ e.2 = deviceFlags) ∨
      (e.1 ∈ frames ∧ e.2 = userFlags) := by
  rcases imageLeaves_cases _ h with ⟨r, hr, -, rfl⟩ | h
  · exact Or.inr (Or.inr ⟨(List.of_mem_zip hr).2, rfl⟩)
  · rcases leaves_cases _ h with ⟨a, ha, rfl, rfl⟩ | h
    · exact Or.inr (Or.inl ⟨ha, rfl, rfl⟩)
    · rcases leaves_cases _ h with ⟨a, ha, rfl, rfl⟩ | h
      · exact Or.inl ⟨ha, rfl, rfl⟩
      · cases h

theorem leaves_apart {flags : ℕ} (as : List ℕ) {M : List ℕ → Option (ℕ × ℕ)} {p : List ℕ}
    (h : ∀ a ∈ as, key a ≠ p) : leaves flags as M p = M p := by
  induction as generalizing M with
  | nil => rfl
  | cons a as ih =>
    refine (ih fun b hb => h b (List.mem_cons_of_mem _ hb)).trans ?_
    exact update_of_ne (Ne.symm (h a List.mem_cons_self)) _ _

theorem leaves_mem {flags a : ℕ} (as : List ℕ) {M : List ℕ → Option (ℕ × ℕ)} (ha : a ∈ as)
    (hinj : ∀ b ∈ as, key b = key a → b = a) :
    leaves flags as M (key a) = some (a, flags) := by
  induction as generalizing M with
  | nil => cases ha
  | cons b as ih =>
    by_cases hin : a ∈ as
    · exact ih hin fun c hc => hinj c (List.mem_cons_of_mem _ hc)
    · obtain rfl : a = b := (List.mem_cons.mp ha).resolve_right hin
      refine (leaves_apart as fun c hc he => ?_).trans (update_self _ _ _)
      exact hin (hinj c (List.mem_cons_of_mem _ hc) he ▸ hc)

theorem imageLeaves_apart (rs : List (ℕ × ℕ)) {M : List ℕ → Option (ℕ × ℕ)} {p : List ℕ}
    (h : ∀ r ∈ rs, key (userBase + r.1) ≠ p) : imageLeaves rs M p = M p := by
  induction rs generalizing M with
  | nil => rfl
  | cons r rs ih =>
    refine (ih fun q hq => h q (List.mem_cons_of_mem _ hq)).trans ?_
    exact update_of_ne (Ne.symm (h r List.mem_cons_self)) _ _

theorem imageLeaves_mem (rs : List (ℕ × ℕ)) {M : List ℕ → Option (ℕ × ℕ)} {r : ℕ × ℕ}
    (hr : r ∈ rs) (hinj : ∀ q ∈ rs, key (userBase + q.1) = key (userBase + r.1) → q = r) :
    imageLeaves rs M (key (userBase + r.1)) = some (r.2, userFlags) := by
  induction rs generalizing M with
  | nil => cases hr
  | cons q rs ih =>
    by_cases hin : r ∈ rs
    · exact ih hin fun s hs => hinj s (List.mem_cons_of_mem _ hs)
    · obtain rfl : r = q := (List.mem_cons.mp hr).resolve_right hin
      refine (imageLeaves_apart rs fun s hs he => ?_).trans (update_self _ _ _)
      exact hin (hinj s (List.mem_cons_of_mem _ hs) he ▸ hs)

theorem region_bounds (l : Layout) {n : ℕ} (hn : userBase + n ≤ virtioPaddr) :
    (∀ a ∈ l.kernelPages, pageSize ∣ a ∧ kernelBase ≤ a ∧ a < 2 ^ 32) ∧
      (∀ a ∈ devicePages, pageSize ∣ a ∧ virtioPaddr ≤ a ∧ a < kernelBase) ∧
      ∀ off ∈ pageAddrs 0 n, pageSize ∣ userBase + off ∧ userBase + off < virtioPaddr := by
  refine ⟨fun a ha => ?_, by decide, fun off hoff => ?_⟩
  · have hlt := kernelPages_lt l a ha
    have hend := l.ram_end
    simp only [Layout.freeRamEnd] at hlt
    exact ⟨kernelPages_aligned l a ha, hlt.1, by omega⟩
  · obtain ⟨i, hi, rfl⟩ := mem_pageAddrs.mp hoff
    refine ⟨Nat.dvd_add (by decide) (offsets_aligned n _ hoff), ?_⟩
    simp only [userBase, virtioPaddr, pageSize] at hn hi ⊢
    omega

theorem key_injective {a b : ℕ} (ha : pageSize ∣ a ∧ a < 2 ^ 39) (hb : pageSize ∣ b ∧ b < 2 ^ 39)
    (h : key a = key b) : a = b := by
  have hp := (key_eq_iff ha.2 hb.2).mp h
  rw [← Nat.div_mul_cancel ha.1, hp, Nat.div_mul_cancel hb.1]

section
variable {l : Layout} {n : ℕ} {frames : List ℕ}

theorem spaceLeaves_kernel (hn : userBase + n ≤ virtioPaddr) {a : ℕ} (ha : a ∈ l.kernelPages) :
    spaceLeaves l n frames (key a) = some (a, kernelFlags) := by
  obtain ⟨hk, hd, hi⟩ := region_bounds l hn
  have hbig : kernelBase < 2 ^ 39 := by decide
  have hvirtio : virtioPaddr < kernelBase := by decide
  obtain ⟨hal, hlo, hhi⟩ := hk a ha
  rw [spaceLeaves, imageLeaves_apart, leaves_apart, leaves_mem _ ha]
  · intro b hb he
    obtain ⟨hbl, -, hlt⟩ := hk b hb
    exact key_injective ⟨hbl, by omega⟩ ⟨hal, by omega⟩ he
  · intro b hb he
    obtain ⟨hbl, -, hlt⟩ := hd b hb
    have := key_injective ⟨hbl, by omega⟩ ⟨hal, by omega⟩ he
    omega
  · intro r hr he
    obtain ⟨hbl, hlt⟩ := hi r.1 (List.of_mem_zip hr).1
    have := key_injective ⟨hbl, by omega⟩ ⟨hal, by omega⟩ he
    omega

theorem spaceLeaves_device (hn : userBase + n ≤ virtioPaddr) {a : ℕ} (ha : a ∈ devicePages) :
    spaceLeaves l n frames (key a) = some (a, deviceFlags) := by
  obtain ⟨-, hd, hi⟩ := region_bounds l hn
  have hbig : kernelBase < 2 ^ 39 := by decide
  obtain ⟨hal, hlo, hhi⟩ := hd a ha
  rw [spaceLeaves, imageLeaves_apart, leaves_mem _ ha]
  · intro b hb he
    obtain ⟨hbl, -, hlt⟩ := hd b hb
    exact key_injective ⟨hbl, by omega⟩ ⟨hal, by omega⟩ he
  · intro r hr he
    obtain ⟨hbl, hlt⟩ := hi r.1 (List.of_mem_zip hr).1
    have := key_injective ⟨hbl, by omega⟩ ⟨hal, by omega⟩ he
    omega

theorem pageAddrs_nodup (lo hi : ℕ) : (pageAddrs lo hi).Nodup := by
  refine List.Nodup.map (fun i j hij => ?_) List.nodup_range
  simp only [pageSize] at hij
  omega

theorem spaceLeaves_image (hn : userBase + n ≤ virtioPaddr) (hlen : frames.length = (pageAddrs 0 n).length)
    {r : ℕ × ℕ} (hr : r ∈ (pageAddrs 0 n).zip frames) :
    spaceLeaves l n frames (key (userBase + r.1)) = some (r.2, userFlags) := by
  obtain ⟨-, -, hi⟩ := region_bounds l hn
  have hbig : virtioPaddr < 2 ^ 39 := by decide
  have hfst : (((pageAddrs 0 n).zip frames).map Prod.fst).Nodup := by
    rw [List.map_fst_zip hlen.ge]
    exact pageAddrs_nodup 0 n
  obtain ⟨hal, hhi⟩ := hi r.1 (List.of_mem_zip hr).1
  apply imageLeaves_mem _ hr
  intro q hq he
  obtain ⟨hbl, hlt⟩ := hi q.1 (List.of_mem_zip hq).1
  have := key_injective ⟨hbl, by omega⟩ ⟨hal, by omega⟩ he
  exact List.inj_on_of_nodup_map hfst hq hr (by omega)

end

end ProcessSpace
