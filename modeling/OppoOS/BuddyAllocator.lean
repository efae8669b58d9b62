import OppoOS.ByteMemory
import OppoOS.BuddySystem

/-!
# The kernel's page allocator

`klib/stdlib.c`: the buddy allocator, whose free lists are threaded through the free
blocks themselves, and the memory routines it uses. Addresses are natural numbers; the
heap ends below 2^64, so no address computation below it wraps. Loops that walk a free
list take fuel, since a corrupted list need not end.
-/
namespace BuddyAllocator

open ByteMemory Function

def pageSize : ℕ := 4096
def maxOrder : ℕ := 10

/-- Memory and the array of list heads (`free_lists`, a kernel global). -/
structure Machine where
  mem : Mem
  freeLists : ℕ → ℕ

/-- `while (size < pages && order <= MAX_ORDER)`; the counter bounds the iterations. -/
def orderLoop (pages : ℕ) : ℕ → ℕ → ℕ → ℕ
  | 0, order, _ => order
  | n + 1, order, size =>
    if size < pages ∧ order ≤ maxOrder then orderLoop pages n (order + 1) (size <<< 1)
    else order

def orderForPages (pages : ℕ) : ℕ := orderLoop pages (maxOrder + 1) 0 1

def buddyAddr (addr order : ℕ) : ℕ := addr ^^^ (pageSize <<< order)

/-- `block->next = free_lists[order]; free_lists[order] = block`. -/
def pushBlock (σ : Machine) (order addr : ℕ) : Machine :=
  { mem := store64 σ.mem addr (σ.freeLists order)
    freeLists := update σ.freeLists order addr }

/-- The inner loop of `init_memory`; every iteration takes at least one page, so
`total_pages` itself bounds the iterations. -/
def initLoop (order : ℕ) : ℕ → Machine → ℕ → ℕ → Machine × ℕ × ℕ
  | 0, σ, addr, total => (σ, addr, total)
  | n + 1, σ, addr, total =>
    if 1 <<< order ≤ total then
      initLoop order n (pushBlock σ order addr) (addr + (1 <<< order) * pageSize)
        (total - 1 <<< order)
    else (σ, addr, total)

/-- The outer loop: orders below the counter are still to do, the largest first. -/
def initOrders : ℕ → Machine → ℕ → ℕ → Machine
  | 0, σ, _, _ => σ
  | order + 1, σ, addr, total =>
    let r := initLoop order total σ addr total
    initOrders order r.1 r.2.1 r.2.2

def initMemory (σ : Machine) (heapStart heapEnd : ℕ) : Machine :=
  initOrders (maxOrder + 1) σ heapStart ((heapEnd - heapStart) / pageSize)

/-- `while (curr_order <= MAX_ORDER && !free_lists[curr_order]) curr_order++`, with the
number of orders left as the counter. -/
def findOrder (σ : Machine) : ℕ → ℕ → ℕ
  | 0, curr => curr
  | n + 1, curr => if σ.freeLists curr = 0 then findOrder σ n (curr + 1) else curr

/-- One iteration of the splitting loop at `curr_order`. -/
def splitStep (σ : Machine) (curr : ℕ) : Machine :=
  let block := σ.freeLists curr
  let lists := update σ.freeLists curr (load64 σ.mem block)
  let buddy1 := block
  let buddy2 := buddy1 + (pageSize <<< (curr - 1))
  let mem := store64 σ.mem buddy1 buddy2
  let mem := store64 mem buddy2 (lists (curr - 1))
  { mem := mem, freeLists := update lists (curr - 1) buddy1 }

/-- `while (curr_order > order)`, from `curr_order = order + n`. -/
def splitLoop (order : ℕ) : ℕ → Machine → Machine
  | 0, σ => σ
  | n + 1, σ => splitLoop order n (splitStep σ (order + n + 1))

/-- The returned pointer, 0 for NULL, and the state after the call. -/
def kallocOrder (σ : Machine) (order : ℕ) : ℕ × Machine :=
  if maxOrder < order then (0, σ)
  else
    let curr := findOrder σ (maxOrder + 1 - order) order
    if maxOrder < curr then (0, σ)
    else
      let σ' := splitLoop order (curr - order) σ
      let result := σ'.freeLists order
      (result, { σ' with freeLists := update σ'.freeLists order (load64 σ'.mem result) })

/-- `while (n--) *ptr++ = byte`. -/
def memset (m : Mem) (dest : ℕ) (value : UInt8) : ℕ → Mem
  | 0 => m
  | n + 1 => memset (store8 m dest value) (dest + 1) value n

/-- `while (len--) *d++ = *s++`. -/
def memcpy (m : Mem) (dest src : ℕ) : ℕ → Mem
  | 0 => m
  | n + 1 => memcpy (store8 m dest (m src)) (dest + 1) (src + 1) n

/-- The page is cleared whether or not the allocation succeeded: on NULL the clearing
starts at address 0. -/
def kalloc (σ : Machine) (n : ℕ) : ℕ × Machine :=
  let r := kallocOrder σ (orderForPages n)
  (r.1, { r.2 with mem := memset r.2.mem r.1 0 (pageSize * n % 2 ^ 64) })

/-- `prev->next = curr->next`, or the list head when there is no predecessor. -/
def unlinkBlock (σ : Machine) (order prev curr : ℕ) : Machine :=
  if prev ≠ 0 then { σ with mem := store64 σ.mem prev (load64 σ.mem curr) }
  else { σ with freeLists := update σ.freeLists order (load64 σ.mem curr) }

/-- The search `while (curr)`: `none` when the fuel runs out, `some none` when the list
ends without the buddy, else the state with the buddy removed. -/
def searchList (σ : Machine) (order buddy : ℕ) : ℕ → ℕ → ℕ → Option (Option Machine)
  | 0, _, _ => none
  | fuel + 1, prev, curr =>
    if curr = 0 then some none
    else if curr = buddy then some (some (unlinkBlock σ order prev curr))
    else searchList σ order buddy fuel curr (load64 σ.mem curr)

/-- `while (order < MAX_ORDER)`, with `MAX_ORDER - order` as the counter. -/
def mergeLoop (fuel : ℕ) : ℕ → Machine → ℕ → ℕ → Option (Machine × ℕ × ℕ)
  | 0, σ, addr, order => some (σ, addr, order)
  | n + 1, σ, addr, order =>
    let buddy := buddyAddr addr order
    match searchList σ order buddy fuel 0 (σ.freeLists order) with
    | none => none
    | some none => some (σ, addr, order)
    | some (some σ') =>
      mergeLoop fuel n σ' (if addr < buddy then addr else buddy) (order + 1)

def kfreeOrder (fuel : ℕ) (σ : Machine) (ptr order : ℕ) : Option Machine :=
  if maxOrder < order then some σ
  else
    match mergeLoop fuel (maxOrder - order) σ ptr order with
    | none => none
    | some (σ', addr, order') => some (pushBlock σ' order' addr)

/-- Pages needed for `bytes`, in 64-bit arithmetic. -/
def pagesForBytes (bytes : ℕ) : ℕ := (bytes + pageSize - 1) % 2 ^ 64 / pageSize

def kfreeSize (fuel : ℕ) (σ : Machine) (ptr bytes : ℕ) : Option Machine :=
  kfreeOrder fuel σ ptr (orderForPages (pagesForBytes bytes))

theorem orderLoop_spec (pages : ℕ) (n order size : ℕ) (hs : size = 2 ^ order)
    (hn : order + n = maxOrder + 1) (hlt : order = 0 ∨ 2 ^ (order - 1) < pages) :
    (pages ≤ 2 ^ orderLoop pages n order size ∧ orderLoop pages n order size ≤ maxOrder) ∨
      (2 ^ maxOrder < pages ∧ orderLoop pages n order size = maxOrder + 1) := by
  induction n generalizing order size with
  | zero =>
    right
    have ho : order = maxOrder + 1 := by omega
    refine ⟨?_, ho⟩
    rcases hlt with h | h
    · omega
    · rwa [ho, Nat.add_sub_cancel] at h
  | succ n ih =>
    unfold orderLoop
    split
    · next h =>
      refine ih (order + 1) (size <<< 1) ?_ (by omega) (Or.inr ?_)
      · rw [Nat.shiftLeft_eq, hs, pow_one, ← pow_succ]
      · rw [Nat.add_sub_cancel, ← hs]
        exact h.1
    · next h =>
      left
      have ho : order ≤ maxOrder := by omega
      exact ⟨by rw [← hs]; omega, ho⟩

theorem orderForPages_spec (pages : ℕ) :
    (pages ≤ 2 ^ orderForPages pages ∧ orderForPages pages ≤ maxOrder) ∨
      (2 ^ maxOrder < pages ∧ orderForPages pages = maxOrder + 1) :=
  orderLoop_spec pages _ 0 1 rfl (by omega) (Or.inl rfl)

theorem memset_apply (m : Mem) (dest : ℕ) (v : UInt8) (n x : ℕ) :
    memset m dest v n x = if dest ≤ x ∧ x < dest + n then v else m x := by
  induction n generalizing m dest with
  | zero => rw [if_neg (by omega)]; rfl
  | succ n ih =>
    rw [memset, ih]
    by_cases hx : x = dest
    · subst hx
      rw [if_neg (by omega), if_pos (by omega)]
      simp [store8]
    · simp only [store8, if_neg hx]
      by_cases h : dest + 1 ≤ x ∧ x < dest + 1 + n
      · rw [if_pos h, if_pos (by omega)]
      · rw [if_neg h, if_neg (by omega)]

theorem memcpy_apply (m : Mem) (dest src n x : ℕ)
    (h : ∀ y, src ≤ y → y < src + n → ¬ (dest ≤ y ∧ y < dest + n)) :
    memcpy m dest src n x = if dest ≤ x ∧ x < dest + n then m (src + (x - dest)) else m x := by
  induction n generalizing m dest src with
  | zero => rw [if_neg (by omega)]; rfl
  | succ n ih =>
    rw [memcpy, ih]
    · by_cases hx : dest + 1 ≤ x ∧ x < dest + 1 + n
      · rw [if_pos hx, if_pos (by omega), store8, if_neg]
        · congr 1
          omega
        · intro he
          exact h (src + 1 + (x - (dest + 1))) (by omega) (by omega) (by omega)
      · rw [if_neg hx, store8]
        by_cases hd : x = dest
        · rw [if_pos hd, if_pos (by omega), hd, Nat.sub_self, Nat.add_zero]
        · rw [if_neg hd, if_neg (by omega)]
    · intro y hl hr hc
      exact h y (by omega) (by omega) (by omega)

theorem memcpy_outside (m : Mem) (dest src n x : ℕ) (h : x < dest ∨ dest + n ≤ x) :
    memcpy m dest src n x = m x := by
  induction n generalizing m dest src with
  | zero => rfl
  | succ n ih =>
    rw [memcpy, ih _ _ _ (by omega), store8, if_neg (by omega)]

end BuddyAllocator
