import OppoOS.ByteMemory

/-!
# Multi-level tables in byte memory

A tree of equally large tables of 64-bit entries. A path is the list of indexes leading from
the root to a table, the last index first. Tables above the last level hold branches to
tables, tables of the last level hold leaves; the zero word is the empty entry.
-/
namespace TableTree

open ByteMemory Function

/-- Entries of a table, levels of tables, and the words that stand for entries. -/
structure Format (α : Type*) where
  fan : ℕ
  depth : ℕ
  branch : ℕ → ℕ
  leaf : α → ℕ

def entryAddr (t i : ℕ) : ℕ := t + 8 * i

variable {α : Type*} {F : Format α} {m : Mem} {root : ℕ} {loc : List ℕ → Option ℕ}
  {M : List ℕ → Option α}

def Format.entry (F : Format α) (loc : List ℕ → Option ℕ) (M : List ℕ → Option α)
    (p : List ℕ) (i : ℕ) : ℕ :=
  if p.length + 1 < F.depth then (loc (i :: p)).elim 0 F.branch
  else (M (i :: p)).elim 0 F.leaf

/-- Where the tables are: a prefix-closed set of paths, no two tables overlapping. -/
structure Shape (F : Format α) (root : ℕ) (loc : List ℕ → Option ℕ) : Prop where
  root_loc : loc [] = some root
  short : ∀ {p t}, loc p = some t → p.length < F.depth
  parent : ∀ {i p t}, loc (i :: p) = some t → i < F.fan ∧ ∃ u, loc p = some u
  apart : ∀ {p q t u}, loc p = some t → loc q = some u → p ≠ q →
    t + 8 * F.fan ≤ u ∨ u + 8 * F.fan ≤ t

/-- Memory holds the tree of tables `loc` with the leaves `M`. -/
structure Stores (F : Format α) (m : Mem) (root : ℕ) (loc : List ℕ → Option ℕ)
    (M : List ℕ → Option α) : Prop extends Shape F root loc where
  mapped : ∀ {i p a}, M (i :: p) = some a →
    i < F.fan ∧ p.length + 1 = F.depth ∧ ∃ t, loc p = some t
  entries : ∀ {p t i}, loc p = some t → i < F.fan →
    load64 m (entryAddr t i) = F.entry loc M p i

/-- `u` is the start of a table apart from all tables of the tree. -/
def Apart (F : Format α) (loc : List ℕ → Option ℕ) (u : ℕ) : Prop :=
  ∀ p t, loc p = some t → t + 8 * F.fan ≤ u ∨ u + 8 * F.fan ≤ t

def SameTables (F : Format α) (loc : List ℕ → Option ℕ) (m m' : Mem) : Prop :=
  ∀ p t, loc p = some t → AgreeOn m m' t (8 * F.fan)

theorem Shape.no_child (h : Shape F root loc) {p : List ℕ} (hp : loc p = none) (i : ℕ) :
    loc (i :: p) = none := by
  cases hc : loc (i :: p) with
  | none => rfl
  | some t =>
    obtain ⟨-, u, hu⟩ := h.parent hc
    rw [hp] at hu
    cases hu

theorem Shape.load_store (h : Shape F root loc) {p q : List ℕ} {t u i j v : ℕ}
    (hp : loc p = some t) (hq : loc q = some u) (hi : i < F.fan) (hj : j < F.fan) :
    load64 (store64 m (entryAddr t i) v) (entryAddr u j) =
      if q = p ∧ j = i then v % 2 ^ 64 else load64 m (entryAddr u j) := by
  by_cases hqp : q = p
  · subst hqp
    obtain rfl : t = u := by
      rw [hp] at hq
      simpa using hq
    by_cases hji : j = i
    · subst hji
      rw [if_pos ⟨rfl, rfl⟩, load64_store64_same]
    · rw [if_neg (fun hc => hji hc.2)]
      apply load64_store64_disjoint
      unfold entryAddr
      omega
  · rw [if_neg (fun hc => hqp hc.1)]
    apply load64_store64_disjoint
    have ha := h.apart hp hq (Ne.symm hqp)
    unfold entryAddr
    omega

theorem Shape.link (h : Shape F root loc) {p : List ℕ} {i t u : ℕ} (hp : loc p = some t)
    (hi : i < F.fan) (hlen : p.length + 1 < F.depth) (hu : Apart F loc u) :
    Shape F root (update loc (i :: p) (some u)) where
  root_loc := by rw [update_of_ne (by simp), h.root_loc]
  short := by
    intro q w hq
    by_cases hqp : q = i :: p
    · rw [hqp]
      exact hlen
    · rw [update_of_ne hqp] at hq
      exact h.short hq
  parent := by
    intro j q w hq
    have hex : ∀ {r v}, loc r = some v → ∃ v, update loc (i :: p) (some u) r = some v := by
      intro r v hr
      by_cases hrp : r = i :: p
      · exact ⟨u, by rw [hrp, update_self]⟩
      · exact ⟨v, by rw [update_of_ne hrp, hr]⟩
    by_cases hqp : j :: q = i :: p
    · obtain ⟨rfl, rfl⟩ := List.cons.inj hqp
      exact ⟨hi, hex hp⟩
    · rw [update_of_ne hqp] at hq
      obtain ⟨hj, v, hv⟩ := h.parent hq
      exact ⟨hj, hex hv⟩
  apart := by
    intro q r v w hq hr hne
    by_cases hqp : q = i :: p
    · subst hqp
      rw [update_self] at hq
      rw [update_of_ne (Ne.symm hne)] at hr
      obtain rfl : u = v := by simpa using hq
      exact (hu r w hr).symm
    · rw [update_of_ne hqp] at hq
      by_cases hrp : r = i :: p
      · subst hrp
        rw [update_self] at hr
        obtain rfl : u = w := by simpa using hr
        exact hu q v hq
      · rw [update_of_ne hrp] at hr
        exact h.apart hq hr hne

theorem stores_empty (hd : 0 < F.depth)
    (hz : ∀ x, root ≤ x → x < root + 8 * F.fan → m x = 0) :
    Stores F m root (update (fun _ => none) [] (some root)) fun _ => none where
  root_loc := update_self ..
  short := by
    intro p t hp
    by_cases h : p = []
    · rwa [h]
    · rw [update_of_ne h] at hp
      cases hp
  parent := by
    intro i p t hp
    rw [update_of_ne (by simp)] at hp
    cases hp
  apart := by
    intro p q t u hp hq hne
    by_cases h : p = []
    · rw [update_of_ne (fun hc => hne (h.trans hc.symm))] at hq
      cases hq
    · rw [update_of_ne h] at hp
      cases hp
  mapped := by
    intro i p a ha
    cases ha
  entries := by
    intro p t i hp hi
    by_cases h : p = []
    · subst h
      rw [update_self] at hp
      obtain rfl : root = t := by simpa using hp
      rw [Format.entry, update_of_ne (by simp)]
      rw [load64_zero m _ fun x hl hr => hz x (by unfold entryAddr at hl; omega)
        (by unfold entryAddr at hr; omega)]
      split <;> rfl
    · rw [update_of_ne h] at hp
      cases hp

theorem Stores.frame {m' : Mem} (h : Stores F m root loc M) (hm : SameTables F loc m m') :
    Stores F m' root loc M where
  toShape := h.toShape
  mapped := h.mapped
  entries := by
    intro p t i hp hi
    rw [← h.entries hp hi]
    apply load64_congr
    exact (hm p t hp).mono (by unfold entryAddr; omega) (by unfold entryAddr; omega)

/-- A branch to a fresh zeroed table. -/
theorem Stores.link (h : Stores F m root loc M) {p : List ℕ} {i t u : ℕ} (hp : loc p = some t)
    (hi : i < F.fan) (hlen : p.length + 1 < F.depth) (hnew : loc (i :: p) = none)
    (hu : Apart F loc u) (hz : ∀ x, u ≤ x → x < u + 8 * F.fan → m x = 0)
    (hb : F.branch u < 2 ^ 64) :
    Stores F (store64 m (entryAddr t i) (F.branch u)) root (update loc (i :: p) (some u)) M where
  toShape := h.toShape.link hp hi hlen hu
  mapped := by
    intro j q a ha
    obtain ⟨hj, hq, v, hv⟩ := h.mapped ha
    refine ⟨hj, hq, v, ?_⟩
    rwa [update_of_ne]
    rintro rfl
    rw [hnew] at hv
    cases hv
  entries := by
    intro q w j hq hj
    have hne : i :: p ≠ p := List.cons_ne_self i p
    by_cases hqp : q = i :: p
    · -- the new table is empty
      subst hqp
      rw [update_self] at hq
      obtain rfl : u = w := by simpa using hq
      have happ := hu p t hp
      rw [load64_store64_disjoint _ _ _ _ (by unfold entryAddr; omega),
        load64_zero m _ fun x hl hr => hz x (by unfold entryAddr at hl; omega)
          (by unfold entryAddr at hr; omega)]
      unfold Format.entry
      rw [update_of_ne (List.cons_ne_self j _), h.no_child hnew]
      cases hM : M (j :: i :: p) with
      | none => split <;> rfl
      | some a =>
        obtain ⟨-, -, v, hv⟩ := h.mapped hM
        rw [hnew] at hv
        cases hv
    · rw [update_of_ne hqp] at hq
      rw [h.load_store hp hq hi hj]
      by_cases hc : q = p ∧ j = i
      · obtain ⟨rfl, rfl⟩ := hc
        rw [if_pos ⟨rfl, rfl⟩, Nat.mod_eq_of_lt hb, Format.entry, if_pos hlen, update_self]
        rfl
      · rw [if_neg hc, h.entries hq hj, Format.entry, Format.entry,
          update_of_ne fun he => hc ((List.cons.inj he).symm)]

theorem Stores.setLeaf (h : Stores F m root loc M) {p : List ℕ} {i t : ℕ} {a : α}
    (hp : loc p = some t) (hi : i < F.fan) (hlen : p.length + 1 = F.depth)
    (ha : F.leaf a < 2 ^ 64) :
    Stores F (store64 m (entryAddr t i) (F.leaf a)) root loc (update M (i :: p) (some a)) where
  toShape := h.toShape
  mapped := by
    intro j q b hb
    by_cases hqp : j :: q = i :: p
    · obtain ⟨rfl, rfl⟩ := List.cons.inj hqp
      exact ⟨hi, hlen, t, hp⟩
    · rw [update_of_ne hqp] at hb
      exact h.mapped hb
  entries := by
    intro q w j hq hj
    rw [h.load_store hp hq hi hj]
    by_cases hc : q = p ∧ j = i
    · obtain ⟨rfl, rfl⟩ := hc
      rw [if_pos ⟨rfl, rfl⟩, Nat.mod_eq_of_lt ha, Format.entry, if_neg (by omega), update_self]
      rfl
    · rw [if_neg hc, h.entries hq hj, Format.entry, Format.entry,
        update_of_ne fun he => hc ((List.cons.inj he).symm)]

end TableTree
