import Mathlib.Data.List.Pairwise
import Mathlib.Data.Nat.Find

/-!
# Maximal runs

The maximal runs of positions with a property, from left to right.
-/
namespace MaximalRuns

variable {T : ℕ → Prop}

/-- The positions from `i` up to before `j` have the property, those next to them do not. -/
structure IsRun (T : ℕ → Prop) (i j : ℕ) : Prop where
  nonempty : i < j
  inside : ∀ k, i ≤ k → k < j → T k
  left : ∀ k, k + 1 = i → ¬ T k
  right : ¬ T j

/-- The maximal runs at or behind `a`, from left to right. -/
def RunsFrom (T : ℕ → Prop) : ℕ → List (ℕ × ℕ) → Prop
  | a, [] => ∀ k, a ≤ k → ¬ T k
  | a, (i, j) :: runs =>
    (a ≤ i ∧ ∀ k, a ≤ k → k < i → ¬ T k) ∧ (i < j ∧ ∀ k, i ≤ k → k < j → T k) ∧ ¬ T j ∧
      RunsFrom T j runs

theorem IsRun.end_unique {i j j' : ℕ} (h : IsRun T i j) (h' : IsRun T i j') : j = j' := by
  have hn := h.nonempty
  have hn' := h'.nonempty
  rcases Nat.lt_trichotomy j j' with hlt | heq | hgt
  · exact absurd (h'.inside j (by omega) hlt) h.right
  · exact heq
  · exact absurd (h.inside j' (by omega) hgt) h'.right

variable {a : ℕ} {runs : List (ℕ × ℕ)}

theorem RunsFrom.succ (h : RunsFrom T a runs) (ha : ¬ T a) : RunsFrom T (a + 1) runs := by
  cases runs with
  | nil => exact fun k hk => h k (by omega)
  | cons r runs =>
    obtain ⟨⟨hle, hgap⟩, hrun, hrest⟩ := h
    have hne : a ≠ r.1 := by
      rintro rfl
      exact ha (hrun.2 _ le_rfl hrun.1)
    exact ⟨⟨by omega, fun k hk => hgap k (by omega)⟩, hrun, hrest⟩

theorem RunsFrom.lt (h : RunsFrom T a runs) {r : ℕ × ℕ} (hr : r ∈ runs) : a ≤ r.1 ∧ r.1 < r.2 := by
  induction runs generalizing a with
  | nil => cases hr
  | cons s runs ih =>
    obtain ⟨hstart, hrun, -, hrest⟩ := h
    rcases List.mem_cons.mp hr with rfl | hr
    · exact ⟨hstart.1, hrun.1⟩
    · have hlt := ih hrest hr
      omega

theorem RunsFrom.pairwise (h : RunsFrom T a runs) :
    runs.Pairwise fun r s => r.2 < s.1 := by
  induction runs generalizing a with
  | nil => exact List.Pairwise.nil
  | cons r runs ih =>
    obtain ⟨-, -, hend, hrest⟩ := h
    exact List.Pairwise.cons (fun s hs => ((hrest.succ hend).lt hs).1) (ih hrest)

theorem RunsFrom.mem_iff (h : RunsFrom T a runs) (ha : ∀ k, k + 1 = a → ¬ T k) {i j : ℕ} :
    (i, j) ∈ runs ↔ IsRun T i j ∧ a ≤ i := by
  induction runs generalizing a with
  | nil =>
    refine iff_of_false List.not_mem_nil ?_
    rintro ⟨hr, hle⟩
    exact h i hle (hr.inside i le_rfl hr.nonempty)
  | cons r runs ih =>
    obtain ⟨⟨hle, hgap⟩, ⟨hlt, hin⟩, hend, hrest⟩ := h
    have hleft : ∀ k, k + 1 = r.1 → ¬ T k := by
      intro k hk
      rcases Nat.lt_or_ge k a with hka | hka
      · exact ha k (by omega)
      · exact hgap k hka (by omega)
    have hfirst : IsRun T r.1 r.2 := ⟨hlt, hin, hleft, hend⟩
    have hnext := ih (hrest.succ hend) fun k hk => by
      obtain rfl : k = r.2 := by omega
      exact hend
    rw [List.mem_cons, hnext]
    constructor
    · rintro (heq | ⟨hr, hri⟩)
      · obtain ⟨rfl, rfl⟩ := Prod.mk.inj heq
        exact ⟨hfirst, hle⟩
      · exact ⟨hr, by omega⟩
    · rintro ⟨hr, hai⟩
      rcases Nat.lt_trichotomy i r.1 with hlt' | rfl | hgt
      · exact absurd (hr.inside i le_rfl hr.nonempty) (hgap i hai hlt')
      · obtain rfl := hr.end_unique hfirst
        exact Or.inl rfl
      · refine Or.inr ⟨hr, ?_⟩
        -- a run that starts inside the first one would have a position of it to its left
        by_contra hge
        rcases Nat.lt_or_ge r.2 i with hji | hij
        · omega
        · rcases Nat.lt_or_ge i r.2 with hir | hri
          · exact hr.left (i - 1) (by omega) (hin (i - 1) (by omega) (by omega))
          · obtain rfl : i = r.2 := by omega
            exact hend (hr.inside _ le_rfl hr.nonempty)

theorem exists_next {P : ℕ → Prop} {b : ℕ} (hab : a ≤ b) (hb : P b) :
    ∃ i, a ≤ i ∧ i ≤ b ∧ P i ∧ ∀ k, a ≤ k → k < i → ¬ P k := by
  classical
  have hex : ∃ n, P (a + n) := ⟨b - a, by rwa [Nat.add_sub_cancel' hab]⟩
  refine ⟨a + Nat.find hex, by omega, ?_, Nat.find_spec hex, ?_⟩
  · have hmin := Nat.find_min' hex (m := b - a) (by rwa [Nat.add_sub_cancel' hab])
    omega
  · intro k hk hlt
    have hnot := Nat.find_min hex (m := k - a) (by omega)
    rwa [Nat.add_sub_cancel' hk] at hnot

/-- A property without positions from `e` on has finitely many runs. -/
theorem exists_runsFrom {e : ℕ} (he : ∀ k, e ≤ k → ¬ T k) (a : ℕ) : ∃ runs, RunsFrom T a runs := by
  induction hn : e - a using Nat.strong_induction_on generalizing a with
  | h n ih =>
    by_cases hex : ∃ b, a ≤ b ∧ T b
    · obtain ⟨b, hab, hb⟩ := hex
      obtain ⟨i, hai, -, hi, hgap⟩ := exists_next hab hb
      have hie : i < e := by
        by_contra hge
        exact he i (by omega) hi
      obtain ⟨j, hij, -, hj, hin⟩ := exists_next (P := fun k => ¬ T k) (Nat.le_of_lt hie)
        (he e le_rfl)
      have hlt : i < j := Nat.lt_of_le_of_ne hij fun heq => hj (heq ▸ hi)
      obtain ⟨runs, hruns⟩ := ih (e - j) (by omega) j rfl
      exact ⟨(i, j) :: runs, ⟨hai, hgap⟩, ⟨hlt, fun k hk hkj => not_not.mp (hin k hk hkj)⟩, hj,
        hruns⟩
    · push Not at hex
      exact ⟨[], hex⟩

end MaximalRuns
