import Mathlib.Data.List.Basic
import Mathlib.Logic.Function.Basic

/-!
# Logs of writes

What a memory holds after writes performed in order.
-/
namespace WriteLog

open Function

variable {κ ν : Type*} [DecidableEq κ]

def apply (f : κ → ν) (log : List (κ × ν)) : κ → ν := log.foldl (fun f e => update f e.1 e.2) f

/-- `k` is not written and holds `v` before, or the last write to `k` writes `v`. -/
def Holds (f : κ → ν) (log : List (κ × ν)) (k : κ) (v : ν) : Prop :=
  (k ∉ log.map Prod.fst ∧ f k = v) ∨
    ∃ front back, log = front ++ (k, v) :: back ∧ k ∉ back.map Prod.fst

@[simp] theorem apply_nil (f : κ → ν) : apply f [] = f := rfl

theorem apply_cons (f : κ → ν) (e : κ × ν) (log : List (κ × ν)) :
    apply f (e :: log) = apply (update f e.1 e.2) log := rfl

theorem apply_append (f : κ → ν) (log log' : List (κ × ν)) :
    apply f (log ++ log') = apply (apply f log) log' := List.foldl_append

theorem apply_outside {log : List (κ × ν)} {k : κ} (h : k ∉ log.map Prod.fst) (f : κ → ν) :
    apply f log k = f k := by
  induction log generalizing f with
  | nil => rfl
  | cons e log ih =>
    rw [List.map_cons, List.mem_cons, not_or] at h
    rw [apply_cons, ih h.2, update_of_ne h.1]

theorem apply_last {front back : List (κ × ν)} {k : κ} (h : k ∉ back.map Prod.fst) (f : κ → ν)
    (v : ν) : apply f (front ++ (k, v) :: back) k = v := by
  rw [apply_append, apply_cons, apply_outside h, update_self]

theorem exists_last {log : List (κ × ν)} {k : κ} (h : k ∈ log.map Prod.fst) :
    ∃ v front back, log = front ++ (k, v) :: back ∧ k ∉ back.map Prod.fst := by
  induction log with
  | nil => cases h
  | cons e log ih =>
    by_cases hl : k ∈ log.map Prod.fst
    · obtain ⟨v, front, back, rfl, hb⟩ := ih hl
      exact ⟨v, e :: front, back, rfl, hb⟩
    · rw [List.map_cons, List.mem_cons] at h
      have he : k = e.1 := h.resolve_right hl
      exact ⟨e.2, [], log, by rw [he]; rfl, hl⟩

theorem apply_eq_iff {f : κ → ν} {log : List (κ × ν)} {k : κ} {v : ν} :
    apply f log k = v ↔ Holds f log k v := by
  constructor
  · rintro rfl
    by_cases hk : k ∈ log.map Prod.fst
    · obtain ⟨v, front, back, rfl, hb⟩ := exists_last hk
      exact Or.inr ⟨front, back, by rw [apply_last hb], hb⟩
    · exact Or.inl ⟨hk, (apply_outside hk f).symm⟩
  · rintro (⟨hk, rfl⟩ | ⟨front, back, rfl, hb⟩)
    · exact apply_outside hk f
    · exact apply_last hb f v

end WriteLog
