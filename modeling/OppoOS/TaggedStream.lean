import Mathlib.Data.List.Basic

/-!
# Streams with several owners

Items are logged with their owner when they are requested and again when they are served.
A log is balanced when each owner's requests are its served items, in order, and behind them
what is still pending: nothing is lost, repeated or taken from another owner.
-/
namespace TaggedStream

variable {ι α : Type} [DecidableEq ι]

/-- The items of one owner. -/
def of (p : ι) (log : List (ι × α)) : List α := (log.filter fun x => x.1 = p).map Prod.snd

def Balanced (asked served : List (ι × α)) (pending : ι → List α) : Prop :=
  ∀ p, of p asked = of p served ++ pending p

@[simp] theorem of_nil (p : ι) : of p ([] : List (ι × α)) = [] := rfl

theorem of_snoc_self (p : ι) (log : List (ι × α)) (x : α) :
    of p (log ++ [(p, x)]) = of p log ++ [x] := by
  simp [of]

theorem of_snoc_other {p q : ι} (h : p ≠ q) (log : List (ι × α)) (x : α) :
    of p (log ++ [(q, x)]) = of p log := by
  simp [of, Ne.symm h]

theorem of_sublist (p : ι) (log : List (ι × α)) :
    (of p log).Sublist (log.map Prod.snd) := List.filter_sublist.map Prod.snd

theorem of_eq_map {p : ι} {log : List (ι × α)} (h : ∀ x ∈ log, x.1 = p) :
    of p log = log.map Prod.snd := by
  rw [of, List.filter_eq_self.mpr fun x hx => decide_eq_true (h x hx)]

variable {asked served : List (ι × α)} {pending pending' : ι → List α}

theorem Balanced.congr (h : Balanced asked served pending) (he : ∀ p, pending' p = pending p) :
    Balanced asked served pending' := fun p => by rw [he p, h p]

theorem Balanced.request (h : Balanced asked served pending) {p : ι} {x : α}
    (hp : pending' p = pending p ++ [x]) (ho : ∀ q, q ≠ p → pending' q = pending q) :
    Balanced (asked ++ [(p, x)]) served pending' := by
  intro q
  by_cases hq : q = p
  · subst hq
    rw [of_snoc_self, h q, hp, List.append_assoc]
  · rw [of_snoc_other hq, h q, ho q hq]

theorem Balanced.serve (h : Balanced asked served pending) {p : ι} {x : α}
    (hp : pending p = x :: pending' p) (ho : ∀ q, q ≠ p → pending' q = pending q) :
    Balanced asked (served ++ [(p, x)]) pending' := by
  intro q
  by_cases hq : q = p
  · subst hq
    rw [of_snoc_self, h q, hp, List.append_assoc, List.singleton_append]
  · rw [of_snoc_other hq, h q, ho q hq]

theorem Balanced.served_prefix (h : Balanced asked served pending) (p : ι) :
    of p served <+: of p asked := ⟨pending p, (h p).symm⟩

end TaggedStream
