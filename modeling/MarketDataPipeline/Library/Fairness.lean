/-
# MarketDataPipeline.Library.Fairness — what must happen in an infinite run.

A run is a sequence of states, one for each moment, and fairness is that moments of some kind come
again and again (`Recurs`).  To show that a state of some kind is reached, give every state a *rank* in
a well-founded order that no step raises and that the steps at such moments lower (`reaches`).  What is
reached and then kept is there at every later moment (`persists`).
-/
import Mathlib.Order.WellFounded

namespace MarketDataPipeline.Library.Fairness

universe u

variable {β : Type u}

/-- Moments of this kind come again and again. -/
def Recurs (kind : Nat → Prop) : Prop := ∀ n, ∃ m, n ≤ m ∧ kind m

/-- A property that steps keep, from a moment at which it holds. -/
theorem persists {p : Nat → Prop} {n : Nat} (hstart : p n) (hkeep : ∀ m, n ≤ m → p m → p (m + 1)) :
    ∀ m, n ≤ m → p m :=
  fun _ hm => Nat.le_induction hstart hkeep _ hm

section Ranks

variable [Preorder β] {rank : Nat → β} {goal kind : Nat → Prop} {n : Nat}

/-- Up to any later moment the goal is met or the rank has not gone up. -/
theorem rank_le_or_reached (hstep : ∀ m, n ≤ m → ¬ goal m → goal (m + 1) ∨ rank (m + 1) ≤ rank m)
    {m : Nat} (hm : n ≤ m) : (∃ i, n ≤ i ∧ i ≤ m ∧ goal i) ∨ rank m ≤ rank n := by
  induction m, hm using Nat.le_induction with
  | base => exact Or.inr le_rfl
  | succ m hm ih =>
    rcases ih with ⟨i, hi, him, hg⟩ | hle
    · exact Or.inl ⟨i, hi, Nat.le_succ_of_le him, hg⟩
    by_cases hg : goal m
    · exact Or.inl ⟨m, hm, Nat.le_succ m, hg⟩
    rcases hstep m hm hg with hg' | hle'
    · exact Or.inl ⟨m + 1, Nat.le_succ_of_le hm, le_rfl, hg'⟩
    · exact Or.inr (hle'.trans hle)

/-- **Progress by rank.** If no step raises the rank and the steps at recurring moments lower it, unless
the goal is met, then the goal is met. -/
theorem reaches [WellFoundedLT β] (rank : Nat → β) (hrecurs : Recurs kind)
    (hstep : ∀ m, n ≤ m → ¬ goal m → goal (m + 1) ∨ rank (m + 1) ≤ rank m)
    (hhelp : ∀ m, n ≤ m → kind m → ¬ goal m → goal (m + 1) ∨ rank (m + 1) < rank m) :
    ∃ m, n ≤ m ∧ goal m := by
  -- induction on the rank at the moment from which the goal is looked for
  generalize hr : rank n = r
  induction r using WellFoundedLT.induction generalizing n with
  | ind r ih =>
    obtain ⟨m, hm, hkind⟩ := hrecurs n
    rcases rank_le_or_reached hstep hm with ⟨i, hi, -, hg⟩ | hle
    · exact ⟨i, hi, hg⟩
    by_cases hg : goal m
    · exact ⟨m, hm, hg⟩
    have hlater : n ≤ m + 1 := Nat.le_succ_of_le hm
    rcases hhelp m hm hkind hg with hg' | hlt
    · exact ⟨m + 1, hlater, hg'⟩
    obtain ⟨i, hi, hg'⟩ := ih (rank (m + 1)) (hr ▸ lt_of_lt_of_le hlt hle)
      (fun j hj => hstep j (hlater.trans hj)) (fun j hj => hhelp j (hlater.trans hj)) rfl
    exact ⟨i, hlater.trans hi, hg'⟩

end Ranks

end MarketDataPipeline.Library.Fairness
