/-
# MarketDataPipeline.Library.Displacement — what searching in a linear probing table costs.

Two sound tables with the same keys need not hold them in the same slots, but everything that can be
added up over the keys is the same in both: which slots are taken, and how far the keys stand from
home altogether.

The argument looks at the slots and not at the keys.  `passing` counts the entries whose search goes
past a slot.  What arrives at a slot either stops there or goes on, so the count at one slot gives the
count at the next (`Sound.passing_succ`), and a clear slot gives a place to start: around the cycle the
counts are determined by how many keys have their home where (`Carries.unique`).
-/
import Mathlib.Algebra.BigOperators.Group.Finset.Piecewise
import Mathlib.Algebra.BigOperators.Group.Finset.Sigma
import Mathlib.Data.Fintype.Fin
import MarketDataPipeline.Library.LinearProbing

namespace MarketDataPipeline.Library.LinearProbing

open Finset

variable {N : Nat} {K R β γ : Type}

/-! ## Around the cycle -/

/-- What holds at one slot and passes from each slot to the next holds at every slot. -/
theorem cycle_induction [NeZero N] {P : Fin N → Prop} (b : Fin N) (start : P b)
    (next : ∀ i, P i → P (i + 1)) (i : Fin N) : P i := by
  -- by induction on the number of steps from `b`
  suffices h : ∀ n i, dist b i = n → P i from h _ i rfl
  intro n
  induction n with
  | zero =>
    intro i hi
    rw [dist_eq_zero hi]
    exact start
  | succ n ih =>
    intro i hi
    have hne : i - 1 + 1 ≠ b := by
      rw [sub_add_cancel]
      rintro rfl
      rw [dist_self] at hi
      omega
    have hstep := dist_succ hne
    rw [sub_add_cancel] at hstep
    have hprev := next (i - 1) (ih (i - 1) (by omega))
    rwa [sub_add_cancel] at hprev

/-- A queue around the cycle: at each slot `c` newcomers join, one leaves if there is one, and
somewhere nobody is left. -/
structure Carries [NeZero N] (c e : Fin N → Nat) : Prop where
  next : ∀ i, e (i + 1) = e i + c (i + 1) - 1
  rest : ∃ b, e b = 0

/-- The shorter queue stays the shorter one. -/
theorem Carries.le [NeZero N] {c e e' : Fin N → Nat} (h : Carries c e) (h' : Carries c e') :
    ∀ i, e i ≤ e' i := by
  obtain ⟨b, hb⟩ := h.rest
  refine cycle_induction b ?_ ?_
  · show e b ≤ e' b
    rw [hb]
    exact Nat.zero_le _
  · intro i hi
    show e (i + 1) ≤ e' (i + 1)
    rw [h.next, h'.next]
    omega

theorem Carries.unique [NeZero N] {c e e' : Fin N → Nat} (h : Carries c e) (h' : Carries c e') :
    e = e' :=
  funext fun i => Nat.le_antisymm (h.le h' i) (h'.le h i)

/-- The slot before home is on no path. -/
theorem not_onPath_last [NeZero N] {a i s : Fin N} (h : i + 1 = a) : ¬ OnPath a s i := by
  have hlast := dist_closed h
  have hs := dist_lt a s
  unfold OnPath
  omega

theorem onPath_home {a s : Fin N} (h : s ≠ a) : OnPath a s a := by
  show dist a a < dist a s
  rw [dist_self]
  exact Nat.pos_of_ne_zero fun hz => h (dist_eq_zero hz)

/-- Who goes past a slot and does not stop at the next goes past that one too. -/
theorem onPath_succ [NeZero N] {a i s : Fin N} (h : i + 1 ≠ a) (hs : s ≠ i + 1) :
    OnPath a s (i + 1) ↔ OnPath a s i := by
  have hstep := dist_succ h
  have hne : dist a s ≠ dist a (i + 1) := fun heq => hs (dist_inj heq)
  unfold OnPath
  omega

/-- The slots before `s` on the way from `a`. -/
theorem card_onPath (a s : Fin N) : (univ.filter fun i => OnPath a s i).card = dist a s := by
  have : NeZero N := ⟨Nat.ne_of_gt a.pos⟩
  calc (univ.filter fun i => OnPath a s i).card
      = (univ.filter fun j : Fin N => j.val < dist a s).card := by
        apply card_bij (fun i _ => i - a)
        · intro i hi
          simpa [OnPath, dist] using hi
        · intro i _ j _ hij
          exact sub_left_injective hij
        · intro j hj
          exact ⟨j + a, by simpa [OnPath, dist] using hj, add_sub_cancel_right j a⟩
    _ = dist a s := by
        rw [Fin.card_filter_val_lt]
        exact Nat.min_eq_right (dist_lt a s).le

/-! ## The cost of a search -/

/-- The number of slots that `probe` visits. -/
def probeCount [NeZero N] (visit : Fin N → Option β) : Nat → Fin N → Nat
  | 0, _ => 0
  | n + 1, i =>
    match visit i with
    | some _ => 1
    | none => probeCount visit n (i + 1) + 1

section ProbeCount

variable [NeZero N] {visit : Fin N → Option β} {visit' : Fin N → Option γ} {a : Fin N}

/-- A search that ends at `s` has visited the slots before it and `s`. -/
theorem probeCount_first {s : Fin N} (hs : visit s ≠ none)
    (hpath : ∀ x, OnPath a s x → visit x = none) : probeCount visit N a = dist a s + 1 := by
  obtain ⟨b, hs⟩ := Option.ne_none_iff_exists'.mp hs
  have key : ∀ (n : Nat) (i : Fin N), dist a i ≤ dist a s → dist a s < dist a i + n →
      probeCount visit n i = dist a s - dist a i + 1 := by
    intro n
    induction n with
    | zero => intro i hle hlt; omega
    | succ n ih =>
      intro i hle hlt
      unfold probeCount
      rcases Nat.lt_or_ge (dist a i) (dist a s) with hbefore | hge
      · rw [hpath i hbefore]
        have hstep : dist a (i + 1) = dist a i + 1 := by
          apply dist_succ
          intro hclosed
          have hend := dist_closed hclosed
          have hN := dist_lt a s
          omega
        show probeCount visit n (i + 1) + 1 = dist a s - dist a i + 1
        rw [ih (i + 1) (by omega) (by omega)]
        omega
      · obtain rfl : i = s := dist_inj (Nat.le_antisymm hle hge)
        rw [hs]
        show 1 = dist a i - dist a i + 1
        omega
  have hN := dist_lt a s
  rw [key N a (by simp) (by simpa using hN), dist_self, Nat.sub_zero]

/-- The cost depends only on where the visits decide. -/
theorem probeCount_congr (h : ∀ x, visit x = none ↔ visit' x = none) (n : Nat) (i : Fin N) :
    probeCount visit n i = probeCount visit' n i := by
  induction n generalizing i with
  | zero => rfl
  | succ n ih =>
    unfold probeCount
    cases hv : visit i with
    | none =>
      rw [(h i).mp hv]
      show probeCount visit n (i + 1) + 1 = probeCount visit' n (i + 1) + 1
      rw [ih]
    | some b =>
      obtain ⟨b', hv'⟩ := Option.ne_none_iff_exists'.mp
        (fun hn => Option.some_ne_none b (hv.symm.trans ((h i).mpr hn)))
      rw [hv']

end ProbeCount

/-! ## Counting entries -/

section Tables

variable (key : R → Option K) (home : K → Fin N)

/-- The entries whose search goes past slot `i`. -/
def passing (T : Fin N → R) (i : Fin N) : Nat :=
  ∑ s, (key (T s)).elim 0 fun k => if OnPath (home k) s i then 1 else 0

/-- The distance of all entries from home. -/
def displacement (T : Fin N → R) : Nat := ∑ s, (key (T s)).elim 0 fun k => dist (home k) s

variable {key home}

/-- Each entry is displaced by the number of slots it passes. -/
theorem sum_passing (T : Fin N → R) : ∑ i, passing key home T i = displacement key home T := by
  unfold passing displacement
  rw [sum_comm]
  apply sum_congr rfl
  intro s _
  cases key (T s) with
  | none => simp
  | some k =>
    show (∑ i, if OnPath (home k) s i then 1 else 0) = dist (home k) s
    rw [← card_filter, card_onPath]

/-- A sum over the keys, taken over the slots that hold them. -/
theorem Sound.sum_live [DecidableEq K] {T : Fin N → R} (h : Sound key home T) {live : Finset K}
    (hlive : ∀ k, k ∈ live ↔ ∃ s, key (T s) = some k) (f : K → Nat) :
    ∑ k ∈ live, f k = ∑ s, (key (T s)).elim 0 f := by
  have hkey : ∀ k ∈ live, (∑ s, if key (T s) = some k then f k else 0) = f k := by
    intro k hk
    obtain ⟨s, hs⟩ := (hlive k).mp hk
    rw [sum_eq_single s]
    · rw [if_pos hs]
    · intro s' _ hne
      exact if_neg fun hs' => hne (h.unique s' s k hs' hs)
    · intro hmem
      exact absurd (mem_univ s) hmem
  have hslot : ∀ s, (∑ k ∈ live, if key (T s) = some k then f k else 0) = (key (T s)).elim 0 f := by
    intro s
    cases hs : key (T s) with
    | none => simp
    | some k₀ =>
      have hk₀ : k₀ ∈ live := (hlive k₀).mpr ⟨s, hs⟩
      simp [hk₀]
  calc ∑ k ∈ live, f k = ∑ k ∈ live, ∑ s, if key (T s) = some k then f k else 0 :=
        (sum_congr rfl hkey).symm
    _ = ∑ s, ∑ k ∈ live, if key (T s) = some k then f k else 0 := sum_comm
    _ = ∑ s, (key (T s)).elim 0 f := sum_congr rfl fun s _ => hslot s

/-- Slots on no path are passed by nobody. -/
theorem passing_eq_zero {T : Fin N → R} {i : Fin N} :
    passing key home T i = 0 ↔ Clear key home T i := by
  unfold passing
  rw [sum_eq_zero_iff]
  constructor
  · intro h s k hs hon
    have hzero := h s (mem_univ s)
    rw [hs] at hzero
    simp [hon] at hzero
  · intro h s _
    cases hs : key (T s) with
    | none => rfl
    | some k => exact if_neg (h s k hs)

/-- **What arrives at a slot stops there or goes on.** -/
theorem passing_add [NeZero N] (T : Fin N → R) (i : Fin N) :
    passing key home T i + (∑ s, (key (T s)).elim 0 fun k => if home k = i + 1 then 1 else 0)
      = passing key home T (i + 1) + (key (T (i + 1))).elim 0 fun _ => 1 := by
  have hstop : ((key (T (i + 1))).elim 0 fun _ => 1)
      = ∑ s, (key (T s)).elim 0 fun _ => if s = i + 1 then 1 else 0 := by
    rw [sum_eq_single (i + 1)]
    · simp
    · intro s _ hne
      cases key (T s) <;> simp [hne]
    · intro hmem
      exact absurd (mem_univ _) hmem
  unfold passing
  rw [hstop, ← sum_add_distrib, ← sum_add_distrib]
  apply sum_congr rfl
  intro s _
  cases key (T s) with
  | none => rfl
  | some k =>
    show ((if OnPath (home k) s i then 1 else 0) + if home k = i + 1 then 1 else 0)
      = (if OnPath (home k) s (i + 1) then 1 else 0) + if s = i + 1 then 1 else 0
    by_cases hhome : i + 1 = home k
    · -- an entry that starts here has not come from the slot before
      rw [if_neg (not_onPath_last hhome), if_pos hhome.symm, hhome]
      by_cases heq : s = home k
      · simp [OnPath, heq]
      · simp [onPath_home heq, heq]
    · rw [if_neg (Ne.symm hhome)]
      by_cases heq : s = i + 1
      · simp [OnPath, heq, dist_succ hhome]
      · simp [onPath_succ hhome heq, heq]

/-- A slot is taken exactly if something arrives at it. -/
theorem Sound.occupied_iff [NeZero N] {T : Fin N → R} (h : Sound key home T) (i : Fin N) :
    key (T (i + 1)) = none ↔
      passing key home T i + (∑ s, (key (T s)).elim 0 fun k => if home k = i + 1 then 1 else 0) = 0 := by
  rw [passing_add]
  cases hs : key (T (i + 1)) with
  | none => simp [passing_eq_zero.mpr (h.empties (i + 1) hs)]
  | some k => simp

/-- The entries that go past the slots are the queue that the homes of the keys make. -/
theorem Sound.carries [NeZero N] [DecidableEq K] {T : Fin N → R} (h : Sound key home T)
    {live : Finset K} (hlive : ∀ k, k ∈ live ↔ ∃ s, key (T s) = some k) :
    Carries (fun i => ∑ k ∈ live, if home k = i then 1 else 0) (passing key home T) where
  next := by
    intro i
    show _ = passing key home T i + (∑ k ∈ live, if home k = i + 1 then 1 else 0) - 1
    rw [h.sum_live hlive, passing_add]
    cases hs : key (T (i + 1)) with
    | none => simp [passing_eq_zero.mpr (h.empties (i + 1) hs)]
    | some k => simp
  rest := by
    obtain ⟨b, hb⟩ := h.spare
    exact ⟨b, passing_eq_zero.mpr hb⟩

section SameKeys

variable [NeZero N] [DecidableEq K] {T T' : Fin N → R} {live : Finset K}

/-- **The same keys pass every slot equally often**, in whatever order they came and whatever was
deleted in between. -/
theorem Sound.passing_unique (h : Sound key home T) (h' : Sound key home T')
    (hlive : ∀ k, k ∈ live ↔ ∃ s, key (T s) = some k)
    (hlive' : ∀ k, k ∈ live ↔ ∃ s, key (T' s) = some k) :
    passing key home T = passing key home T' :=
  (h.carries hlive).unique (h'.carries hlive')

/-- **The same keys take the same slots.** -/
theorem Sound.occupied_unique (h : Sound key home T) (h' : Sound key home T')
    (hlive : ∀ k, k ∈ live ↔ ∃ s, key (T s) = some k)
    (hlive' : ∀ k, k ∈ live ↔ ∃ s, key (T' s) = some k) (s : Fin N) :
    key (T s) = none ↔ key (T' s) = none := by
  have hi := h.occupied_iff (s - 1)
  have hi' := h'.occupied_iff (s - 1)
  rw [sub_add_cancel] at hi hi'
  rw [hi, hi', h.passing_unique h' hlive hlive', ← h.sum_live hlive, ← h'.sum_live hlive']

/-- **The same keys are equally far from home**, taken together. -/
theorem Sound.displacement_unique (h : Sound key home T) (h' : Sound key home T')
    (hlive : ∀ k, k ∈ live ↔ ∃ s, key (T s) = some k)
    (hlive' : ∀ k, k ∈ live ↔ ∃ s, key (T' s) = some k) :
    displacement key home T = displacement key home T' := by
  rw [← sum_passing, ← sum_passing, h.passing_unique h' hlive hlive']

end SameKeys

end Tables

end MarketDataPipeline.Library.LinearProbing
