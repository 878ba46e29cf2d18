/-
# MarketDataPipeline.Library.Loop — `while` loops with a proved exit.

A loop body is a function `σ → Pass σ ρ`: one pass either leaves the loop with a result
(`Pass.done`, a `break`, a `return` or a false loop condition) or goes round again with a new state
(`Pass.again`).  `iterate body n s` is the loop cut off after `n` passes, so "the loop stops" is a
statement (`Halts`) and not a side effect of the definition being accepted.

A loop whose every further pass lowers a natural-number *variant* stops from every state
(`halts_of_variant`).  `run` is the total loop built from such a variant; its three rules (`run_done`,
`run_again`, `run_induction`) are all that a user of the module ever needs, and `run_invariant` is the
usual invariant rule read off the last one.
-/
import Mathlib.Order.Basic

namespace MarketDataPipeline.Library.Loop

universe u v

variable {σ : Type u} {ρ : Type v}

/-- What one pass of a loop body does: go round again, or leave with a result. -/
inductive Pass (σ : Type u) (ρ : Type v) where
  | again (s : σ)
  | done (r : ρ)

/-- The loop cut off after `n` passes; `none` means that it was still going round. -/
def iterate (body : σ → Pass σ ρ) : Nat → σ → Option ρ
  | 0, _ => none
  | n + 1, s =>
    match body s with
    | .done r => some r
    | .again s' => iterate body n s'

/-- The loop leaves, with some result, after finitely many passes. -/
def Halts (body : σ → Pass σ ρ) (s : σ) : Prop := ∃ n, (iterate body n s).isSome

/-- `μ` is a variant of the loop: a pass that goes round again lowers it. -/
def Variant (body : σ → Pass σ ρ) (μ : σ → Nat) : Prop :=
  ∀ s s', body s = .again s' → μ s' < μ s

section Variants

variable {body : σ → Pass σ ρ} {μ : σ → Nat}

theorem iterate_done {s : σ} {r : ρ} (h : body s = .done r) (n : Nat) :
    iterate body (n + 1) s = some r := by
  simp only [iterate, h]

theorem iterate_again {s s' : σ} (h : body s = .again s') (n : Nat) :
    iterate body (n + 1) s = iterate body n s' := by
  simp only [iterate, h]

/-- A loop with a variant leaves within `μ s + 1` passes. -/
theorem iterate_isSome (hv : Variant body μ) :
    ∀ (n : Nat) (s : σ), μ s < n → (iterate body n s).isSome := by
  intro n
  induction n with
  | zero => intro s hs; exact absurd hs (Nat.not_lt_zero _)
  | succ n ih =>
    intro s hs
    cases hb : body s with
    | done r => rw [iterate_done hb]; rfl
    | again s' =>
      rw [iterate_again hb]
      exact ih s' (Nat.lt_of_lt_of_le (hv s s' hb) (Nat.lt_succ_iff.mp hs))

theorem halts_of_variant (hv : Variant body μ) (s : σ) : Halts body s :=
  ⟨μ s + 1, iterate_isSome hv _ s (Nat.lt_succ_self _)⟩

/-- More passes than needed change nothing. -/
theorem iterate_mono {n m : Nat} {s : σ} {r : ρ} (h : iterate body n s = some r) (hnm : n ≤ m) :
    iterate body m s = some r := by
  induction n generalizing m s with
  | zero => simp [iterate] at h
  | succ n ih =>
    obtain ⟨k, rfl⟩ : ∃ k, m = k + 1 := ⟨m - 1, by omega⟩
    cases hb : body s with
    | done r' =>
      rw [iterate_done hb] at h ⊢
      exact h
    | again s' =>
      rw [iterate_again hb] at h ⊢
      exact ih h (Nat.le_of_succ_le_succ hnm)

/-- Two bounds that are both large enough give one result. -/
theorem iterate_unique {n m : Nat} {s : σ} {r r' : ρ} (h : iterate body n s = some r)
    (h' : iterate body m s = some r') : r = r' := by
  have hr := iterate_mono h (Nat.le_max_left n m)
  rw [iterate_mono h' (Nat.le_max_right n m)] at hr
  exact (Option.some.inj hr).symm

/-- A pass with its state and its result in another form. -/
def Pass.map {σ' : Type u} {ρ' : Type v} (f : σ → σ') (g : ρ → ρ') : Pass σ ρ → Pass σ' ρ'
  | .again s => .again (f s)
  | .done r => .done (g r)

/-- The simulation rule: a loop whose passes are those of another one in another form. -/
theorem iterate_map {σ' : Type u} {ρ' : Type v} {body' : σ' → Pass σ' ρ'} {f : σ → σ'} {g : ρ → ρ'}
    (h : ∀ s, body' (f s) = (body s).map f g) (n : Nat) (s : σ) :
    iterate body' n (f s) = (iterate body n s).map g := by
  induction n generalizing s with
  | zero => rfl
  | succ n ih =>
    have hpass := h s
    cases hb : body s with
    | done r =>
      rw [hb] at hpass
      rw [iterate_done hpass, iterate_done hb]
      rfl
    | again s' =>
      rw [hb] at hpass
      rw [iterate_again hpass, iterate_again hb]
      exact ih s'

/-- The divergence rule: a loop that goes round again from every state of an invariant never leaves. -/
theorem iterate_eq_none {I : σ → Prop} (again : ∀ s, I s → ∃ s', body s = .again s' ∧ I s') {s : σ}
    (hs : I s) (n : Nat) : iterate body n s = none := by
  induction n generalizing s with
  | zero => rfl
  | succ n ih =>
    obtain ⟨s', hb, hs'⟩ := again s hs
    rw [iterate_again hb]
    exact ih hs'

end Variants

/-! ## The total loop -/

/-- The loop run to its exit, for a body with a variant. -/
def run (body : σ → Pass σ ρ) (μ : σ → Nat) (hv : Variant body μ) (s : σ) : ρ :=
  (iterate body (μ s + 1) s).get (iterate_isSome hv _ s (Nat.lt_succ_self _))

variable {body : σ → Pass σ ρ} {μ : σ → Nat} {hv : Variant body μ}

theorem iterate_eq_run (hv : Variant body μ) (s : σ) :
    iterate body (μ s + 1) s = some (run body μ hv s) :=
  (Option.some_get _).symm

theorem run_done {s : σ} {r : ρ} (h : body s = .done r) : run body μ hv s = r := by
  have hr := iterate_eq_run hv s
  rw [iterate_done h] at hr
  exact (Option.some.inj hr).symm

theorem run_again {s s' : σ} (h : body s = .again s') : run body μ hv s = run body μ hv s' := by
  have hr := iterate_eq_run hv s
  rw [iterate_again h] at hr
  have hr' := iterate_mono (iterate_eq_run hv s') (Nat.succ_le_of_lt (hv s s' h))
  rw [hr] at hr'
  exact Option.some.inj hr'

/-- Induction along the passes of the loop. -/
theorem run_induction {motive : σ → ρ → Prop}
    (done : ∀ s r, body s = .done r → motive s r)
    (again : ∀ s s' r, body s = .again s' → motive s' r → motive s r) (s : σ) :
    motive s (run body μ hv s) := by
  induction hn : μ s using Nat.strongRecOn generalizing s with
  | _ n ih =>
    cases hb : body s with
    | done r =>
      rw [run_done hb]
      exact done s r hb
    | again s' =>
      rw [run_again hb]
      exact again s s' _ hb (ih (μ s') (hn ▸ hv s s' hb) s' rfl)

/-- The invariant rule: what holds on entry and is kept by every pass holds where the loop leaves. -/
theorem run_invariant {I : σ → Prop} {Q : ρ → Prop} {s : σ} (hs : I s)
    (again : ∀ s s', I s → body s = .again s' → I s')
    (done : ∀ s r, I s → body s = .done r → Q r) : Q (run body μ hv s) := by
  have key : I s → Q (run body μ hv s) :=
    run_induction (motive := fun s r => I s → Q r) (fun s r hb hI => done s r hI hb)
      (fun s s' r hb ih hI => ih (again s s' hI hb)) s
  exact key hs

end MarketDataPipeline.Library.Loop
