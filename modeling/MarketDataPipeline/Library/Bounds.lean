/-
# MarketDataPipeline.Library.Bounds — arrays with checked accesses.

An array of `n` elements is a function on `Fin n`, so a program that is written over it cannot leave it.
To say that a program with plain indices does not leave its arrays either, it is written once more with
`read` and `write`, whose indices are natural numbers and whose result is `none` outside the array.  The
program is then in range exactly if it returns something, and the rules of this module say what.
-/
import Mathlib.Algebra.GroupWithZero.Nat
import Mathlib.Logic.Function.Basic

namespace MarketDataPipeline.Library.Bounds

universe u

variable {α : Type u} {n : Nat}

/-- `a[i]`. -/
def read (a : Fin n → α) (i : Nat) : Option α := if h : i < n then some (a ⟨i, h⟩) else none

/-- `a[i] = v`. -/
def write (a : Fin n → α) (i : Nat) (v : α) : Option (Fin n → α) :=
  if h : i < n then some (Function.update a ⟨i, h⟩ v) else none

/-! ## Indices that are known to be in range -/

@[simp] theorem read_val (a : Fin n → α) (i : Fin n) : read a i.val = some (a i) := dif_pos i.isLt

@[simp] theorem write_val (a : Fin n → α) (i : Fin n) (v : α) :
    write a i.val v = some (Function.update a i v) := dif_pos i.isLt

theorem ofNat_eq [NeZero n] {i : Nat} (h : i < n) : (⟨i, h⟩ : Fin n) = Fin.ofNat n i :=
  Fin.ext (Nat.mod_eq_of_lt h).symm

theorem ofNat_inj [NeZero n] {i j : Nat} (hi : i < n) (hj : j < n)
    (h : Fin.ofNat n i = Fin.ofNat n j) : i = j := by
  rw [← ofNat_eq hi, ← ofNat_eq hj] at h
  exact Fin.mk.inj h

/-- One place overwritten, another one read. -/
theorem update_ofNat [NeZero n] (a : Fin n → α) {i j : Nat} (hi : i < n) (hj : j < n) (v : α) :
    Function.update a (Fin.ofNat n i) v (Fin.ofNat n j) = if i = j then v else a (Fin.ofNat n j) := by
  by_cases heq : i = j
  · rw [if_pos heq, heq, Function.update_self]
  · rw [if_neg heq]
    exact Function.update_of_ne (fun h => heq (ofNat_inj hj hi h).symm) _ _

theorem read_ofNat [NeZero n] (a : Fin n → α) {i : Nat} (h : i < n) :
    read a i = some (a (Fin.ofNat n i)) := by
  rw [← ofNat_eq h]
  exact dif_pos h

theorem write_ofNat [NeZero n] (a : Fin n → α) {i : Nat} (h : i < n) (v : α) :
    write a i v = some (Function.update a (Fin.ofNat n i) v) := by
  rw [← ofNat_eq h]
  exact dif_pos h

end MarketDataPipeline.Library.Bounds
