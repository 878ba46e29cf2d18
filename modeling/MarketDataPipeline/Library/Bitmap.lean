/-
# MarketDataPipeline.Library.Bitmap — sets of numbers in an array of 64-bit words.

The bits of one word first: the masks that keep the bits up to, or from, a given place, and the two
scans `countlZero` and `countrZero` that find the last and the first bit of a word.  Then an array of
`W` words as a set of numbers below `64 * W`, with the two updates of a single bit.
-/
import Mathlib.Logic.Function.Basic
import Mathlib.Data.Nat.Bitwise
import MarketDataPipeline.Library.Bounds

namespace MarketDataPipeline.Library.Bitmap

/-! ## One word -/

/-- Bit `i` of the word. -/
def bit (x : UInt64) (i : Nat) : Bool := x.toNat.testBit i

theorem bit_lt {x : UInt64} {i : Nat} (h : bit x i = true) : i < 64 := by
  by_contra hge
  have hlt : x.toNat < 2 ^ i :=
    Nat.lt_of_lt_of_le x.toNat_lt (Nat.pow_le_pow_right (by decide) (Nat.not_lt.mp hge))
  unfold bit at h
  rw [Nat.testBit_lt_two_pow hlt] at h
  cases h

theorem eq_zero_iff {x : UInt64} : x = 0 ↔ ∀ i, bit x i = false := by
  constructor
  · rintro rfl i
    exact Nat.zero_testBit i
  · intro h
    apply UInt64.toNat_inj.mp
    apply Nat.eq_of_testBit_eq
    intro i
    rw [show (0 : UInt64).toNat = 0 from rfl, Nat.zero_testBit]
    exact h i

/-- A word is the set of its bits. -/
theorem bit_ext {x y : UInt64} (h : ∀ i, i < 64 → bit x i = bit y i) : x = y := by
  apply UInt64.toNat_inj.mp
  apply Nat.eq_of_testBit_eq
  intro i
  by_cases hi : i < 64
  · exact h i hi
  · have hx : bit x i = false := Bool.eq_false_iff.mpr fun hb => hi (bit_lt hb)
    have hy : bit y i = false := Bool.eq_false_iff.mpr fun hb => hi (bit_lt hb)
    exact hx.trans hy.symm

@[simp] theorem bit_or (x y : UInt64) (i : Nat) : bit (x ||| y) i = (bit x i || bit y i) := by
  unfold bit
  rw [UInt64.toNat_or, Nat.testBit_or]

@[simp] theorem bit_and (x y : UInt64) (i : Nat) : bit (x &&& y) i = (bit x i && bit y i) := by
  unfold bit
  rw [UInt64.toNat_and, Nat.testBit_and]

theorem bit_not (x : UInt64) {i : Nat} (hi : i < 64) : bit (~~~x) i = !bit x i := by
  have hnat : (~~~x).toNat = 2 ^ 64 - (x.toNat + 1) := by
    rw [UInt64.toNat_not, UInt64.size]
    omega
  unfold bit
  rw [hnat, Nat.testBit_two_pow_sub_succ x.toNat_lt]
  simp [hi]

/-- `uint64_t{1} << b`. -/
theorem toNat_one_shiftLeft {b : Nat} (hb : b < 64) :
    ((1 : UInt64) <<< UInt64.ofNat b).toNat = 2 ^ b := by
  rw [UInt64.toNat_shiftLeft, UInt64.toNat_one, UInt64.toNat_ofNat',
    Nat.mod_eq_of_lt (show b < 2 ^ 64 by omega), Nat.mod_eq_of_lt hb, Nat.one_shiftLeft]
  exact Nat.mod_eq_of_lt (Nat.pow_lt_pow_right (by decide) hb)

theorem bit_single {b : Nat} (hb : b < 64) (i : Nat) :
    bit ((1 : UInt64) <<< UInt64.ofNat b) i = decide (b = i) := by
  unfold bit
  rw [toNat_one_shiftLeft hb, Nat.testBit_two_pow]

theorem toNat_mask {b : Nat} (hb : b < 64) :
    ((1 : UInt64) <<< UInt64.ofNat b - 1).toNat = 2 ^ b - 1 := by
  have hone : (1 : UInt64) ≤ (1 : UInt64) <<< UInt64.ofNat b := by
    rw [UInt64.le_iff_toNat_le, toNat_one_shiftLeft hb]
    exact Nat.one_le_two_pow
  rw [UInt64.toNat_sub_of_le _ _ hone, toNat_one_shiftLeft hb, UInt64.toNat_one]

/-- `(uint64_t{1} << b) - 1` keeps the bits below `b`. -/
theorem bit_mask {b : Nat} (hb : b < 64) (i : Nat) :
    bit ((1 : UInt64) <<< UInt64.ofNat b - 1) i = decide (i < b) := by
  unfold bit
  rw [toNat_mask hb, Nat.testBit_two_pow_sub_one]

/-! ## The first and the last bit of a word -/

/-- `std::countl_zero`. -/
def countlZero (x : UInt64) : Nat := x.toBitVec.clz.toNat

/-- `std::countr_zero`. -/
def countrZero (x : UInt64) : Nat := x.toBitVec.ctz.toNat

theorem bit_eq_getLsbD (x : UInt64) (i : Nat) : bit x i = x.toBitVec.getLsbD i := rfl

theorem toBitVec_ne_zero {x : UInt64} (h : x ≠ 0) : x.toBitVec ≠ 0#64 := by
  intro hz
  exact h (UInt64.toBitVec_inj.mp hz)

theorem bit_last {x : UInt64} (h : x ≠ 0) : bit x (63 - countlZero x) = true :=
  BitVec.getLsbD_true_clz_of_ne_zero (by decide) (toBitVec_ne_zero h)

theorem le_last {x : UInt64} {i : Nat} (hi : bit x i = true) : i ≤ 63 - countlZero x := by
  by_contra hlt
  have hpow := BitVec.toNat_lt_two_pow_sub_clz (x := x.toBitVec)
  have hge : 2 ^ i ≤ x.toNat := Nat.ge_two_pow_of_testBit hi
  have hle : 2 ^ (64 - countlZero x) ≤ 2 ^ i := Nat.pow_le_pow_right (by decide) (by omega)
  exact absurd (Nat.lt_of_lt_of_le hpow hle) (Nat.not_lt.mpr hge)

theorem bit_first {x : UInt64} (h : x ≠ 0) : bit x (countrZero x) = true :=
  BitVec.getLsbD_true_ctz_of_ne_zero (toBitVec_ne_zero h)

theorem first_le {x : UInt64} {i : Nat} (hi : bit x i = true) : countrZero x ≤ i := by
  by_contra hlt
  have hfalse := BitVec.getLsbD_false_of_lt_ctz (Nat.not_le.mp hlt)
  rw [bit_eq_getLsbD, hfalse] at hi
  cases hi

/-! ## An array of words -/

variable {W : Nat} [NeZero W]

/-- The number `p` is in the set. -/
def member (words : Fin W → UInt64) (p : Nat) : Bool := bit (words (Fin.ofNat W (p / 64))) (p % 64)

/-- An array of words is the set of its members. -/
theorem words_ext {words words' : Fin W → UInt64}
    (h : ∀ p, p < 64 * W → member words p = member words' p) : words = words' := by
  funext w
  apply bit_ext
  intro i hi
  have hw := w.isLt
  have hmem := h (64 * w.val + i) (by omega)
  unfold member at hmem
  rw [show (64 * w.val + i) / 64 = w.val by omega, show (64 * w.val + i) % 64 = i by omega,
    Fin.ofNat_val_eq_self] at hmem
  exact hmem

/-- Overwriting one word. -/
theorem member_update {words : Fin W → UInt64} {w : UInt64} {p q : Nat} (hp : p < 64 * W)
    (hq : q < 64 * W) :
    member (Function.update words (Fin.ofNat W (p / 64)) w) q
      = if p / 64 = q / 64 then bit w (q % 64) else member words q := by
  unfold member
  rw [Bounds.update_ofNat words (Nat.div_lt_of_lt_mul hp) (Nat.div_lt_of_lt_mul hq)]
  split_ifs <;> rfl

/-- Setting one bit. -/
theorem member_set {words : Fin W → UInt64} {p q : Nat} (hp : p < 64 * W) (hq : q < 64 * W) :
    member (Function.update words (Fin.ofNat W (p / 64))
        (words (Fin.ofNat W (p / 64)) ||| (1 : UInt64) <<< UInt64.ofNat (p % 64))) q
      = (member words q || decide (p = q)) := by
  rw [member_update hp hq]
  split_ifs with hdiv
  · have hiff : p % 64 = q % 64 ↔ p = q := by omega
    rw [bit_or, bit_single (Nat.mod_lt _ (by decide)), hdiv]
    simp only [hiff, member]
  · have hne : p ≠ q := by
      rintro rfl
      exact hdiv rfl
    simp [hne]

/-- Clearing one bit. -/
theorem member_clear {words : Fin W → UInt64} {p q : Nat} (hp : p < 64 * W) (hq : q < 64 * W) :
    member (Function.update words (Fin.ofNat W (p / 64))
        (words (Fin.ofNat W (p / 64)) &&& ~~~((1 : UInt64) <<< UInt64.ofNat (p % 64)))) q
      = (member words q && !decide (p = q)) := by
  rw [member_update hp hq]
  split_ifs with hdiv
  · have hiff : p % 64 = q % 64 ↔ p = q := by omega
    rw [bit_and, bit_not _ (Nat.mod_lt _ (by decide)), bit_single (Nat.mod_lt _ (by decide)), hdiv]
    simp only [hiff, member]
  · have hne : p ≠ q := by
      rintro rfl
      exact hdiv rfl
    simp [hne]

end MarketDataPipeline.Library.Bitmap
