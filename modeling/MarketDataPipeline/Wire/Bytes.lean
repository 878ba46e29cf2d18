/-
# MarketDataPipeline.Wire.Bytes — the byte-order helpers of `bytes.hpp`.

`load_be*` copies bytes into a host integer and swaps it; `store_be*` swaps an integer and copies it
out.  On a little-endian host the copy is `Image.put`/`Image.get` of the integer, so the model of both
helpers is the swap of the raw host word, written with the masks and shifts of the source.

What the swaps achieve is stated once per width: the stored word reads as `bigEndian` in memory
(`storeBe16_put`, `storeBe32_put`, `storeBe64_put`), and loading undoes storing in both directions.
-/
import MarketDataPipeline.Library.ByteImage

namespace MarketDataPipeline.Wire

open MarketDataPipeline.Library.ByteImage

/-! ## The swaps, as the source writes them -/

/-- `static_cast<uint16_t>((v >> 8) | (v << 8))`. -/
def swap16 (v : UInt16) : UInt16 := (v >>> 8) ||| (v <<< 8)

/-- The four masked lanes of `load_be32` and `store_be32`. -/
def swap32 (v : UInt32) : UInt32 :=
  ((v &&& 0x000000FF) <<< 24) ||| ((v &&& 0x0000FF00) <<< 8) |||
    ((v &&& 0x00FF0000) >>> 8) ||| ((v &&& 0xFF000000) >>> 24)

/-- The eight masked lanes of `load_be64` and `store_be64`. -/
def swap64 (v : UInt64) : UInt64 :=
  ((v &&& 0x00000000000000FF) <<< 56) ||| ((v &&& 0x000000000000FF00) <<< 40) |||
    ((v &&& 0x0000000000FF0000) <<< 24) ||| ((v &&& 0x00000000FF000000) <<< 8) |||
    ((v &&& 0x000000FF00000000) >>> 8) ||| ((v &&& 0x0000FF0000000000) >>> 24) |||
    ((v &&& 0x00FF000000000000) >>> 40) ||| ((v &&& 0xFF00000000000000) >>> 56)

def loadBe16 (v : UInt16) : UInt16 := swap16 v
def loadBe32 (v : UInt32) : UInt32 := swap32 v
def loadBe64 (v : UInt64) : UInt64 := swap64 v
def storeBe16 (v : UInt16) : UInt16 := swap16 v
def storeBe32 (v : UInt32) : UInt32 := swap32 v
def storeBe64 (v : UInt64) : UInt64 := swap64 v

/-! ## Bit by bit -/

theorem swap16_testBit (v : UInt16) (k : Nat) (hk : k < 8 * 2) :
    (swap16 v).toNat.testBit k = v.toNat.testBit (8 * (2 - 1 - k / 8) + k % 8) := by
  have hv : (swap16 v).toNat = v.toNat >>> 8 ||| v.toNat <<< 8 % 2 ^ 16 := by
    simp only [swap16, UInt16.toNat_or, UInt16.toNat_shiftLeft, UInt16.toNat_shiftRight]
    rfl
  have hhigh : ∀ j, 16 ≤ j → v.toNat.testBit j = false := fun j hj =>
    Nat.testBit_lt_two_pow (Nat.lt_of_lt_of_le v.toNat_lt (Nat.pow_le_pow_right (by omega) hj))
  rw [hv, Nat.testBit_or, Nat.testBit_mod_two_pow, Nat.testBit_shiftRight, Nat.testBit_shiftLeft]
  by_cases h8 : k < 8
  · rw [show k / 8 = 0 by omega, show k % 8 = k by omega]
    simp [show ¬ 8 ≤ k by omega]
  · rw [hhigh (8 + k) (by omega), show 8 * (2 - 1 - k / 8) + k % 8 = k - 8 by omega]
    simp [show k < 16 by omega, show 8 ≤ k by omega]

/-- `swap32` on natural numbers, with each mask and shift written as a byte lane. -/
theorem swap32_toNat (v : UInt32) : (swap32 v).toNat =
    ((v.toNat &&& 255 <<< (8 * 0)) <<< (8 * 3)) % 2 ^ 32 |||
      ((v.toNat &&& 255 <<< (8 * 1)) <<< (8 * 1)) % 2 ^ 32 |||
      ((v.toNat &&& 255 <<< (8 * 2)) >>> (8 * 1)) |||
      ((v.toNat &&& 255 <<< (8 * 3)) >>> (8 * 3)) := by
  simp only [swap32, UInt32.toNat_or, UInt32.toNat_and, UInt32.toNat_shiftLeft,
    UInt32.toNat_shiftRight]
  rfl

theorem swap32_testBit (v : UInt32) (k : Nat) (hk : k < 8 * 4) :
    (swap32 v).toNat.testBit k = v.toNat.testBit (8 * (4 - 1 - k / 8) + k % 8) := by
  rw [swap32_toNat]
  simp only [Nat.testBit_mod_two_pow, Nat.testBit_or, testBit_lane_up, testBit_lane_down,
    show k < 32 from hk, decide_true, Bool.true_and]
  obtain ⟨q, r, hq, hr, rfl⟩ : ∃ q r, q < 4 ∧ r < 8 ∧ k = 8 * q + r :=
    ⟨k / 8, k % 8, by omega, by omega, by omega⟩
  rw [show (8 * q + r) / 8 = q by omega, show (8 * q + r) % 8 = r by omega]
  interval_cases q <;> simp <;> congr 1 <;> omega

/-- `swap64` on natural numbers, with each mask and shift written as a byte lane. -/
theorem swap64_toNat (v : UInt64) : (swap64 v).toNat =
    ((v.toNat &&& 255 <<< (8 * 0)) <<< (8 * 7)) % 2 ^ 64 |||
      ((v.toNat &&& 255 <<< (8 * 1)) <<< (8 * 5)) % 2 ^ 64 |||
      ((v.toNat &&& 255 <<< (8 * 2)) <<< (8 * 3)) % 2 ^ 64 |||
      ((v.toNat &&& 255 <<< (8 * 3)) <<< (8 * 1)) % 2 ^ 64 |||
      ((v.toNat &&& 255 <<< (8 * 4)) >>> (8 * 1)) |||
      ((v.toNat &&& 255 <<< (8 * 5)) >>> (8 * 3)) |||
      ((v.toNat &&& 255 <<< (8 * 6)) >>> (8 * 5)) |||
      ((v.toNat &&& 255 <<< (8 * 7)) >>> (8 * 7)) := by
  simp only [swap64, UInt64.toNat_or, UInt64.toNat_and, UInt64.toNat_shiftLeft,
    UInt64.toNat_shiftRight]
  rfl

theorem swap64_testBit (v : UInt64) (k : Nat) (hk : k < 8 * 8) :
    (swap64 v).toNat.testBit k = v.toNat.testBit (8 * (8 - 1 - k / 8) + k % 8) := by
  rw [swap64_toNat]
  simp only [Nat.testBit_mod_two_pow, Nat.testBit_or, testBit_lane_up, testBit_lane_down,
    show k < 64 from hk, decide_true, Bool.true_and]
  obtain ⟨q, r, hq, hr, rfl⟩ : ∃ q r, q < 8 ∧ r < 8 ∧ k = 8 * q + r :=
    ⟨k / 8, k % 8, by omega, by omega, by omega⟩
  rw [show (8 * q + r) / 8 = q by omega, show (8 * q + r) % 8 = r by omega]
  interval_cases q <;> simp <;> congr 1 <;> omega

/-! ## Network order in memory -/

theorem storeBe16_put (v : UInt16) : Image.u16.put (storeBe16 v) = bigEndian 2 v.toNat :=
  leDigits_eq_bigEndian (swap16_testBit v)

theorem storeBe32_put (v : UInt32) : Image.u32.put (storeBe32 v) = bigEndian 4 v.toNat :=
  leDigits_eq_bigEndian (swap32_testBit v)

theorem storeBe64_put (v : UInt64) : Image.u64.put (storeBe64 v) = bigEndian 8 v.toNat :=
  leDigits_eq_bigEndian (swap64_testBit v)

/-- A swap that reverses the bytes of every word is its own inverse. -/
theorem swap_swap_of_put {α : Type} {I : Image α} {w : Nat} {toNat : α → Nat} {swap : α → α}
    (hput : ∀ v, I.put v = leDigits w (toNat v))
    (hswap : ∀ v, I.put (swap v) = bigEndian w (toNat v)) (v : α) : swap (swap v) = v := by
  apply I.put_injective
  rw [hswap, bigEndian, ← hput, hswap, bigEndian, List.reverse_reverse, hput]

@[simp] theorem loadBe16_storeBe16 (v : UInt16) : loadBe16 (storeBe16 v) = v :=
  swap_swap_of_put (fun _ => rfl) storeBe16_put v

@[simp] theorem loadBe32_storeBe32 (v : UInt32) : loadBe32 (storeBe32 v) = v :=
  swap_swap_of_put (fun _ => rfl) storeBe32_put v

@[simp] theorem loadBe64_storeBe64 (v : UInt64) : loadBe64 (storeBe64 v) = v :=
  swap_swap_of_put (fun _ => rfl) storeBe64_put v

@[simp] theorem storeBe16_loadBe16 (v : UInt16) : storeBe16 (loadBe16 v) = v :=
  loadBe16_storeBe16 v

@[simp] theorem storeBe32_loadBe32 (v : UInt32) : storeBe32 (loadBe32 v) = v :=
  loadBe32_storeBe32 v

@[simp] theorem storeBe64_loadBe64 (v : UInt64) : storeBe64 (loadBe64 v) = v :=
  loadBe64_storeBe64 v

end MarketDataPipeline.Wire
