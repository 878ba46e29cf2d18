/-
# MarketDataPipeline.Library.StructFormat — format strings for packed binary records.

The part of Python's `struct` module that reads unsigned little-endian records: a format string that
starts with `<` (standard sizes, no alignment), each character of which may carry a repeat count.
`unpackFrom` reads one number for each value code at an offset of a buffer and skips the pad bytes; it
fails when the buffer is too short.

A record that has been written field by field in the same widths is read back
(`unpack_value`, `unpack_pad`), wherever it stands in the buffer (`unpackFrom_append`).
-/
import MarketDataPipeline.Library.ByteImage

namespace MarketDataPipeline.Library.StructFormat

open MarketDataPipeline.Library.ByteImage

/-! ## Formats -/

inductive Code where
  /-- An unsigned integer of that many bytes. -/
  | value (width : Nat)
  /-- A byte that is skipped. -/
  | pad
  deriving DecidableEq, Repr

def Code.size : Code → Nat
  | .value width => width
  | .pad => 1

def Code.ofChar : Char → Option Code
  | 'B' => some (.value 1)
  | 'H' => some (.value 2)
  | 'I' => some (.value 4)
  | 'L' => some (.value 4)
  | 'Q' => some (.value 8)
  | 'x' => some .pad
  | _ => none

/-- The codes of a format; `count` is the repeat count that has been read so far. -/
def codes (count : Option Nat) : List Char → Option (List Code)
  -- a count with no character behind it
  | [] => if count.isNone then some [] else none
  | c :: cs =>
    if c.isDigit then codes (some (10 * count.getD 0 + (c.toNat - '0'.toNat))) cs
    else do
      let code ← Code.ofChar c
      let rest ← codes none cs
      return List.replicate (count.getD 1) code ++ rest

/-- A format of standard sizes in little-endian order. -/
def parseFormat : List Char → Option (List Code)
  | '<' :: cs => codes none cs
  | _ => none

/-- `Struct.size`. -/
def formatSize (fmt : List Code) : Nat := (fmt.map Code.size).sum

/-! ## Reading -/

def unpack : List Code → List UInt8 → List Nat
  | [], _ => []
  | .value width :: fmt, bytes => leValue (bytes.take width) :: unpack fmt (bytes.drop width)
  | .pad :: fmt, bytes => unpack fmt (bytes.drop 1)

/-- `Struct.unpack_from(data, off)`. -/
def unpackFrom (fmt : List Code) (data : List UInt8) (off : Nat) : Option (List Nat) :=
  if off + formatSize fmt ≤ data.length then some (unpack fmt (data.drop off)) else none

/-- Reading back a number that was written in that many bytes. -/
theorem unpack_value {width n : Nat} (h : n < 256 ^ width) (fmt : List Code) (t : List UInt8) :
    unpack (.value width :: fmt) (leDigits width n ++ t) = n :: unpack fmt t := by
  rw [unpack, List.take_left' (leDigits_length _ _), List.drop_left' (leDigits_length _ _),
    leValue_leDigits h]

theorem unpack_pad (n : Nat) (fmt : List Code) (bytes : List UInt8) :
    unpack (List.replicate n .pad ++ fmt) bytes = unpack fmt (bytes.drop n) := by
  induction n generalizing bytes with
  | zero => rfl
  | succ n ih =>
    rw [List.replicate_succ, List.cons_append, unpack, ih, List.drop_drop, Nat.add_comm]

/-- What stands before the offset does not matter. -/
theorem unpackFrom_append {fmt : List Code} {a : List UInt8} {n : Nat} (ha : a.length = n)
    (data : List UInt8) (off : Nat) : unpackFrom fmt (a ++ data) (n + off) = unpackFrom fmt data off := by
  have hlen : n + off + formatSize fmt ≤ (a ++ data).length ↔ off + formatSize fmt ≤ data.length := by
    rw [List.length_append, ha]
    omega
  unfold unpackFrom
  simp only [hlen]
  rw [List.drop_append, List.drop_eq_nil_of_le (by omega), List.nil_append, ha,
    Nat.add_sub_cancel_left]

/-! ## Records one after the other -/

/-- `range(0, stop, step)`. -/
def rangeStep (stop step : Nat) : List Nat :=
  (List.range ((stop + step - 1) / step)).map (· * step)

theorem rangeStep_mul (n : Nat) {step : Nat} (h : 0 < step) :
    rangeStep (n * step) step = (List.range n).map (· * step) := by
  unfold rangeStep
  rw [Nat.add_sub_assoc h, Nat.add_comm, Nat.add_mul_div_right _ _ h,
    Nat.div_eq_of_lt (Nat.sub_lt h Nat.one_pos), Nat.zero_add]

theorem rangeStep_succ (n : Nat) {step : Nat} (h : 0 < step) :
    rangeStep ((n + 1) * step) step = 0 :: (rangeStep (n * step) step).map (step + ·) := by
  rw [rangeStep_mul _ h, rangeStep_mul _ h, List.range_succ_eq_map, List.map_cons, Nat.zero_mul,
    List.map_map, List.map_map]
  congr 1
  apply List.map_congr_left
  intro k _
  simp only [Function.comp_apply, Nat.succ_mul, Nat.add_comm]

end MarketDataPipeline.Library.StructFormat
