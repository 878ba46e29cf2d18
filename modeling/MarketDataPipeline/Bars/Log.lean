/-
# MarketDataPipeline.Bars.Log — the bar log, from the writer to the reader.

`write_bar` of `consumers.cpp` appends the memory of a packed `BinaryBar`; `read_bars` of `research.py`
takes the file apart with a `struct` format.  The layout is written down twice, once as members of a
struct and once as the string `<IQQIIIIQB7x`, and nothing in the program compares the two.
`bar_log_round_trip` does.
-/
import Mathlib.Data.List.Induction
import MarketDataPipeline.Library.StructFormat

namespace MarketDataPipeline.Bars

open MarketDataPipeline.Library.ByteImage
open MarketDataPipeline.Library.StructFormat

/-! ## The writer -/

/-- `BinaryBar`, packed. -/
structure BinaryBar where
  symbolId : UInt32 := 0
  startTsNs : UInt64 := 0
  endTsNs : UInt64 := 0
  openPrice : UInt32 := 0
  high : UInt32 := 0
  low : UInt32 := 0
  close : UInt32 := 0
  volume : UInt64 := 0
  barType : UInt8 := 0 -- 0 time, 1 volume
  pad : Vector UInt8 7 := Vector.replicate 7 0
  deriving DecidableEq, Repr

open Image in
def BinaryBar.image : Image BinaryBar :=
  (u32.prod (u64.prod (u64.prod (u32.prod (u32.prod (u32.prod (u32.prod (u64.prod
      (u8.prod (bytes 7)))))))))).iso
    { toFun := fun ⟨symbolId, startTsNs, endTsNs, openPrice, high, low, close, volume, barType, pad⟩ =>
        ⟨symbolId, startTsNs, endTsNs, openPrice, high, low, close, volume, barType, pad⟩
      invFun := fun ⟨symbolId, startTsNs, endTsNs, openPrice, high, low, close, volume, barType, pad⟩ =>
        ⟨symbolId, startTsNs, endTsNs, openPrice, high, low, close, volume, barType, pad⟩
      left_inv := fun _ => rfl
      right_inv := fun _ => rfl }

@[simp] theorem BinaryBar.image_size : BinaryBar.image.size = 52 := rfl

/-- An accumulator of the aggregator. -/
structure Acc where
  active : Bool := false
  startTs : UInt64 := 0
  endTs : UInt64 := 0
  openPrice : UInt32 := 0
  high : UInt32 := 0
  low : UInt32 := 0
  close : UInt32 := 0
  volume : UInt64 := 0
  deriving DecidableEq, Repr

/-- What `write_bar` works on: the output stream and the two counters.  Each count stands for 52 bytes in
`out`, so a `std::size_t` does not wrap before the file is longer than any file offset. -/
structure BarOutput where
  out : List UInt8 := []
  timeBars : Nat := 0
  volumeBars : Nat := 0

def BarOutput.writeBar (w : BarOutput) (symbolId : UInt32) (a : Acc) (type : UInt8) : BarOutput :=
  let bar : BinaryBar := {
    symbolId := symbolId
    startTsNs := a.startTs
    endTsNs := a.endTs
    openPrice := a.openPrice
    high := a.high
    low := a.low
    close := a.close
    volume := a.volume
    barType := type
    pad := Vector.replicate 7 0 }
  let w := { w with out := w.out ++ BinaryBar.image.put bar }
  if type = 0 then { w with timeBars := w.timeBars + 1 }
  else { w with volumeBars := w.volumeBars + 1 }

/-! ## The reader -/

def BAR_STRUCT : List Char := "<IQQIIIIQB7x".toList

/-- The codes of `BAR_STRUCT`. -/
def barFormat : List Code := (parseFormat BAR_STRUCT).getD []

def BAR_SIZE : Nat := formatSize barFormat

/-- The dictionary of one bar; Python's integers have no width. -/
structure Bar where
  symbolId : Nat
  startTsNs : Nat
  endTsNs : Nat
  openPrice : Nat
  high : Nat
  low : Nat
  close : Nat
  volume : Nat
  barType : Nat
  deriving DecidableEq, Repr

/-- What can be raised: the check of the length, and the two errors of the body of the loop. -/
inductive ReadError where
  | valueError (text : String)
  | structError
  | indexError
  deriving DecidableEq

/-- `fields[0]` to `fields[8]`. -/
def Bar.ofFields : List Nat → Except ReadError Bar
  | f0 :: f1 :: f2 :: f3 :: f4 :: f5 :: f6 :: f7 :: f8 :: _ => .ok ⟨f0, f1, f2, f3, f4, f5, f6, f7, f8⟩
  | _ => .error .indexError

/-- The body of the loop of `read_bars`. -/
def readBar (data : List UInt8) (off : Nat) : Except ReadError Bar :=
  match unpackFrom barFormat data off with
  | none => .error .structError
  | some fields => Bar.ofFields fields

def readBars (data : List UInt8) : Except ReadError (List Bar) :=
  if data.length % BAR_SIZE ≠ 0 then
    .error (.valueError s!"truncated bar log: {data.length} bytes")
  else (rangeStep data.length BAR_SIZE).mapM (readBar data)

theorem barFormat_eq : barFormat =
    [.value 4, .value 8, .value 8, .value 4, .value 4, .value 4, .value 4, .value 8, .value 1]
      ++ List.replicate 7 .pad := by
  decide +kernel

@[simp] theorem BAR_SIZE_eq : BAR_SIZE = 52 := by
  unfold BAR_SIZE
  rw [barFormat_eq]
  rfl

/-! ## One record -/

/-- The dictionary that a bar is meant to become. -/
def BinaryBar.shown (b : BinaryBar) : Bar where
  symbolId := b.symbolId.toNat
  startTsNs := b.startTsNs.toNat
  endTsNs := b.endTsNs.toNat
  openPrice := b.openPrice.toNat
  high := b.high.toNat
  low := b.low.toNat
  close := b.close.toNat
  volume := b.volume.toNat
  barType := b.barType.toNat

/-- The memory of a bar, member by member. -/
theorem BinaryBar.put_eq (b : BinaryBar) (t : List UInt8) :
    BinaryBar.image.put b ++ t =
      leDigits 4 b.symbolId.toNat ++ (leDigits 8 b.startTsNs.toNat ++ (leDigits 8 b.endTsNs.toNat ++
        (leDigits 4 b.openPrice.toNat ++ (leDigits 4 b.high.toNat ++ (leDigits 4 b.low.toNat ++
          (leDigits 4 b.close.toNat ++ (leDigits 8 b.volume.toNat ++ (leDigits 1 b.barType.toNat ++
            (b.pad.toList ++ t))))))))) := by
  unfold BinaryBar.image
  simp only [Image.iso_put, Image.prod_put, List.append_assoc]
  rfl

/-- **The format reads what the struct holds**, whatever is in the padding. -/
theorem unpack_put (b : BinaryBar) (t : List UInt8) :
    unpack barFormat (BinaryBar.image.put b ++ t)
      = [b.symbolId.toNat, b.startTsNs.toNat, b.endTsNs.toNat, b.openPrice.toNat, b.high.toNat,
          b.low.toNat, b.close.toNat, b.volume.toNat, b.barType.toNat] := by
  have h32 : ∀ v : UInt32, v.toNat < 256 ^ 4 := fun v => v.toNat_lt
  have h64 : ∀ v : UInt64, v.toNat < 256 ^ 8 := fun v => v.toNat_lt
  have h8 : ∀ v : UInt8, v.toNat < 256 ^ 1 := fun v => v.toNat_lt
  have hpad : ∀ bytes, unpack (List.replicate 7 .pad) bytes = [] := fun bytes => unpack_pad 7 [] bytes
  rw [barFormat_eq, BinaryBar.put_eq]
  simp only [List.cons_append, List.nil_append]
  rw [unpack_value (h32 _), unpack_value (h64 _), unpack_value (h64 _), unpack_value (h32 _),
    unpack_value (h32 _), unpack_value (h32 _), unpack_value (h32 _), unpack_value (h64 _),
    unpack_value (h8 _), hpad]

theorem readBar_put (b : BinaryBar) (t : List UInt8) :
    readBar (BinaryBar.image.put b ++ t) 0 = .ok b.shown := by
  have hsize : formatSize barFormat = 52 := BAR_SIZE_eq
  unfold readBar unpackFrom
  rw [if_pos (by rw [List.length_append, BinaryBar.image.put_length, hsize]; simp), List.drop_zero,
    unpack_put]
  rfl

/-- Reading a record behind another one. -/
theorem readBar_append {a : List UInt8} (ha : a.length = BAR_SIZE) (data : List UInt8) (off : Nat) :
    readBar (a ++ data) (BAR_SIZE + off) = readBar data off := by
  unfold readBar
  rw [unpackFrom_append ha]

/-! ## The file -/

/-- The records of some bars, one after the other. -/
def records (bars : List BinaryBar) : List UInt8 := (bars.map BinaryBar.image.put).flatten

theorem records_length (bars : List BinaryBar) : (records bars).length = bars.length * BAR_SIZE := by
  induction bars with
  | nil => simp [records]
  | cons b bars ih =>
    have hcons : records (b :: bars) = BinaryBar.image.put b ++ records bars := rfl
    rw [hcons, List.length_append, ih, BinaryBar.image.put_length, List.length_cons, Nat.succ_mul,
      Nat.add_comm]
    simp

/-- The loop, record by record. -/
theorem mapM_readBar (bars : List BinaryBar) :
    (rangeStep (bars.length * BAR_SIZE) BAR_SIZE).mapM (readBar (records bars))
      = .ok (bars.map BinaryBar.shown) := by
  have hpos : 0 < BAR_SIZE := by simp
  induction bars with
  | nil => rw [rangeStep_mul _ hpos]; rfl
  | cons b bars ih =>
    have hcons : records (b :: bars) = BinaryBar.image.put b ++ records bars := rfl
    have hshift : (fun off => readBar (BinaryBar.image.put b ++ records bars) (BAR_SIZE + off))
        = readBar (records bars) := by
      funext off
      exact readBar_append (by rw [BinaryBar.image.put_length]; simp) _ off
    rw [List.length_cons, rangeStep_succ _ hpos, hcons, List.mapM_cons, readBar_put, List.mapM_map,
      Function.comp_def, hshift, ih]
    rfl

theorem readBars_records (bars : List BinaryBar) :
    readBars (records bars) = .ok (bars.map BinaryBar.shown) := by
  unfold readBars
  rw [records_length, if_neg (not_ne_iff.mpr (Nat.mul_mod_left _ _))]
  exact mapM_readBar bars

/-- Every string of the right length is a file of bars. -/
theorem exists_records {data : List UInt8} (h : BAR_SIZE ∣ data.length) :
    ∃ bars, records bars = data := by
  obtain ⟨n, hn⟩ := h
  induction n generalizing data with
  | zero =>
    exact ⟨[], (List.length_eq_zero_iff.mp (by rw [hn, Nat.mul_zero])).symm⟩
  | succ n ih =>
    rw [BAR_SIZE_eq] at hn ih
    obtain ⟨b, -, hput⟩ := BinaryBar.image.get_eq_some (b := data) (by rw [BinaryBar.image_size]; omega)
    obtain ⟨bars, hbars⟩ := @ih (data.drop 52) (by rw [List.length_drop]; omega)
    refine ⟨b :: bars, ?_⟩
    have hcons : records (b :: bars) = BinaryBar.image.put b ++ records bars := rfl
    rw [hcons, hput, hbars]
    exact List.take_append_drop 52 data

/-- The arguments of a call of `write_bar`. -/
structure BarCall where
  symbolId : UInt32
  acc : Acc
  type : UInt8

/-- The output after some calls. -/
def writeBars (calls : List BarCall) : BarOutput :=
  calls.foldl (fun w c => w.writeBar c.symbolId c.acc c.type) {}

/-- The bar that a call is about, as the reader is to return it. -/
def BarCall.bar (c : BarCall) : Bar where
  symbolId := c.symbolId.toNat
  startTsNs := c.acc.startTs.toNat
  endTsNs := c.acc.endTs.toNat
  openPrice := c.acc.openPrice.toNat
  high := c.acc.high.toNat
  low := c.acc.low.toNat
  close := c.acc.close.toNat
  volume := c.acc.volume.toNat
  barType := c.type.toNat

theorem writeBars_out (calls : List BarCall) :
    ∃ bars, (writeBars calls).out = records bars ∧ bars.map BinaryBar.shown = calls.map BarCall.bar := by
  induction calls using List.reverseRecOn with
  | nil => exact ⟨[], rfl, rfl⟩
  | append_singleton pre c ih =>
    obtain ⟨bars, hout, hshown⟩ := ih
    have hsnoc : writeBars (pre ++ [c]) = (writeBars pre).writeBar c.symbolId c.acc c.type := by
      unfold writeBars
      rw [List.foldl_append]
      rfl
    refine ⟨bars ++ [⟨c.symbolId, c.acc.startTs, c.acc.endTs, c.acc.openPrice, c.acc.high, c.acc.low,
      c.acc.close, c.acc.volume, c.type, Vector.replicate 7 0⟩], ?_, ?_⟩
    · rw [hsnoc]
      unfold BarOutput.writeBar records at *
      rw [List.map_append, List.flatten_append, ← hout, List.map_singleton, List.flatten_singleton]
      dsimp only
      split_ifs <;> rfl
    · rw [List.map_append, List.map_append, hshown]
      rfl

theorem readBars_writeBars (calls : List BarCall) :
    readBars (writeBars calls).out = .ok (calls.map BarCall.bar) := by
  obtain ⟨bars, hout, hshown⟩ := writeBars_out calls
  rw [hout, readBars_records, hshown]

/-- **The bar log round-trips.** Whatever bars are written, the reader returns them field by field and
in order; and it reads exactly the files whose length is a multiple of the record's. -/
theorem bar_log_round_trip :
    (∀ calls : List BarCall, readBars (writeBars calls).out = .ok (calls.map BarCall.bar)) ∧
    BinaryBar.image.size = 52 ∧
    ∀ data : List UInt8, (∃ bars, readBars data = .ok bars) ↔ BinaryBar.image.size ∣ data.length := by
  refine ⟨readBars_writeBars, rfl, ?_⟩
  intro data
  have hsize : BinaryBar.image.size = BAR_SIZE := BAR_SIZE_eq.symm
  rw [hsize]
  constructor
  · rintro ⟨bars, hread⟩
    unfold readBars at hread
    split_ifs at hread with hlen
    exact Nat.dvd_of_mod_eq_zero (not_ne_iff.mp hlen)
  · intro hdvd
    obtain ⟨bars, rfl⟩ := exists_records hdvd
    exact ⟨_, readBars_records bars⟩

end MarketDataPipeline.Bars
