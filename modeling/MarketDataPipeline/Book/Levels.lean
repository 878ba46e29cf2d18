/-
# MarketDataPipeline.Book.Levels — one side of a book.

A side keeps the quantity of every price, a bitmap of the prices with a quantity, and the best price.
`SideBook` and its four operations are those of `book.cpp`.

`Represents isBid L s` says that the side `s` shows the quantities `L`: all three representations
agree with the one function.  Adding to and removing from a level keep it (`addLevel_represents`,
`removeLevel_represents`); the latter rests on the bitmap scans of `recompute_best`, which find the
nearest remaining price from the old best one (`scanBid_spec`, `scanAsk_spec`).
-/
import Mathlib.Order.Bounds.Basic
import MarketDataPipeline.Library.Bitmap

namespace MarketDataPipeline.Book

open MarketDataPipeline.Library.Bitmap

/-! ## State -/

def kPriceLevels : Nat := 4096
def kBitmapWords : Nat := kPriceLevels / 64 + 1

instance : NeZero kBitmapWords := ⟨by decide⟩

structure SideBook where
  qty : Fin (kPriceLevels + 1) → UInt32 := fun _ => 0
  occupied : Fin kBitmapWords → UInt64 := fun _ => 0
  bestPrice : UInt32 := 0

namespace SideBook

/-- `side.qty[price]`. -/
def qtyAt (s : SideBook) (price : UInt32) : UInt32 := s.qty (Fin.ofNat _ price.toNat)

/-- The same with a number as the index. -/
def heldAt (s : SideBook) (p : Nat) : UInt32 := s.qty (Fin.ofNat _ p)

/-! ## Operations -/

def setQty (s : SideBook) (price qty : UInt32) : SideBook :=
  { s with qty := Function.update s.qty (Fin.ofNat _ price.toNat) qty }

def setOccupied (s : SideBook) (price : UInt32) (on : Bool) : SideBook :=
  let word := Fin.ofNat kBitmapWords (price.toNat / 64)
  let mask := (1 : UInt64) <<< UInt64.ofNat (price.toNat % 64)
  let updated := if on then s.occupied word ||| mask else s.occupied word &&& ~~~mask
  { s with occupied := Function.update s.occupied word updated }

/-- The bits of a word that the downward scan looks at. -/
def bidBits (s : SideBook) (word : Nat) : UInt64 :=
  let bits := s.occupied (Fin.ofNat kBitmapWords word)
  if word = s.bestPrice.toNat / 64 then
    let bit := s.bestPrice.toNat % 64
    -- bit 63 needs no mask, and a shift by 64 would not be defined
    if bit < 63 then bits &&& ((1 : UInt64) <<< UInt64.ofNat (bit + 1) - 1) else bits
  else bits

/-- The downward scan from a word. -/
def scanBid (s : SideBook) (word : Nat) : UInt32 :=
  if s.bidBits word ≠ 0 then
    UInt32.ofNat (word * 64 + (63 - countlZero (s.bidBits word)))
  else
    match word with
    | 0 => 0
    | word + 1 => s.scanBid word

/-- The bits of a word that the upward scan looks at. -/
def askBits (s : SideBook) (word : Nat) : UInt64 :=
  let bits := s.occupied (Fin.ofNat kBitmapWords word)
  if word = s.bestPrice.toNat / 64 then
    bits &&& ~~~((1 : UInt64) <<< UInt64.ofNat (s.bestPrice.toNat % 64) - 1)
  else bits

/-- The upward scan over the `n` words from `word` on. -/
def scanAsk (s : SideBook) : Nat → Nat → UInt32
  | 0, _ => 0
  | n + 1, word =>
    if s.askBits word ≠ 0 then UInt32.ofNat (word * 64 + countrZero (s.askBits word))
    else s.scanAsk n (word + 1)

def recomputeBest (s : SideBook) (isBid : Bool) : SideBook :=
  let word := s.bestPrice.toNat / 64
  { s with bestPrice := if isBid then s.scanBid word else s.scanAsk (kBitmapWords - word) word }

def addLevel (s : SideBook) (price qty : UInt32) (isBid : Bool) : SideBook :=
  let wasEmpty := s.qtyAt price == 0
  let s := s.setQty price (s.qtyAt price + qty)
  let s := if wasEmpty then s.setOccupied price true else s
  -- 0 is no price: it stands for an empty side
  if s.bestPrice = 0 then { s with bestPrice := price }
  else if isBid then
    if s.bestPrice < price then { s with bestPrice := price } else s
  else if price < s.bestPrice then { s with bestPrice := price }
  else s

def removeLevel (s : SideBook) (price qty : UInt32) (isBid : Bool) : SideBook :=
  -- removing more than there is empties the level, it does not wrap
  let s := if s.qtyAt price ≤ qty then s.setQty price 0 else s.setQty price (s.qtyAt price - qty)
  let s := if s.qtyAt price = 0 then s.setOccupied price false else s
  if price = s.bestPrice ∧ s.qtyAt price = 0 then s.recomputeBest isBid else s

/-! ## The scans -/

/-- `p` is marked as occupied. -/
def marked (s : SideBook) (p : Nat) : Bool := member s.occupied p

theorem bit_bidBits {s : SideBook} {word i : Nat} (hi : i < 64) :
    bit (s.bidBits word) i = true ↔
      s.marked (word * 64 + i) = true ∧
        (word = s.bestPrice.toNat / 64 → i ≤ s.bestPrice.toNat % 64) := by
  have hdiv : (word * 64 + i) / 64 = word := by omega
  have hmod : (word * 64 + i) % 64 = i := by omega
  unfold bidBits marked member
  rw [hdiv, hmod]
  dsimp only
  split_ifs with hword hbit
  · rw [bit_and, bit_mask (by omega)]
    simp only [Bool.and_eq_true, decide_eq_true_eq, hword, forall_const, Nat.lt_add_one_iff]
  · have hle : i ≤ s.bestPrice.toNat % 64 := by omega
    simp [hle]
  · simp [hword]

theorem bit_askBits {s : SideBook} {word i : Nat} (hi : i < 64) :
    bit (s.askBits word) i = true ↔
      s.marked (word * 64 + i) = true ∧
        (word = s.bestPrice.toNat / 64 → s.bestPrice.toNat % 64 ≤ i) := by
  have hdiv : (word * 64 + i) / 64 = word := by omega
  have hmod : (word * 64 + i) % 64 = i := by omega
  unfold askBits marked member
  rw [hdiv, hmod]
  dsimp only
  split_ifs with hword
  · rw [bit_and, bit_not _ hi, bit_mask (Nat.mod_lt _ (by decide))]
    simp only [Bool.and_eq_true, Bool.not_eq_true', decide_eq_false_iff_not, hword, forall_const,
      Nat.not_lt]
  · simp [hword]

/-- The bitmap has a bit for every price. -/
theorem lt_words {p : Nat} (h : p ≤ kPriceLevels) : p < 64 * kBitmapWords := by
  have hwords : 64 * kBitmapWords = 4160 := rfl
  have hlevels : kPriceLevels = 4096 := rfl
  omega

/-- A price that fits the bitmap is not cut by the conversion to 32 bits. -/
theorem toNat_price {p : Nat} (h : p < 64 * kBitmapWords) : (UInt32.ofNat p).toNat = p := by
  rw [UInt32.toNat_ofNat']
  apply Nat.mod_eq_of_lt
  have hwords : 64 * kBitmapWords = 4160 := rfl
  omega

/-- A marked price up to the old best one is a bit of its word. -/
theorem bidBits_of_marked {s : SideBook} {q : Nat} (hq : s.marked q = true)
    (hqb : q ≤ s.bestPrice.toNat) : bit (s.bidBits (q / 64)) (q % 64) = true := by
  rw [bit_bidBits (Nat.mod_lt _ (by decide)), Nat.div_add_mod']
  refine ⟨hq, ?_⟩
  intro hsame
  omega

theorem askBits_of_marked {s : SideBook} {q : Nat} (hq : s.marked q = true)
    (hqb : s.bestPrice.toNat ≤ q) : bit (s.askBits (q / 64)) (q % 64) = true := by
  rw [bit_askBits (Nat.mod_lt _ (by decide)), Nat.div_add_mod']
  refine ⟨hq, ?_⟩
  intro hsame
  omega

/-- What the scan finds in a word that has something to offer. -/
theorem bidBits_last {s : SideBook} {word : Nat} (hword : word ≤ s.bestPrice.toNat / 64)
    (hne : s.bidBits word ≠ 0) :
    IsGreatest {q | s.marked q = true ∧ q ≤ s.bestPrice.toNat ∧ q / 64 ≤ word}
      (word * 64 + (63 - countlZero (s.bidBits word))) := by
  obtain ⟨hmark, hle⟩ := (bit_bidBits (bit_lt (bit_last hne))).mp (bit_last hne)
  have hlt := bit_lt (bit_last hne)
  constructor
  · refine ⟨hmark, ?_, by omega⟩
    rcases Nat.lt_or_eq_of_le hword with hbelow | heq
    · omega
    · have hin := hle heq
      omega
  · rintro q ⟨hq, hqb, hqw⟩
    rcases Nat.lt_or_eq_of_le hqw with hbelow | heq
    · omega
    · -- a price of the same word is one of its bits
      have hlast := le_last (heq ▸ bidBits_of_marked hq hqb)
      omega

theorem bidBits_none {s : SideBook} {word q : Nat} (hzero : s.bidBits word = 0)
    (hq : s.marked q = true) (hqb : q ≤ s.bestPrice.toNat) : q / 64 ≠ word := by
  rintro rfl
  have hbit := bidBits_of_marked hq hqb
  rw [eq_zero_iff.mp hzero] at hbit
  cases hbit

/-- **The downward scan** finds the greatest marked price up to the old best one, within the words it
covers. -/
theorem scanBid_spec (s : SideBook) (hbest : s.bestPrice.toNat < 64 * kBitmapWords) (word : Nat)
    (hword : word ≤ s.bestPrice.toNat / 64) :
    IsGreatest {q | s.marked q = true ∧ q ≤ s.bestPrice.toNat ∧ q / 64 ≤ word}
        (s.scanBid word).toNat ∨
      ({q | s.marked q = true ∧ q ≤ s.bestPrice.toNat ∧ q / 64 ≤ word} = ∅ ∧ s.scanBid word = 0) := by
  induction word with
  | zero =>
    unfold scanBid
    by_cases hne : s.bidBits 0 ≠ 0
    · have hlast := bidBits_last hword hne
      rw [if_pos hne, toNat_price (Nat.lt_of_le_of_lt hlast.1.2.1 hbest)]
      exact Or.inl hlast
    · rw [if_neg hne]
      refine Or.inr ⟨?_, rfl⟩
      rw [Set.eq_empty_iff_forall_notMem]
      rintro q ⟨hq, hqb, hqw⟩
      exact bidBits_none (not_ne_iff.mp hne) hq hqb (Nat.le_zero.mp hqw)
  | succ word ih =>
    unfold scanBid
    by_cases hne : s.bidBits (word + 1) ≠ 0
    · have hlast := bidBits_last hword hne
      rw [if_pos hne, toNat_price (Nat.lt_of_le_of_lt hlast.1.2.1 hbest)]
      exact Or.inl hlast
    · -- nothing in this word, so the words below decide
      rw [if_neg hne]
      have hset : {q | s.marked q = true ∧ q ≤ s.bestPrice.toNat ∧ q / 64 ≤ word + 1}
          = {q | s.marked q = true ∧ q ≤ s.bestPrice.toNat ∧ q / 64 ≤ word} := by
        ext q
        refine and_congr_right fun hq => and_congr_right fun hqb => ?_
        have hnot := bidBits_none (not_ne_iff.mp hne) hq hqb
        omega
      rw [hset]
      exact ih (Nat.le_of_succ_le hword)

theorem askBits_first {s : SideBook} {word : Nat} (hword : s.bestPrice.toNat / 64 ≤ word)
    (hne : s.askBits word ≠ 0) :
    IsLeast {q | s.marked q = true ∧ s.bestPrice.toNat ≤ q ∧ word ≤ q / 64}
      (word * 64 + countrZero (s.askBits word)) := by
  obtain ⟨hmark, hle⟩ := (bit_askBits (bit_lt (bit_first hne))).mp (bit_first hne)
  have hlt := bit_lt (bit_first hne)
  constructor
  · refine ⟨hmark, ?_, by omega⟩
    rcases Nat.lt_or_eq_of_le hword with habove | heq
    · omega
    · have hin := hle heq.symm
      omega
  · rintro q ⟨hq, hqb, hqw⟩
    rcases Nat.lt_or_eq_of_le hqw with habove | heq
    · omega
    · have hfirst := first_le (heq ▸ askBits_of_marked hq hqb)
      omega

theorem askBits_none {s : SideBook} {word q : Nat} (hzero : s.askBits word = 0)
    (hq : s.marked q = true) (hqb : s.bestPrice.toNat ≤ q) : q / 64 ≠ word := by
  rintro rfl
  have hbit := askBits_of_marked hq hqb
  rw [eq_zero_iff.mp hzero] at hbit
  cases hbit

/-- **The upward scan** finds the least marked price from the old best one on, within the words it
covers. -/
theorem scanAsk_spec (s : SideBook) (n word : Nat) (hn : word + n = kBitmapWords)
    (hword : s.bestPrice.toNat / 64 ≤ word) :
    IsLeast {q | q < 64 * kBitmapWords ∧ s.marked q = true ∧ s.bestPrice.toNat ≤ q ∧ word ≤ q / 64}
        (s.scanAsk n word).toNat ∨
      ({q | q < 64 * kBitmapWords ∧ s.marked q = true ∧ s.bestPrice.toNat ≤ q ∧ word ≤ q / 64} = ∅ ∧
        s.scanAsk n word = 0) := by
  induction n generalizing word with
  | zero =>
    refine Or.inr ⟨?_, rfl⟩
    rw [Set.eq_empty_iff_forall_notMem]
    rintro q ⟨hlt, -, -, hqw⟩
    omega
  | succ n ih =>
    unfold scanAsk
    by_cases hne : s.askBits word ≠ 0
    · obtain ⟨hmem, hleast⟩ := askBits_first hword hne
      have hlt : word * 64 + countrZero (s.askBits word) < 64 * kBitmapWords := by
        have hbit := bit_lt (bit_first hne)
        omega
      rw [if_pos hne, toNat_price hlt]
      exact Or.inl ⟨⟨hlt, hmem⟩, fun q hq => hleast hq.2⟩
    · -- nothing in this word, so the words above decide
      rw [if_neg hne]
      have hset : {q | q < 64 * kBitmapWords ∧ s.marked q = true ∧ s.bestPrice.toNat ≤ q ∧
            word ≤ q / 64}
          = {q | q < 64 * kBitmapWords ∧ s.marked q = true ∧ s.bestPrice.toNat ≤ q ∧
            word + 1 ≤ q / 64} := by
        ext q
        refine and_congr_right fun _ => and_congr_right fun hq => and_congr_right fun hqb => ?_
        have hnot := askBits_none (not_ne_iff.mp hne) hq hqb
        omega
      rw [hset]
      exact ih (word + 1) (by omega) (by omega)

end SideBook

/-! ## What a side shows -/

/-- `best` is the best price with a quantity: the greatest on the bid side, the least on the ask side,
and 0 if there is none. -/
def IsBest (isBid : Bool) (L : Nat → Nat) (best : Nat) : Prop :=
  (if isBid then IsGreatest {p | L p ≠ 0} best else IsLeast {p | L p ≠ 0} best) ∨
    ({p | L p ≠ 0} = ∅ ∧ best = 0)

theorem IsBest.ne_zero {isBid : Bool} {L : Nat → Nat} {best : Nat} (h : IsBest isBid L best)
    (hb : best ≠ 0) : L best ≠ 0 := by
  rcases h with h | ⟨-, h0⟩
  · cases isBid
    · exact h.1
    · exact h.1
  · exact absurd h0 hb

/-- Quantities and bitmap agree with `L`, whatever the best price says. -/
structure SideBook.Shows (L : Nat → Nat) (s : SideBook) : Prop where
  support : ∀ p, L p ≠ 0 → 1 ≤ p ∧ p ≤ kPriceLevels
  qty : ∀ p, 1 ≤ p → p ≤ kPriceLevels → (s.qty (Fin.ofNat _ p)).toNat = L p
  bits : ∀ p, p < 64 * kBitmapWords → (s.marked p = true ↔ L p ≠ 0)

/-- **The side represents the quantities `L`.** -/
structure SideBook.Represents (isBid : Bool) (L : Nat → Nat) (s : SideBook) : Prop
    extends SideBook.Shows L s where
  best : IsBest isBid L s.bestPrice.toNat

namespace SideBook

variable {s : SideBook} {isBid : Bool} {L : Nat → Nat} {price qty : UInt32}

theorem represents_empty (isBid : Bool) : Represents isBid (fun _ => 0) {} where
  support := fun p hp => absurd rfl hp
  qty := fun _ _ _ => rfl
  bits := by
    intro p _
    simp [marked, member, bit]
  best := by
    refine Or.inr ⟨?_, rfl⟩
    ext p
    simp

theorem Shows.qtyAt (h : s.Shows L) (h1 : 1 ≤ price.toNat)
    (h2 : price.toNat ≤ kPriceLevels) : (s.qtyAt price).toNat = L price.toNat :=
  h.qty _ h1 h2

/-- The quantity shown at the best price. -/
theorem Represents.bestQty (h : s.Represents isBid L) (hb : s.bestPrice ≠ 0) :
    (s.qtyAt s.bestPrice).toNat = L s.bestPrice.toNat := by
  have hne : s.bestPrice.toNat ≠ 0 := fun h0 => hb (UInt32.toNat_inj.mp h0)
  obtain ⟨h1, h2⟩ := h.support _ (h.best.ne_zero hne)
  exact h.toShows.qtyAt h1 h2

/-- Overwriting one quantity. -/
theorem setQty_qty {s : SideBook} {v : UInt32} {p : Nat} (h2 : price.toNat ≤ kPriceLevels)
    (hp : p ≤ kPriceLevels) :
    (s.setQty price v).qty (Fin.ofNat _ p) = if p = price.toNat then v else s.qty (Fin.ofNat _ p) := by
  unfold setQty
  dsimp only
  rw [Library.Bounds.update_ofNat s.qty (Nat.lt_succ_of_le h2) (Nat.lt_succ_of_le hp)]
  simp only [eq_comm]

theorem qtyAt_setQty {s : SideBook} {v : UInt32} : (s.setQty price v).qtyAt price = v := by
  unfold setQty qtyAt
  exact Function.update_self ..

theorem marked_setOccupied {s : SideBook} {on : Bool} {p : Nat} (h2 : price.toNat ≤ kPriceLevels)
    (hp : p < 64 * kBitmapWords) :
    (s.setOccupied price on).marked p
      = if on then s.marked p || decide (price.toNat = p)
        else s.marked p && !decide (price.toNat = p) := by
  have hprice : price.toNat < 64 * kBitmapWords := lt_words h2
  unfold setOccupied marked
  cases on
  · exact member_clear hprice hp
  · exact member_set hprice hp

/-- Writing a quantity and its bit together. -/
theorem Shows.update (h : s.Shows L) (h1 : 1 ≤ price.toNat) (h2 : price.toNat ≤ kPriceLevels)
    {s' : SideBook} {v : UInt32} (hqty : s'.qty = (s.setQty price v).qty)
    (hbits : ∀ p, p < 64 * kBitmapWords →
      (s'.marked p = true ↔ if p = price.toNat then v ≠ 0 else s.marked p = true)) :
    s'.Shows (Function.update L price.toNat v.toNat) where
  support := by
    intro p hp
    by_cases heq : p = price.toNat
    · rw [heq]
      exact ⟨h1, h2⟩
    · rw [Function.update_of_ne heq] at hp
      exact h.support p hp
  qty := by
    intro p hp1 hp2
    rw [hqty, setQty_qty h2 hp2]
    split_ifs with heq
    · rw [heq, Function.update_self]
    · rw [Function.update_of_ne heq]
      exact h.qty p hp1 hp2
  bits := by
    intro p hp
    rw [hbits p hp]
    split_ifs with heq
    · rw [heq, Function.update_self, ← UInt32.toNat_inj.ne]
      rfl
    · rw [Function.update_of_ne heq]
      exact h.bits p hp

theorem addLevel_qty : (s.addLevel price qty isBid).qty
    = (s.setQty price (s.qtyAt price + qty)).qty := by
  unfold addLevel setOccupied
  dsimp only
  split_ifs <;> rfl

theorem addLevel_occupied : (s.addLevel price qty isBid).occupied
    = if s.qtyAt price = 0 then (s.setOccupied price true).occupied else s.occupied := by
  unfold addLevel setOccupied setQty
  simp only [beq_iff_eq]
  split_ifs <;> rfl

theorem addLevel_bestPrice : (s.addLevel price qty isBid).bestPrice
    = if s.bestPrice = 0 then price
      else if isBid then (if s.bestPrice < price then price else s.bestPrice)
      else (if price < s.bestPrice then price else s.bestPrice) := by
  have hbest : ∀ on, (if on = true then (s.setQty price (s.qtyAt price + qty)).setOccupied price true
      else s.setQty price (s.qtyAt price + qty)).bestPrice = s.bestPrice := by
    intro on
    split_ifs <;> rfl
  unfold addLevel
  dsimp only
  rw [hbest]
  split_ifs <;> rfl

theorem toNat_addLevel_bestPrice : (s.addLevel price qty isBid).bestPrice.toNat
    = if s.bestPrice.toNat = 0 then price.toNat
      else if isBid then
        (if s.bestPrice.toNat < price.toNat then price.toNat else s.bestPrice.toNat)
      else (if price.toNat < s.bestPrice.toNat then price.toNat else s.bestPrice.toNat) := by
  have hzero : s.bestPrice.toNat = 0 ↔ s.bestPrice = 0 := by
    rw [← UInt32.toNat_inj]
    rfl
  rw [addLevel_bestPrice]
  simp only [hzero, ← UInt32.lt_iff_toNat_lt]
  split_ifs <;> rfl

theorem marked_addLevel {p : Nat} (h2 : price.toNat ≤ kPriceLevels) (hp : p < 64 * kBitmapWords) :
    (s.addLevel price qty isBid).marked p
      = if s.qtyAt price = 0 then s.marked p || decide (price.toNat = p) else s.marked p := by
  have hset : (s.setOccupied price true).marked p
      = (s.marked p || decide (price.toNat = p)) := marked_setOccupied h2 hp
  unfold marked at hset ⊢
  rw [addLevel_occupied]
  split_ifs
  · exact hset
  · rfl

/-- The quantities after an addition. -/
theorem addLevel_shows (h : s.Shows L) (h1 : 1 ≤ price.toNat) (h2 : price.toNat ≤ kPriceLevels)
    (hq : qty ≠ 0) (hsum : L price.toNat + qty.toNat < 2 ^ 32) :
    (s.addLevel price qty isBid).Shows
      (Function.update L price.toNat (L price.toNat + qty.toNat)) := by
  have hold := h.qtyAt h1 h2
  have hnew : (s.qtyAt price + qty).toNat = L price.toNat + qty.toNat := by
    rw [UInt32.toNat_add, hold, Nat.mod_eq_of_lt hsum]
  have hpos : qty.toNat ≠ 0 := fun h0 => hq (UInt32.toNat_inj.mp h0)
  have hv : s.qtyAt price + qty ≠ 0 := by
    intro h0
    rw [h0] at hnew
    rw [show (0 : UInt32).toNat = 0 from rfl] at hnew
    omega
  rw [← hnew]
  refine h.update h1 h2 addLevel_qty ?_
  intro p hp
  rw [marked_addLevel h2 hp]
  by_cases heq : p = price.toNat
  · -- the level itself: either its bit is set now or it was set before
    rw [if_pos heq]
    refine iff_of_true ?_ hv
    split_ifs with hempty
    · simp [heq]
    · rw [heq, h.bits _ (heq ▸ hp), ← hold]
      exact fun h0 => hempty (UInt32.toNat_inj.mp h0)
  · have hne : price.toNat ≠ p := fun h0 => heq h0.symm
    rw [if_neg heq]
    split_ifs <;> simp [hne]

/-- The best price after an addition. -/
theorem isBest_add {L : Nat → Nat} {best price q : Nat} (h : IsBest isBid L best)
    (hsupport : ∀ p, L p ≠ 0 → 1 ≤ p) (hq : q ≠ 0) :
    IsBest isBid (Function.update L price (L price + q))
      (if best = 0 then price
        else if isBid then (if best < price then price else best)
        else (if price < best then price else best)) := by
  have hset : {p | Function.update L price (L price + q) p ≠ 0} = insert price {p | L p ≠ 0} := by
    ext p
    rw [Set.mem_insert_iff, Set.mem_ofPred_eq, Set.mem_ofPred_eq]
    by_cases heq : p = price
    · subst heq
      rw [Function.update_self]
      refine iff_of_true ?_ (Or.inl rfl)
      omega
    · rw [Function.update_of_ne heq]
      simp [heq]
  refine Or.inl ?_
  rw [hset]
  rcases h with hbest | ⟨hnone, rfl⟩
  · -- there was a best price, so it is not 0
    have hmem : L best ≠ 0 := by
      cases isBid
      · exact hbest.1
      · exact hbest.1
    have hne : best ≠ 0 := Nat.pos_iff_ne_zero.mp (hsupport best hmem)
    rw [if_neg hne]
    cases isBid
    · simp only [Bool.false_eq_true, if_false] at hbest ⊢
      have hmin : (if price < best then price else best) = min price best := by
        split_ifs <;> omega
      rw [hmin]
      exact hbest.insert price
    · simp only [if_true] at hbest ⊢
      have hmax : (if best < price then price else best) = max price best := by
        split_ifs <;> omega
      rw [hmax]
      exact hbest.insert price
  · rw [hnone, if_pos rfl]
    cases isBid
    · simp [isLeast_singleton]
    · simp [isGreatest_singleton]

/-- **Adding to a level.** -/
theorem addLevel_represents (h : s.Represents isBid L) (h1 : 1 ≤ price.toNat)
    (h2 : price.toNat ≤ kPriceLevels) (hq : qty ≠ 0) (hsum : L price.toNat + qty.toNat < 2 ^ 32) :
    (s.addLevel price qty isBid).Represents isBid
      (Function.update L price.toNat (L price.toNat + qty.toNat)) := by
  refine ⟨addLevel_shows h.toShows h1 h2 hq hsum, ?_⟩
  have hpos : qty.toNat ≠ 0 := fun h0 => hq (UInt32.toNat_inj.mp h0)
  rw [toNat_addLevel_bestPrice]
  exact isBest_add h.best (fun p hp => (h.support p hp).1) hpos

/-- The side after the quantity and the bit have been updated, before the best price is. -/
def lowered (s : SideBook) (price qty : UInt32) : SideBook :=
  let s := if s.qtyAt price ≤ qty then s.setQty price 0 else s.setQty price (s.qtyAt price - qty)
  if s.qtyAt price = 0 then s.setOccupied price false else s

theorem removeLevel_eq : s.removeLevel price qty isBid =
    if price = (s.lowered price qty).bestPrice ∧ (s.lowered price qty).qtyAt price = 0 then
      (s.lowered price qty).recomputeBest isBid
    else s.lowered price qty := rfl

/-- The quantity that remains. -/
def remaining (s : SideBook) (price qty : UInt32) : UInt32 :=
  if s.qtyAt price ≤ qty then 0 else s.qtyAt price - qty

theorem lowered_eq : s.lowered price qty =
    if s.remaining price qty = 0 then
      (s.setQty price (s.remaining price qty)).setOccupied price false
    else s.setQty price (s.remaining price qty) := by
  unfold lowered remaining
  dsimp only
  by_cases hle : s.qtyAt price ≤ qty
  · rw [if_pos hle, if_pos hle, qtyAt_setQty]
  · rw [if_neg hle, if_neg hle, qtyAt_setQty]

theorem lowered_qty : (s.lowered price qty).qty = (s.setQty price (s.remaining price qty)).qty := by
  rw [lowered_eq]
  split_ifs <;> rfl

theorem lowered_bestPrice : (s.lowered price qty).bestPrice = s.bestPrice := by
  rw [lowered_eq]
  split_ifs <;> rfl

theorem marked_lowered {p : Nat} (h2 : price.toNat ≤ kPriceLevels) (hp : p < 64 * kBitmapWords) :
    (s.lowered price qty).marked p
      = if s.remaining price qty = 0 then s.marked p && !decide (price.toNat = p)
        else s.marked p := by
  have hset : (s.setOccupied price false).marked p
      = (s.marked p && !decide (price.toNat = p)) := marked_setOccupied h2 hp
  unfold marked at hset ⊢
  rw [lowered_eq]
  split_ifs
  · exact hset
  · rfl

theorem toNat_remaining (h : s.Shows L) (h1 : 1 ≤ price.toNat) (h2 : price.toNat ≤ kPriceLevels)
    (hq : qty.toNat ≤ L price.toNat) :
    (s.remaining price qty).toNat = L price.toNat - qty.toNat := by
  have hold := h.qtyAt h1 h2
  unfold remaining
  split_ifs with hle
  · rw [UInt32.le_iff_toNat_le, hold] at hle
    rw [show (0 : UInt32).toNat = 0 from rfl]
    omega
  · rw [UInt32.le_iff_toNat_le, hold] at hle
    rw [UInt32.toNat_sub_of_le _ _ (by rw [UInt32.le_iff_toNat_le, hold]; exact hq), hold]

/-- The quantities after a removal. -/
theorem lowered_shows (h : s.Shows L) (h1 : 1 ≤ price.toNat) (h2 : price.toNat ≤ kPriceLevels)
    (hq : qty.toNat ≤ L price.toNat) (hpos : qty ≠ 0) :
    (s.lowered price qty).Shows
      (Function.update L price.toNat (L price.toNat - qty.toNat)) := by
  have hrest := toNat_remaining h h1 h2 hq
  rw [← hrest]
  refine h.update h1 h2 lowered_qty ?_
  intro p hp
  rw [marked_lowered h2 hp]
  by_cases heq : p = price.toNat
  · rw [if_pos heq]
    split_ifs with hzero
    · simp [heq, hzero]
    · refine iff_of_true ?_ hzero
      have hlevel : L price.toNat ≠ 0 := by
        have hne : qty.toNat ≠ 0 := fun h0 => hpos (UInt32.toNat_inj.mp h0)
        omega
      rw [heq, h.bits _ (heq ▸ hp)]
      exact hlevel
  · have hne : price.toNat ≠ p := fun h0 => heq h0.symm
    rw [if_neg heq]
    split_ifs <;> simp [hne]

/-- **`recompute_best`** finds the best price, if all prices that are left are no better than the old
best one. -/
theorem recomputeBest_isBest (hsupport : ∀ p, L p ≠ 0 → 1 ≤ p ∧ p ≤ kPriceLevels)
    (hbits : ∀ p, p < 64 * kBitmapWords → (s.marked p = true ↔ L p ≠ 0))
    (h2 : s.bestPrice.toNat ≤ kPriceLevels)
    (hworse : ∀ p, L p ≠ 0 → if isBid then p ≤ s.bestPrice.toNat else s.bestPrice.toNat ≤ p) :
    IsBest isBid L (s.recomputeBest isBid).bestPrice.toNat := by
  have hwords : 64 * kBitmapWords = 4160 := rfl
  have hlevels : kPriceLevels = 4096 := rfl
  cases isBid
  · simp only [Bool.false_eq_true, if_false] at hworse
    have hset : {q | q < 64 * kBitmapWords ∧ s.marked q = true ∧ s.bestPrice.toNat ≤ q ∧
        s.bestPrice.toNat / 64 ≤ q / 64} = {p | L p ≠ 0} := by
      ext q
      constructor
      · rintro ⟨hlt, hq, -⟩
        exact (hbits q hlt).mp hq
      · intro hq
        have hbound := hsupport q hq
        have hge := hworse q hq
        exact ⟨by omega, (hbits q (by omega)).mpr hq, hge, by omega⟩
    have hscan := scanAsk_spec s (kBitmapWords - s.bestPrice.toNat / 64) (s.bestPrice.toNat / 64)
      (by omega) (Nat.le_refl _)
    rw [hset] at hscan
    unfold recomputeBest IsBest
    simp only [Bool.false_eq_true, if_false]
    rcases hscan with hleast | ⟨hnone, hzero⟩
    · exact Or.inl hleast
    · exact Or.inr ⟨hnone, by rw [hzero]; rfl⟩
  · simp only [if_true] at hworse
    have hset : {q | s.marked q = true ∧ q ≤ s.bestPrice.toNat ∧ q / 64 ≤ s.bestPrice.toNat / 64}
        = {p | L p ≠ 0} := by
      ext q
      constructor
      · rintro ⟨hq, hle, -⟩
        exact (hbits q (by omega)).mp hq
      · intro hq
        have hle := hworse q hq
        exact ⟨(hbits q (by omega)).mpr hq, hle, by omega⟩
    have hscan := scanBid_spec s (by omega) (s.bestPrice.toNat / 64) (Nat.le_refl _)
    rw [hset] at hscan
    unfold recomputeBest IsBest
    simp only [if_true]
    rcases hscan with hgreatest | ⟨hnone, hzero⟩
    · exact Or.inl hgreatest
    · exact Or.inr ⟨hnone, by rw [hzero]; rfl⟩

theorem recomputeBest_represents (h : s.Shows L)
    (h2 : s.bestPrice.toNat ≤ kPriceLevels)
    (hworse : ∀ p, L p ≠ 0 → if isBid then p ≤ s.bestPrice.toNat else s.bestPrice.toNat ≤ p) :
    (s.recomputeBest isBid).Represents isBid L :=
  ⟨⟨h.support, h.qty, h.bits⟩, recomputeBest_isBest h.support h.bits h2 hworse⟩

/-- A best price that still has a quantity stays the best when some level shrinks. -/
theorem isBest_shrink {L L' : Nat → Nat} {best : Nat} (h : IsBest isBid L best)
    (hsub : ∀ p, L' p ≠ 0 → L p ≠ 0) (hbest : L best ≠ 0 → L' best ≠ 0)
    (hsome : ∃ p, L p ≠ 0) : IsBest isBid L' best := by
  rcases h with h | ⟨hnone, -⟩
  · refine Or.inl ?_
    cases isBid
    · simp only [Bool.false_eq_true, if_false] at h ⊢
      exact ⟨hbest h.1, fun p hp => h.2 (hsub p hp)⟩
    · simp only [if_true] at h ⊢
      exact ⟨hbest h.1, fun p hp => h.2 (hsub p hp)⟩
  · obtain ⟨p, hp⟩ := hsome
    exact absurd (show p ∈ {p | L p ≠ 0} from hp) (by rw [hnone]; exact Set.notMem_empty p)

/-- **Removing from a level.** -/
theorem removeLevel_represents (h : s.Represents isBid L) (h1 : 1 ≤ price.toNat)
    (h2 : price.toNat ≤ kPriceLevels) (hq : qty.toNat ≤ L price.toNat) (hpos : qty ≠ 0) :
    (s.removeLevel price qty isBid).Represents isBid
      (Function.update L price.toNat (L price.toNat - qty.toNat)) := by
  have hshows := lowered_shows h.toShows h1 h2 hq hpos
  have hleft : ((s.lowered price qty).qtyAt price).toNat = L price.toNat - qty.toNat := by
    rw [hshows.qtyAt h1 h2, Function.update_self]
  have hsub : ∀ p, Function.update L price.toNat (L price.toNat - qty.toNat) p ≠ 0 → L p ≠ 0 := by
    intro p hp
    by_cases heq : p = price.toNat
    · rw [heq, Function.update_self] at hp
      rw [heq]
      omega
    · rwa [Function.update_of_ne heq] at hp
  have hlevel : L price.toNat ≠ 0 := by
    have hne : qty.toNat ≠ 0 := fun h0 => hpos (UInt32.toNat_inj.mp h0)
    omega
  rw [removeLevel_eq]
  split_ifs with hcase
  · -- the best level is used up: everything that is left is worse
    rw [lowered_bestPrice] at hcase
    apply recomputeBest_represents hshows
    · rw [lowered_bestPrice, ← hcase.1]
      exact h2
    · intro p hp
      rw [lowered_bestPrice]
      rcases h.best with hbest | ⟨hnone, -⟩
      · cases isBid
        · simp only [Bool.false_eq_true, if_false] at hbest ⊢
          exact hbest.2 (hsub p hp)
        · simp only [if_true] at hbest ⊢
          exact hbest.2 (hsub p hp)
      · exact absurd (show p ∈ {p | L p ≠ 0} from hsub p hp)
          (by rw [hnone]; exact Set.notMem_empty p)
  · -- the best price is another one, or something is left there
    refine ⟨hshows, ?_⟩
    rw [lowered_bestPrice]
    refine isBest_shrink h.best hsub ?_ ⟨_, hlevel⟩
    intro hbest
    by_cases heq : s.bestPrice.toNat = price.toNat
    · have hsame : price = (s.lowered price qty).bestPrice := by
        rw [lowered_bestPrice]
        exact (UInt32.toNat_inj.mp heq).symm
      rw [heq, Function.update_self, ← hleft]
      intro h0
      exact hcase ⟨hsame, UInt32.toNat_inj.mp h0⟩
    · rw [Function.update_of_ne heq]
      exact hbest

end SideBook

end MarketDataPipeline.Book
