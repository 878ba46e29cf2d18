/-
# MarketDataPipeline.Book.Consistency — what a wrapped level sum breaks.

A level is represented three times: by its quantity, by its bit in the bitmap, and by the records in
the pool.  `Consistent` says that the three agree, that the quantity is the sum of the resting orders
and that the best price has a quantity.

`add_level` adds in 32 bits without a guard, so agreement lasts exactly as long as no level sum reaches
`2^32`.  Two orders of `2^31` at one price are enough to break it: the quantity is 0, the bit is set,
and `top` shows a price with nothing at it.
-/
import MarketDataPipeline.Book.Histories

namespace MarketDataPipeline.Book

open MarketDataPipeline.Wire

namespace BookBuilder

variable {b : BookBuilder} {S : BookSpec}

/-- A live order rests at the level. -/
def RestsAt (b : BookBuilder) (symbolId : UInt32) (side : Side) (price : UInt32) : Prop :=
  ∃ idx, (b.orders idx).state = 1 ∧ (b.orders idx).symbolId = symbolId ∧
    (b.orders idx).side = side ∧ (b.orders idx).price = price

/-- **The levels, the bitmaps, the best prices and the orders agree.** -/
structure Consistent (M : OrderMap) (b : BookBuilder) : Prop where
  sum : ∀ symbolId price : UInt32, symbolId.toNat < 32 → validPrice price = true → ∀ side,
    (((b.book symbolId).side side).qtyAt price).toNat = levelQty M symbolId side price.toNat
  marked : ∀ symbolId price : UInt32, symbolId.toNat < 32 → validPrice price = true → ∀ side,
    (((b.book symbolId).side side).marked price.toNat = true ↔
      ((b.book symbolId).side side).qtyAt price ≠ 0)
  resting : ∀ symbolId price : UInt32, symbolId.toNat < 32 → validPrice price = true → ∀ side,
    (((b.book symbolId).side side).qtyAt price ≠ 0 ↔ b.RestsAt symbolId side price)
  best : ∀ symbolId : UInt32, symbolId.toNat < 32 → ∀ side,
    ((b.book symbolId).side side).bestPrice ≠ 0 →
      ((b.book symbolId).side side).qtyAt ((b.book symbolId).side side).bestPrice ≠ 0
  top : ∀ symbolId, ((b.top symbolId).bidPrice ≠ 0 → (b.top symbolId).bidQty ≠ 0) ∧
    ((b.top symbolId).askPrice ≠ 0 → (b.top symbolId).askQty ≠ 0)

/-- The orders in the pool are those of the map. -/
theorem Holds.restsAt (h : Holds S b) {symbolId price : UInt32} {side : Side} :
    b.RestsAt symbolId side price ↔
      ∃ k o, S.orders.lookup k = some o ∧ o.symbolId = symbolId ∧ o.side = side ∧
        o.price.toNat = price.toNat := by
  constructor
  · rintro ⟨idx, hstate, hsym, hside, hprice⟩
    have hrec := OrderPool.eq_recordOf (liveKey_eq_some.mpr ⟨hstate, rfl⟩)
    exact ⟨_, _, (h.pool.content _ _).mpr ⟨idx, hrec⟩, hsym, hside, by rw [hprice]⟩
  · rintro ⟨k, o, hl, hsym, hside, hprice⟩
    obtain ⟨idx, hrec⟩ := (h.pool.content k o).mp hl
    refine ⟨idx, ?_⟩
    rw [hrec]
    exact ⟨rfl, hsym, hside, UInt32.toNat_inj.mp hprice⟩

theorem toNat_ne_zero_iff {q : UInt32} : q ≠ 0 ↔ q.toNat ≠ 0 := UInt32.toNat_inj.ne.symm

/-- The quantity at a best price is not 0. -/
theorem best_qty_ne_zero {s : SideBook} {isBid : Bool} {L : Nat → Nat} (h : s.Represents isBid L)
    (hb : s.bestPrice ≠ 0) : s.qtyAt s.bestPrice ≠ 0 := by
  rw [toNat_ne_zero_iff, h.bestQty hb]
  exact h.best.ne_zero (toNat_ne_zero_iff.mp hb)

/-- A book that shows the level sums is consistent. -/
theorem Refines.consistent (h : Refines S b) : Consistent S.orders b where
  sum := by
    intro symbolId price hsym hprice side
    obtain ⟨h1, h2⟩ := validPrice_iff.mp hprice
    exact (h.levels symbolId hsym side).toShows.qtyAt h1 h2
  marked := by
    intro symbolId price hsym hprice side
    obtain ⟨h1, h2⟩ := validPrice_iff.mp hprice
    have hside := (h.levels symbolId hsym side).toShows
    rw [toNat_ne_zero_iff, hside.qtyAt h1 h2]
    exact hside.bits _ (Nat.lt_of_le_of_lt h2 (by decide))
  resting := by
    intro symbolId price hsym hprice side
    obtain ⟨h1, h2⟩ := validPrice_iff.mp hprice
    rw [toNat_ne_zero_iff, (h.levels symbolId hsym side).toShows.qtyAt h1 h2, h.restsAt]
    exact levelQty_ne_zero h.valid
  best := fun symbolId hsym side => best_qty_ne_zero (h.levels symbolId hsym side)
  top := by
    intro symbolId
    unfold BookBuilder.top
    split_ifs with hsym
    · exact ⟨fun hne => absurd rfl hne, fun hne => absurd rfl hne⟩
    · have hlt : symbolId.toNat < 32 := Nat.not_le.mp hsym
      constructor
      · intro hb
        show bestQty _ ≠ 0
        unfold bestQty
        rw [if_pos hb]
        exact best_qty_ne_zero (h.levels symbolId hlt .buy) hb
      · intro hb
        show bestQty _ ≠ 0
        unfold bestQty
        rw [if_pos hb]
        exact best_qty_ne_zero (h.levels symbolId hlt .sell) hb

/-- A level that agrees with its 32-bit quantity has a sum below `2^32`. -/
theorem Consistent.levelQty_lt (h : Consistent S.orders b) (hb : Holds S b) (symbolId : UInt32)
    (side : Side) (price : Nat) : levelQty S.orders symbolId side price < 2 ^ 32 := by
  by_cases hin : symbolId.toNat < 32 ∧ 1 ≤ price ∧ price ≤ 4096
  · obtain ⟨hsym, h1, h2⟩ := hin
    have hval : (UInt32.ofNat price).toNat = price :=
      SideBook.toNat_price (Nat.lt_of_le_of_lt h2 (by decide))
    have hsum := h.sum symbolId (UInt32.ofNat price) hsym
      (validPrice_iff.mpr (by rw [hval]; exact ⟨h1, h2⟩)) side
    rw [hval] at hsum
    rw [← hsum]
    exact UInt32.toNat_lt _
  · have hzero : levelQty S.orders symbolId side price = 0 := by
      by_contra hne
      obtain ⟨k, o, hl, rfl, -, rfl⟩ := (levelQty_ne_zero hb.valid).mp hne
      obtain ⟨hs, h1, h2, -⟩ := hb.valid k o hl
      exact hin ⟨hs, h1, h2⟩
    rw [hzero]
    exact Nat.two_pow_pos 32

/-- **The level representation stays consistent exactly as long as no level sum reaches `2^32`**, over
every run of the four message functions from a fresh builder. -/
theorem level_quantities_consistent (msgs : List BookMsg) :
    (∀ pre, pre <+: msgs → Consistent (specBook pre).orders (runBook pre)) ↔
      ∀ pre, pre <+: msgs → ∀ symbolId side price,
        levelQty (specBook pre).orders symbolId side price < 2 ^ 32 := by
  constructor
  · intro h pre hpre
    exact (h pre hpre).levelQty_lt (runBook_holds pre)
  · intro hsum pre hpre
    exact (runBook_refines pre fun q hq => hsum q (hq.trans hpre)).consistent

/-- Two bids of `2^31` at one price. -/
def halfAndHalf : List BookMsg :=
  [.add ⟨⟨.addOrder, 44, 1, 1⟩, 1, 3, .buy, 100, 2147483648⟩,
    .add ⟨⟨.addOrder, 44, 2, 2⟩, 2, 3, .buy, 100, 2147483648⟩]

/-- Two live orders, a set bit, a best price, and the quantity 0. -/
theorem wrapped_level_shows_nothing :
    ¬ (((runBook halfAndHalf).book 3).bid.marked 100 = true ↔
        ((runBook halfAndHalf).book 3).bid.qtyAt 100 ≠ 0) ∧
      ((runBook halfAndHalf).top 3).bidPrice ≠ 0 ∧ ((runBook halfAndHalf).top 3).bidQty = 0 := by
  decide +kernel

end BookBuilder

end MarketDataPipeline.Book
