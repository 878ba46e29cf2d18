/-
# MarketDataPipeline.Book.Undo — a delete takes back an add.

Adding a new order and deleting it again leaves every member of the builder as it was, the slots of the
pool and the words of the bitmaps included.

In the pool the new record fills a slot that was free.  No entry's path crosses a free slot, so the
backshift after the deletion moves nothing (`backshift_filled`), also when the new record was the last
that fitted.  On a side the quantity comes back by arithmetic; bitmap and best price come back because
both are determined by the quantities (`Represents.unique`), although the best price is searched for
again and not remembered.
-/
import MarketDataPipeline.Book.Histories
import MarketDataPipeline.Book.Tops

namespace MarketDataPipeline.Book

open MarketDataPipeline.Wire
open MarketDataPipeline.Library.Bitmap

/-! ## The pool -/

/-- Erasing the record that filled a free slot. -/
theorem OrderPool.Sound.erase_filled {orderSlot : UInt64 → Fin kOrderPool} {p : OrderPool}
    (h : p.Sound orderSlot) {idx : Fin kOrderPool} (hfree : liveKey (p.orders idx) = none)
    {orderId : UInt64} {o : OrderFields}
    (hfind : OrderPool.findOrder orderSlot
      ⟨Function.update p.orders idx (recordOf orderId o), p.liveCount + 1⟩ orderId = some idx) :
    OrderPool.eraseOrder orderSlot
      ⟨Function.update p.orders idx (recordOf orderId o), p.liveCount + 1⟩ orderId = p := by
  have hempty : p.orders idx = {} := h.free idx (liveKey_eq_none.mp hfree)
  unfold OrderPool.eraseOrder
  rw [hfind]
  dsimp only
  rw [OrderPool.backshift_filled h hfree, Function.update_idem, ← hempty, Function.update_eq_self,
    if_pos (Nat.succ_pos _), Nat.add_sub_cancel]

/-! ## A side -/

theorem IsBest.unique {isBid : Bool} {L : Nat → Nat} {best best' : Nat} (h : IsBest isBid L best)
    (h' : IsBest isBid L best') : best = best' := by
  cases isBid with
  | true =>
    exact BookBuilder.eq_of_extreme (fun _ _ => IsGreatest.unique)
      (fun _ hp => hp.nonempty.ne_empty) h h'
  | false =>
    exact BookBuilder.eq_of_extreme (fun _ _ => IsLeast.unique)
      (fun _ hp => hp.nonempty.ne_empty) h h'

namespace SideBook

variable {s s' : SideBook} {isBid : Bool} {L : Nat → Nat} {price qty : UInt32}

/-- Bitmap and best price are functions of the quantities. -/
theorem Represents.unique (h : s.Represents isBid L) (h' : s'.Represents isBid L)
    (hqty : s.qty = s'.qty) : s = s' := by
  have hwords : s.occupied = s'.occupied := by
    apply words_ext
    intro p hp
    have hbit : s.marked p = s'.marked p :=
      Bool.eq_iff_iff.mpr ((h.bits p hp).trans (h'.bits p hp).symm)
    exact hbit
  have hbest : s.bestPrice = s'.bestPrice := UInt32.toNat_inj.mp (h.best.unique h'.best)
  cases s
  cases s'
  simp only at hqty hwords hbest
  rw [hqty, hwords, hbest]

/-- Adding to a level and removing the same again. -/
theorem Represents.removeLevel_addLevel (h : s.Represents isBid L) (h1 : 1 ≤ price.toNat)
    (h2 : price.toNat ≤ kPriceLevels) (hq : qty ≠ 0) (hsum : L price.toNat + qty.toNat < 2 ^ 32) :
    (s.addLevel price qty isBid).removeLevel price qty isBid = s := by
  have hadd := addLevel_represents h h1 h2 hq hsum
  have hback := removeLevel_represents hadd h1 h2
    (by rw [Function.update_self]; exact Nat.le_add_left _ _) hq
  rw [Function.update_self, Nat.add_sub_cancel, Function.update_idem, Function.update_eq_self] at hback
  refine hback.unique h ?_
  have hrest : (s.addLevel price qty isBid).remaining price qty = s.qtyAt price := by
    apply UInt32.toNat_inj.mp
    rw [toNat_remaining hadd.toShows h1 h2 (by rw [Function.update_self]; exact Nat.le_add_left _ _),
      Function.update_self, Nat.add_sub_cancel]
    exact (h.toShows.qtyAt h1 h2).symm
  rw [removeLevel_qty, hrest]
  unfold setQty qtyAt
  dsimp only
  rw [addLevel_qty]
  unfold setQty
  rw [Function.update_idem, Function.update_eq_self]

end SideBook

/-! ## The book -/

namespace BookBuilder

variable {b : BookBuilder} {S : BookSpec} {symbolId : UInt32} {side : Side}

/-- Two changes to one side. -/
theorem updateSide_updateSide (f g : SideBook → SideBook) :
    (b.updateSide symbolId side f).updateSide symbolId side g
      = b.updateSide symbolId side fun s => g (f s) := by
  unfold updateSide setBook book
  dsimp only
  rw [Function.update_self, Function.update_idem]
  cases side <;> rfl

/-- A change that leaves the side as it is. -/
theorem updateSide_eq_self {f : SideBook → SideBook}
    (h : f ((b.book symbolId).side side) = (b.book symbolId).side side) :
    b.updateSide symbolId side f = b := by
  have hbook : (b.book symbolId).setSide side ((b.book symbolId).side side) = b.book symbolId := by
    cases side <;> rfl
  unfold updateSide
  dsimp only
  rw [h, hbook]
  unfold setBook book
  rw [Function.update_eq_self]

/-- The level entry of a new order, put in and taken out. -/
theorem Refines.removeLevelAt_addLevelAt (h : Refines S b) {o : OrderFields} (ho : ValidOrder o)
    (hlevel : levelQty S.orders o.symbolId o.side o.price.toNat + o.qty.toNat < 2 ^ 32) :
    (b.addLevelAt o.symbolId o.side o.price o.qty).removeLevelAt o.symbolId o.side o.price o.qty
      = b := by
  unfold addLevelAt removeLevelAt
  rw [updateSide_updateSide]
  apply updateSide_eq_self
  exact (h.levels _ ho.1 _).removeLevel_addLevel ho.2.1 ho.2.2.1 (qty_ne_zero ho) hlevel

/-- Deleting an order that has just been put into a free slot. -/
theorem Refines.onDelete_deposit (h : Refines S b) {d : DeleteOrder} {o : OrderFields}
    (ho : ValidOrder o)
    (hlevel : levelQty S.orders o.symbolId o.side o.price.toNat + o.qty.toNat < 2 ^ 32)
    {idx : Fin kOrderPool} (hfree : liveKey (b.orders idx) = none) {pool : OrderPool}
    (hpool : pool = ⟨Function.update b.orders idx (recordOf d.orderId o), b.liveCount + 1⟩)
    (hrefines : pool.Refines orderSlot (S.orders.insert d.orderId o)) :
    ((b.deposit o pool).onDelete d).1 = b := by
  have hrec : pool.orders idx = recordOf d.orderId o := by
    rw [hpool]
    exact Function.update_self ..
  have hfind : pool.findOrder orderSlot d.orderId = some idx := by
    rw [hrefines.sound.findOrder_eq_some, hrec, liveKey_recordOf]
  have herase : pool.eraseOrder orderSlot d.orderId = b.toOrderPool := by
    subst hpool
    exact h.pool.sound.erase_filled hfree hfind
  have hbooks := congrArg BookBuilder.books (h.removeLevelAt_addLevelAt ho hlevel)
  show (BookBuilder.onDelete { b.addLevelAt o.symbolId o.side o.price o.qty with
    toOrderPool := pool } d).1 = b
  unfold onDelete
  dsimp only
  rw [hfind]
  dsimp only
  rw [hrec]
  show BookBuilder.mk (pool.eraseOrder orderSlot d.orderId) _ = b
  rw [herase]
  exact congrArg (BookBuilder.mk b.toOrderPool) hbooks

/-- **Deleting a new order takes back everything that adding it did**: the slots, the count, the
quantities, the bitmaps, the best prices and the last trades are those from before. -/
theorem delete_undoes_add (msgs : List BookMsg)
    (hsum : ∀ pre, pre <+: msgs → ∀ symbolId side price,
      levelQty (specBook pre).orders symbolId side price < 2 ^ 32)
    (m : AddOrder) (d : DeleteOrder) (hid : d.orderId = m.orderId)
    (hvalid : acceptable m.symbolId m.price m.qty = true)
    (hnew : (runBook msgs).liveRecord m.orderId = none) (hroom : (runBook msgs).liveCount < 65536)
    (hlevel : ((((runBook msgs).book m.symbolId).side m.side).qtyAt m.price).toNat + m.qty.toNat
      < 2 ^ 32) :
    (((runBook msgs).onAdd m).1.onDelete d).1 = runBook msgs := by
  have h := runBook_refines msgs hsum
  have ho : ValidOrder ⟨m.symbolId, m.side, m.price, m.qty⟩ := acceptable_iff.mp hvalid
  have hl : (specBook msgs).orders.lookup m.orderId = none := by
    rw [h.toHolds.liveRecord] at hnew
    exact Option.map_eq_none_iff.mp hnew
  rw [(h.levels _ ho.1 m.side).toShows.qtyAt ho.2.1 ho.2.2.1] at hlevel
  obtain ⟨idx, hfree, hpool, heq⟩ :=
    onAdd_new h.toHolds ho hl (by rw [← h.pool.count]; exact hroom)
  rw [heq]
  rw [← hid] at hpool ⊢
  exact h.onDelete_deposit ho hlevel hfree rfl hpool

/-- A new best bid behind which the old one comes back. -/
theorem delete_undoes_add_best :
    let m : AddOrder := ⟨⟨.addOrder, 44, 3, 3⟩, 7, 3, .buy, 110, 6⟩
    let d : DeleteOrder := ⟨⟨.deleteOrder, 36, 4, 4⟩, 7, 9⟩
    (((runBook twoBids).onAdd m).1.onDelete d).1 = runBook twoBids ∧
      (((runBook twoBids).onAdd m).1.top 3).bidPrice = 110 ∧
      ((runBook twoBids).top 3).bidPrice = 100 := by
  refine ⟨delete_undoes_add twoBids (levelQty_lt_of_total (by decide)) _ _ rfl (by decide) ?_ ?_ ?_,
    by decide +kernel, by decide +kernel⟩
  · decide +kernel
  · decide +kernel
  · decide +kernel

end BookBuilder

end MarketDataPipeline.Book
