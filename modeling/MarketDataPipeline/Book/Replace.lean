/-
# MarketDataPipeline.Book.Replace — adding an id that is live already.

`on_add` with a live id is a replacement: `insert_order` hands out the record that is there, the old
entry leaves its level, the new one goes to its own.  `Replaced` says all of it.

`insert_order` looks at the count before it looks for the id, so a full pool turns the replacement away
although it needs no slot, while `on_modify` does the same replacement at any load.  The exact condition
is `add_replaces_iff`; `filled` reaches the boundary.
-/
import MarketDataPipeline.Book.Tops

namespace MarketDataPipeline.Book

open MarketDataPipeline.Wire

namespace BookBuilder

/-! ## The replacement -/

/-- The fields of an add. -/
def orderOf (m : AddOrder) : OrderFields := ⟨m.symbolId, m.side, m.price, m.qty⟩

/-- **The add `m` after `msgs` replaces the live order `r`.** -/
structure Replaced (msgs : List BookMsg) (m : AddOrder) (r : OrderRecord) : Prop where
  record : ((runBook msgs).onAdd m).1.liveRecord m.orderId = some (recordOf m.orderId (orderOf m))
  others : ∀ orderId, orderId ≠ m.orderId →
    ((runBook msgs).onAdd m).1.liveRecord orderId = (runBook msgs).liveRecord orderId
  count : ((runBook msgs).onAdd m).1.liveCount = (runBook msgs).liveCount
  /-- Every level loses the share of the old order and gains that of the new one, if no level sum of
  the run reaches `2^32`. -/
  levels : (∀ pre, pre <+: msgs ++ [.add m] → ∀ symbolId side price,
      levelQty (specBook pre).orders symbolId side price < 2 ^ 32) →
    ∀ symbolId price : UInt32,
      (((runBook msgs).onAdd m).1.bidQtyAt symbolId price).toNat
          + share symbolId .buy price.toNat (some r.fields)
        = ((runBook msgs).bidQtyAt symbolId price).toNat
          + share symbolId .buy price.toNat (some (orderOf m)) ∧
      (((runBook msgs).onAdd m).1.askQtyAt symbolId price).toNat
          + share symbolId .sell price.toNat (some r.fields)
        = ((runBook msgs).askQtyAt symbolId price).toNat
          + share symbolId .sell price.toNat (some (orderOf m))

variable {msgs : List BookMsg} {m : AddOrder} {o : OrderFields}

/-- Putting in what is there already. -/
theorem insert_same {M : OrderMap} {orderId : UInt64} (h : M.lookup orderId = some o) :
    M.insert orderId o = M := by
  apply Finmap.ext_lookup
  intro k
  by_cases hk : k = orderId
  · rw [hk, Finmap.lookup_insert, h]
  · rw [Finmap.lookup_insert_of_ne _ hk]

/-- A level with one order exchanged for another under the same id. -/
theorem levelQty_exchange {M : OrderMap} {orderId : UInt64} (h : M.lookup orderId = some o)
    (o' : OrderFields) (symbolId : UInt32) (side : Side) (price : Nat) :
    levelQty (M.insert orderId o') symbolId side price + share symbolId side price (some o)
      = levelQty M symbolId side price + share symbolId side price (some o') := by
  have hold := levelQty_erase M orderId symbolId side price
  rw [h] at hold
  rw [levelQty_insert, hold]
  omega

/-- The abstract book after the add: the new order, or what was there if the pool is full. -/
theorem specBook_add (hvalid : ValidOrder (orderOf m)) :
    (specBook (msgs ++ [.add m])).orders
      = if (specBook msgs).orders.keys.card < 65536 then
          (specBook msgs).orders.insert m.orderId (orderOf m)
        else (specBook msgs).orders := by
  rw [specBook_snoc]
  simp only [BookSpec.step]
  split_ifs with hall hroom hroom
  · rfl
  · exact absurd hall.2 hroom
  · exact absurd ⟨hvalid, hroom⟩ hall
  · rfl

theorem onAdd_holds (msgs : List BookMsg) (m : AddOrder) :
    ((runBook msgs).onAdd m).1.Holds (specBook (msgs ++ [.add m])) :=
  runBook_snoc msgs (.add m) ▸ runBook_holds (msgs ++ [.add m])

/-- If the abstract book has the new order in place of the old one, so has the real one. -/
theorem replaced_of_insert (hl : (specBook msgs).orders.lookup m.orderId = some o)
    (hinsert : (specBook (msgs ++ [.add m])).orders
      = (specBook msgs).orders.insert m.orderId (orderOf m)) :
    Replaced msgs m (recordOf m.orderId o) := by
  have hbefore := runBook_holds msgs
  have hafter := onAdd_holds msgs m
  refine ⟨?record, ?others, ?count, ?levels⟩
  case record =>
    rw [hafter.liveRecord, hinsert, Finmap.lookup_insert]
    rfl
  case others =>
    intro orderId hne
    rw [hafter.liveRecord, hbefore.liveRecord, hinsert, Finmap.lookup_insert_of_ne _ hne]
  case count =>
    have hmem : m.orderId ∈ (specBook msgs).orders.keys :=
      Finmap.mem_keys.mpr (Finmap.mem_of_lookup_eq_some hl)
    rw [hafter.pool.count, hbefore.pool.count, hinsert, OrderPool.keys_insert,
      Finset.insert_eq_of_mem hmem]
  case levels =>
    intro hsum symbolId price
    have hrefines := runBook_refines msgs fun pre hpre =>
      hsum pre (hpre.trans (List.prefix_append _ _))
    have hrefines' : ((runBook msgs).onAdd m).1.Refines (specBook (msgs ++ [.add m])) :=
      runBook_snoc msgs (.add m) ▸ runBook_refines (msgs ++ [.add m]) hsum
    obtain ⟨hbid, hask⟩ := hrefines.qtyAt symbolId price
    obtain ⟨hbid', hask'⟩ := hrefines'.qtyAt symbolId price
    rw [hbid, hask, hbid', hask', hinsert]
    exact ⟨levelQty_exchange hl _ _ _ _, levelQty_exchange hl _ _ _ _⟩

/-- **When a live order is replaced by an add of its id**: exactly if the pool is not full, or if the
record has the fields of the add already. -/
theorem add_replaces_iff (msgs : List BookMsg) (m : AddOrder) (r : OrderRecord)
    (hvalid : acceptable m.symbolId m.price m.qty = true)
    (hlive : (runBook msgs).liveRecord m.orderId = some r) :
    Replaced msgs m r ↔
      (runBook msgs).liveCount < 65536 ∨ r = recordOf m.orderId (orderOf m) := by
  have ho : ValidOrder (orderOf m) := acceptable_iff.mp hvalid
  have h := runBook_holds msgs
  rw [h.liveRecord, Option.map_eq_some_iff] at hlive
  obtain ⟨o, hl, rfl⟩ := hlive
  have hspec : (specBook (msgs ++ [.add m])).orders = _ := specBook_add ho
  rw [h.pool.count]
  constructor
  · intro hrep
    by_contra hnot
    rw [not_or] at hnot
    obtain ⟨hfull, hne⟩ := hnot
    -- a full pool keeps the old order, and that is not the new one
    have hrecord := hrep.record
    rw [(onAdd_holds msgs m).liveRecord, hspec, if_neg hfull, hl] at hrecord
    exact hne (Option.some.inj hrecord)
  · rintro (hroom | hsame)
    · rw [if_pos hroom] at hspec
      exact replaced_of_insert hl hspec
    · obtain rfl := recordOf_injective hsame
      apply replaced_of_insert hl
      rw [hspec, insert_same hl]
      split_ifs <;> rfl

/-- The second bid of `twoBids` moves to the ask side of another symbol. -/
theorem add_replaces_moved :
    let m : AddOrder := ⟨⟨.addOrder, 44, 3, 3⟩, 2, 5, .sell, 4096, 9⟩
    (runBook twoBids).liveCount = 2 ∧
      ((runBook twoBids).onAdd m).1.liveRecord 2 = some (recordOf 2 ⟨5, .sell, 4096, 9⟩) ∧
      ((runBook twoBids).onAdd m).1.liveCount = 2 := by
  intro m
  have hcount : (runBook twoBids).liveCount = 2 := by decide +kernel
  obtain ⟨r, hr⟩ : ∃ r, (runBook twoBids).liveRecord m.orderId = some r :=
    Option.isSome_iff_exists.mp (by decide +kernel)
  have hrep := (add_replaces_iff twoBids m r (by decide) hr).mpr (Or.inl (by rw [hcount]; decide))
  exact ⟨hcount, hrep.record, hrep.count.trans hcount⟩

end BookBuilder

/-! ## The full pool -/

/-- An order of its own id at price 1. -/
def fillOne (i : Nat) : AddOrder := ⟨⟨.addOrder, 44, 1, 1⟩, UInt64.ofNat i, 0, .buy, 1, 1⟩

theorem fillOne_valid (i : Nat) : ValidOrder (BookBuilder.orderOf (fillOne i)) := by
  show ValidOrder ⟨0, .buy, 1, 1⟩
  decide

/-- The first `n` ids, one order each. -/
def filled (n : Nat) : List BookMsg := (List.range n).map fun i => .add (fillOne i)

theorem filled_succ (n : Nat) : filled (n + 1) = filled n ++ [.add (fillOne n)] := by
  unfold filled
  rw [List.range_succ, List.map_append]
  rfl

theorem specBook_filled {n : Nat} (hn : n ≤ 65536) :
    (∀ i, (specBook (filled n)).orders.lookup i
      = if i.toNat < n then some ⟨0, .buy, 1, 1⟩ else none) ∧
      (specBook (filled n)).orders.keys.card = n := by
  induction n with
  | zero => exact ⟨fun i => rfl, rfl⟩
  | succ n ih =>
    obtain ⟨hlookup, hcard⟩ := ih (Nat.le_of_succ_le hn)
    have hid : (UInt64.ofNat n).toNat = n := by
      rw [UInt64.toNat_ofNat']
      omega
    have hnew : UInt64.ofNat n ∉ (specBook (filled n)).orders.keys := by
      rw [Finmap.mem_keys, ← Finmap.lookup_eq_none, hlookup, hid, if_neg (Nat.lt_irrefl n)]
    rw [filled_succ, BookBuilder.specBook_add (fillOne_valid n), hcard, if_pos (Nat.lt_of_succ_le hn)]
    constructor
    · intro i
      by_cases hi : i = UInt64.ofNat n
      · rw [hi, hid, if_pos (Nat.lt_succ_self n)]
        exact Finmap.lookup_insert _
      · have hne : i.toNat ≠ n := fun h => hi (UInt64.toNat_inj.mp (h.trans hid.symm))
        have hiff : i.toNat < n ↔ i.toNat < n + 1 := by omega
        simp only [← hiff]
        rw [← hlookup]
        exact Finmap.lookup_insert_of_ne _ hi
    · rw [OrderPool.keys_insert]
      exact (Finset.card_insert_of_notMem hnew).trans (congrArg (· + 1) hcard)

theorem filled_total (n : Nat) : ((filled n).map BookMsg.qty).sum = n := by
  induction n with
  | zero => rfl
  | succ n ih =>
    rw [filled_succ, List.map_append, List.sum_append, ih]
    rfl

/-- 65536 live orders of quantity 1 at price 1, and the first of them again at price 2: the pool is full,
the add is turned away and the order stays where it was. -/
theorem full_pool_refuses_readd :
    let m : AddOrder := ⟨⟨.addOrder, 44, 2, 2⟩, 0, 0, .buy, 2, 1⟩
    let r : OrderRecord := recordOf 0 ⟨0, .buy, 1, 1⟩
    BookBuilder.acceptable m.symbolId m.price m.qty = true ∧
      (runBook (filled 65536)).liveRecord m.orderId = some r ∧
      (∀ pre, pre <+: filled 65536 ++ [.add m] → ∀ symbolId side price,
        levelQty (specBook pre).orders symbolId side price < 2 ^ 32) ∧
      ((runBook (filled 65536)).onAdd m).1.liveRecord m.orderId = some r ∧
      ¬ BookBuilder.Replaced (filled 65536) m r := by
  intro m r
  obtain ⟨hlookup, hcard⟩ := specBook_filled (Nat.le_refl 65536)
  have hbefore := runBook_holds (filled 65536)
  have hspec : (specBook (filled 65536 ++ [.add m])).orders = (specBook (filled 65536)).orders := by
    rw [BookBuilder.specBook_add (by decide), hcard, if_neg (Nat.lt_irrefl _)]
  have hsame : ((runBook (filled 65536)).onAdd m).1.liveRecord m.orderId = some r := by
    rw [(BookBuilder.onAdd_holds _ m).liveRecord, hspec, hlookup]
    rfl
  refine ⟨by decide, ?_, ?_, hsame, ?_⟩
  · rw [hbefore.liveRecord, hlookup]
    rfl
  · apply levelQty_lt_of_total
    rw [List.map_append, List.sum_append, filled_total]
    decide
  · intro hrep
    have hrecord := hrep.record
    rw [hsame] at hrecord
    exact absurd (Option.some.inj hrecord) (by decide)

end MarketDataPipeline.Book
