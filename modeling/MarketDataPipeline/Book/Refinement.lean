/-
# MarketDataPipeline.Book.Refinement — the book shows the live orders.

What a book displays is a function of the abstract book: the quantity of a level is the sum over the
orders resting there (`levelQty`), the best prices are the extreme prices of the orders of a side.

`Refines` adds the levels to `Holds`; `Refines.handle` is the step lemma and `book_refines_order_map`
the result over whole runs.  The only assumption is that no level's sum reaches `2^32`, where the
32-bit quantity of the level would wrap.
-/
import Mathlib.Algebra.BigOperators.Group.Finset.Basic
import MarketDataPipeline.Book.Steps

namespace MarketDataPipeline.Book

open MarketDataPipeline.Wire

/-! ## Level sums -/

/-- What an order contributes to a level. -/
def share (symbolId : UInt32) (side : Side) (price : Nat) : Option OrderFields → Nat
  | some o => if o.symbolId = symbolId ∧ o.side = side ∧ o.price.toNat = price then o.qty.toNat else 0
  | none => 0

/-- The sum of the quantities of the orders resting at a level. -/
def levelQty (M : OrderMap) (symbolId : UInt32) (side : Side) (price : Nat) : Nat :=
  ∑ orderId ∈ M.keys, share symbolId side price (M.lookup orderId)

section Sums

variable {M : OrderMap} {orderId : UInt64} {o : OrderFields} {symbolId : UInt32} {side : Side}

/-- The sum without one order. -/
theorem levelQty_erase (M : OrderMap) (orderId : UInt64) (symbolId : UInt32) (side : Side)
    (price : Nat) :
    levelQty M symbolId side price
      = levelQty (M.erase orderId) symbolId side price
        + share symbolId side price (M.lookup orderId) := by
  have hrest : levelQty (M.erase orderId) symbolId side price
      = ∑ k ∈ M.keys.erase orderId, share symbolId side price (M.lookup k) := by
    unfold levelQty
    rw [Finmap.keys_erase]
    refine Finset.sum_congr rfl fun k hk => ?_
    rw [Finmap.lookup_erase_ne (Finset.ne_of_mem_erase hk)]
  rw [hrest]
  unfold levelQty
  by_cases hmem : orderId ∈ M.keys
  · exact (Finset.sum_erase_add _ _ hmem).symm
  · rw [Finset.erase_eq_of_notMem hmem,
      Finmap.lookup_eq_none.mpr (fun h => hmem (Finmap.mem_keys.mpr h))]
    rfl

/-- The sum with one order put in, whether or not the id was there before. -/
theorem levelQty_insert (M : OrderMap) (orderId : UInt64) (o : OrderFields) (symbolId : UInt32)
    (side : Side) (price : Nat) :
    levelQty (M.insert orderId o) symbolId side price
      = levelQty (M.erase orderId) symbolId side price + share symbolId side price (some o) := by
  have hsame : (M.insert orderId o).erase orderId = M.erase orderId := by
    apply Finmap.ext_lookup
    intro k
    by_cases hk : k = orderId
    · rw [hk, Finmap.lookup_erase, Finmap.lookup_erase]
    · rw [Finmap.lookup_erase_ne hk, Finmap.lookup_erase_ne hk, Finmap.lookup_insert_of_ne _ hk]
  rw [levelQty_erase (M.insert orderId o) orderId, hsame, Finmap.lookup_insert]

theorem share_self (o : OrderFields) : share o.symbolId o.side o.price.toNat (some o) = o.qty.toNat :=
  if_pos ⟨rfl, rfl, rfl⟩

theorem share_price_ne {price : Nat} (h : price ≠ o.price.toNat) :
    share symbolId side price (some o) = 0 :=
  if_neg fun hall => h hall.2.2.symm

theorem share_side_ne {price : Nat} (h : ¬ (o.symbolId = symbolId ∧ o.side = side)) :
    share symbolId side price (some o) = 0 :=
  if_neg fun hall => h ⟨hall.1, hall.2.1⟩

/-- A level has a quantity exactly if an order rests there. -/
theorem levelQty_ne_zero (hvalid : ∀ k o, M.lookup k = some o → ValidOrder o) {price : Nat} :
    levelQty M symbolId side price ≠ 0 ↔
      ∃ k o, M.lookup k = some o ∧ o.symbolId = symbolId ∧ o.side = side ∧
        o.price.toNat = price := by
  unfold levelQty
  rw [Ne, Finset.sum_eq_zero_iff, not_forall]
  constructor
  · rintro ⟨k, hk⟩
    rw [Classical.not_imp] at hk
    obtain ⟨-, hshare⟩ := hk
    cases hl : M.lookup k with
    | none => rw [hl] at hshare; exact absurd rfl hshare
    | some o =>
      rw [hl] at hshare
      simp only [share] at hshare
      split_ifs at hshare with hall
      · exact ⟨k, o, hl, hall⟩
      · exact absurd rfl hshare
  · rintro ⟨k, o, hl, hall⟩
    refine ⟨k, Classical.not_imp.mpr ⟨?_, ?_⟩⟩
    · rw [Finmap.mem_keys]
      exact Finmap.mem_of_lookup_eq_some hl
    · rw [hl]
      simp only [share]
      rw [if_pos hall]
      exact Nat.pos_iff_ne_zero.mp (hvalid k o hl).2.2.2

/-- The levels after an order has been taken out. -/
theorem levelQty_take (hl : M.lookup orderId = some o) (symbolId : UInt32) (side : Side) :
    levelQty (M.erase orderId) symbolId side =
      if o.symbolId = symbolId ∧ o.side = side then
        Function.update (levelQty M symbolId side) o.price.toNat
          (levelQty M symbolId side o.price.toNat - o.qty.toNat)
      else levelQty M symbolId side := by
  funext price
  have hsum := levelQty_erase M orderId symbolId side price
  rw [hl] at hsum
  split_ifs with hat
  · obtain ⟨rfl, rfl⟩ := hat
    by_cases hp : price = o.price.toNat
    · subst hp
      rw [share_self] at hsum
      rw [Function.update_self]
      omega
    · rw [share_price_ne hp] at hsum
      rw [Function.update_of_ne hp]
      omega
  · rw [share_side_ne hat] at hsum
    omega

/-- The levels after a new order has been put in. -/
theorem levelQty_put (hl : M.lookup orderId = none) (o : OrderFields) (symbolId : UInt32)
    (side : Side) :
    levelQty (M.insert orderId o) symbolId side =
      if o.symbolId = symbolId ∧ o.side = side then
        Function.update (levelQty M symbolId side) o.price.toNat
          (levelQty M symbolId side o.price.toNat + o.qty.toNat)
      else levelQty M symbolId side := by
  funext price
  have hsum := levelQty_insert M orderId o symbolId side price
  have hsame := levelQty_erase M orderId symbolId side price
  rw [hl] at hsame
  simp only [share, Nat.add_zero] at hsame
  rw [← hsame] at hsum
  split_ifs with hat
  · obtain ⟨rfl, rfl⟩ := hat
    by_cases hp : price = o.price.toNat
    · subst hp
      rw [Function.update_self, hsum, share_self]
    · rw [Function.update_of_ne hp, hsum, share_price_ne hp]
      rfl
  · rw [hsum, share_side_ne hat]
    rfl

end Sums

/-! ## The levels of a book -/

/-- Every side of every symbol shows the level sums. -/
def BookBuilder.Levels (M : OrderMap) (b : BookBuilder) : Prop :=
  ∀ symbolId : UInt32, symbolId.toNat < 32 → ∀ side,
    ((b.book symbolId).side side).Represents (isBuy side) (levelQty M symbolId side)

namespace BookBuilder

variable {b : BookBuilder} {M : OrderMap} {S : BookSpec}

/-- Taking an order out of its level. -/
theorem Levels.withdraw (h : b.Levels M) (hvalid : ∀ k o, M.lookup k = some o → ValidOrder o)
    (orderId : UInt64) : (b.withdraw (M.lookup orderId)).Levels (M.erase orderId) := by
  cases hl : M.lookup orderId with
  | none =>
    rw [OrderPool.erase_absent hl]
    exact h
  | some o =>
    intro symbolId hsym side
    obtain ⟨hs, h1, h2, hq⟩ := hvalid orderId o hl
    have hshare := levelQty_erase M orderId o.symbolId o.side o.price.toNat
    rw [hl, share_self] at hshare
    rw [levelQty_take hl]
    simp only [BookBuilder.withdraw, removeLevelAt]
    rw [side_updateSide hs hsym]
    split_ifs with hat
    · obtain ⟨rfl, rfl⟩ := hat
      refine SideBook.removeLevel_represents (h _ hs _) h1 h2 (by omega) ?_
      rintro h0
      rw [h0] at hq
      exact absurd hq (by decide)
    · exact h symbolId hsym side

/-- Putting a new order into its level. -/
theorem Levels.put (h : b.Levels M) {orderId : UInt64} {o : OrderFields}
    (hl : M.lookup orderId = none) (ho : ValidOrder o)
    (hsum : levelQty (M.insert orderId o) o.symbolId o.side o.price.toNat < 2 ^ 32) :
    (b.addLevelAt o.symbolId o.side o.price o.qty).Levels (M.insert orderId o) := by
  intro symbolId hsym side
  obtain ⟨hs, h1, h2, hq⟩ := ho
  rw [levelQty_put hl, if_pos ⟨rfl, rfl⟩, Function.update_self] at hsum
  rw [levelQty_put hl]
  unfold addLevelAt
  rw [side_updateSide hs hsym]
  split_ifs with hat
  · obtain ⟨rfl, rfl⟩ := hat
    refine SideBook.addLevel_represents (h _ hs _) h1 h2 ?_ hsum
    rintro h0
    rw [h0] at hq
    exact absurd hq (by decide)
  · exact h symbolId hsym side

/-! ## The refinement -/

/-- **The book holds and shows the abstract book.** -/
structure Refines (S : BookSpec) (b : BookBuilder) : Prop extends Holds S b where
  levels : b.Levels S.orders

theorem refines_init : Refines {} {} where
  toHolds := holds_init
  levels := by
    intro symbolId _ side
    have hzero : levelQty ∅ symbolId side = fun _ => 0 := by
      funext price
      rfl
    rw [hzero]
    cases side <;> exact SideBook.represents_empty _

/-- The levels after an order has been added or modified. -/
theorem Refines.replace (h : Refines S b) {orderId : UInt64} {o : OrderFields} (ho : ValidOrder o)
    (hsum : levelQty (S.orders.insert orderId o) o.symbolId o.side o.price.toNat < 2 ^ 32)
    (pool : OrderPool) :
    ((b.withdraw (S.orders.lookup orderId)).deposit o pool).Levels
      (S.orders.insert orderId o) := by
  have hinsert : (S.orders.erase orderId).insert orderId o = S.orders.insert orderId o := by
    apply Finmap.ext_lookup
    intro k
    by_cases hk : k = orderId
    · rw [hk, Finmap.lookup_insert, Finmap.lookup_insert]
    · rw [Finmap.lookup_insert_of_ne _ hk, Finmap.lookup_insert_of_ne _ hk,
        Finmap.lookup_erase_ne hk]
  have hput := (h.levels.withdraw h.valid orderId).put (Finmap.lookup_erase orderId S.orders) ho
    (by rw [hinsert]; exact hsum)
  rw [hinsert] at hput
  exact hput

/-- The step: one message. -/
theorem Refines.handle (h : Refines S b) (m : BookMsg)
    (hsum : ∀ symbolId side price, levelQty (S.step m).orders symbolId side price < 2 ^ 32) :
    Refines (S.step m) (b.handle m).1 := by
  refine ⟨h.toHolds.handle m, ?_⟩
  cases m with
  | add m =>
    simp only [BookSpec.step, BookBuilder.handle] at hsum ⊢
    rcases onAdd_cases h.toHolds m with ⟨hno, heq⟩ | ⟨ho, hroom, pool, -, heq⟩
    · rw [heq, if_neg hno]
      exact h.levels
    · rw [if_pos ⟨ho, hroom⟩] at hsum ⊢
      rw [heq]
      exact h.replace ho (hsum _ _ _) pool
  | modify m =>
    simp only [BookSpec.step, BookBuilder.handle] at hsum ⊢
    rcases onModify_cases h.toHolds m with ⟨hno, heq⟩ | ⟨ho, o₀, hl, pool, -, heq⟩
    · rw [heq, if_neg hno]
      exact h.levels
    · rw [if_pos ⟨ho, Finmap.mem_of_lookup_eq_some hl⟩] at hsum ⊢
      rw [heq, ← hl]
      exact h.replace ho (hsum _ _ _) pool
  | delete m =>
    simp only [BookSpec.step, BookBuilder.handle]
    rcases onDelete_cases h.toHolds m with ⟨hl, heq⟩ | ⟨o₀, hl, pool, -, heq⟩
    · rw [heq, OrderPool.erase_absent hl]
      exact h.levels
    · have hlevels := h.levels.withdraw h.valid m.orderId
      rw [hl] at hlevels
      rw [heq]
      exact hlevels
  | trade m =>
    simp only [BookSpec.step, BookBuilder.handle]
    rcases onTrade_cases b m with ⟨hno, heq⟩ | ⟨ho, heq⟩
    · rw [heq, if_neg hno]
      exact h.levels
    · rw [heq, if_pos ho]
      intro symbolId hsym side
      dsimp only
      rw [book_setBook ho.1 hsym]
      split_ifs with hat
      · subst hat
        cases side
        · exact h.levels _ hsym .buy
        · exact h.levels _ hsym .sell
      · exact h.levels symbolId hsym side

/-! ## What the queries return -/

/-- The prices at which orders of a symbol rest on a side. -/
def restingPrices (M : OrderMap) (symbolId : UInt32) (side : Side) : Set Nat :=
  {p | ∃ orderId o, M.lookup orderId = some o ∧ o.symbolId = symbolId ∧ o.side = side ∧
    o.price.toNat = p}

theorem Refines.prices (h : Refines S b) (symbolId : UInt32) (side : Side) :
    {p | levelQty S.orders symbolId side p ≠ 0} = restingPrices S.orders symbolId side := by
  ext p
  exact levelQty_ne_zero h.valid

/-- Nothing rests outside the book. -/
theorem Refines.level_outside (h : Refines S b) {symbolId : UInt32} {side : Side} {price : Nat}
    (hout : ¬ (symbolId.toNat < 32 ∧ 1 ≤ price ∧ price ≤ 4096)) :
    levelQty S.orders symbolId side price = 0 := by
  by_contra hne
  obtain ⟨k, o, hl, rfl, -, rfl⟩ := (levelQty_ne_zero h.valid).mp hne
  obtain ⟨hs, h1, h2, -⟩ := h.valid k o hl
  exact hout ⟨hs, h1, h2⟩

theorem validPrice_iff {price : UInt32} :
    validPrice price = true ↔ 1 ≤ price.toNat ∧ price.toNat ≤ 4096 := by
  unfold validPrice
  simp only [Bool.and_eq_true, decide_eq_true_eq, UInt32.le_iff_toNat_le]
  rfl

theorem Refines.qtyAt (h : Refines S b) (symbolId price : UInt32) :
    (b.bidQtyAt symbolId price).toNat = levelQty S.orders symbolId .buy price.toNat ∧
      (b.askQtyAt symbolId price).toNat = levelQty S.orders symbolId .sell price.toNat := by
  unfold bidQtyAt askQtyAt
  by_cases hin : symbolId.toNat < 32 ∧ 1 ≤ price.toNat ∧ price.toNat ≤ 4096
  · have hguard : ¬ (kMaxSymbols ≤ symbolId.toNat ∨ ¬ validPrice price = true) := by
      rw [not_or, not_not, validPrice_iff]
      exact ⟨Nat.not_le.mpr hin.1, hin.2⟩
    rw [if_neg hguard, if_neg hguard]
    exact ⟨(h.levels _ hin.1 .buy).toShows.qtyAt hin.2.1 hin.2.2,
      (h.levels _ hin.1 .sell).toShows.qtyAt hin.2.1 hin.2.2⟩
  · have hguard : kMaxSymbols ≤ symbolId.toNat ∨ ¬ validPrice price = true := by
      by_contra hnot
      rw [not_or, not_not, validPrice_iff, Nat.not_le] at hnot
      exact hin hnot
    rw [if_pos hguard, if_pos hguard, h.level_outside hin, h.level_outside hin]
    exact ⟨rfl, rfl⟩

/-- The quantity at the best price of a side. -/
theorem bestQty_eq {s : SideBook} {isBid : Bool} {L : Nat → Nat} (h : s.Represents isBid L) :
    (bestQty s).toNat = L s.bestPrice.toNat := by
  unfold bestQty
  split_ifs with hb
  · exact h.bestQty hb
  · rw [not_ne_iff.mp hb]
    by_contra hne
    have hpos := (h.support _ (fun h0 => hne h0.symm)).1
    exact absurd hpos (by decide)

/-- **The top of book**: best prices and the sums there. -/
theorem Refines.top (h : Refines S b) (symbolId : UInt32) :
    (IsGreatest (restingPrices S.orders symbolId .buy) (b.top symbolId).bidPrice.toNat ∨
      restingPrices S.orders symbolId .buy = ∅ ∧ (b.top symbolId).bidPrice.toNat = 0) ∧
    (b.top symbolId).bidQty.toNat
      = levelQty S.orders symbolId .buy (b.top symbolId).bidPrice.toNat ∧
    (IsLeast (restingPrices S.orders symbolId .sell) (b.top symbolId).askPrice.toNat ∨
      restingPrices S.orders symbolId .sell = ∅ ∧ (b.top symbolId).askPrice.toNat = 0) ∧
    (b.top symbolId).askQty.toNat
      = levelQty S.orders symbolId .sell (b.top symbolId).askPrice.toNat := by
  rw [← h.prices, ← h.prices]
  unfold BookBuilder.top
  by_cases hsym : symbolId.toNat < 32
  · have hguard : ¬ kMaxSymbols ≤ symbolId.toNat := Nat.not_le.mpr hsym
    rw [if_neg hguard]
    have hbid := h.levels symbolId hsym .buy
    have hask := h.levels symbolId hsym .sell
    exact ⟨hbid.best, bestQty_eq hbid, hask.best, bestQty_eq hask⟩
  · have hguard : kMaxSymbols ≤ symbolId.toNat := Nat.not_lt.mp hsym
    rw [if_pos hguard]
    have hzero : ∀ side price, levelQty S.orders symbolId side price = 0 :=
      fun side price => h.level_outside (fun hall => hsym hall.1)
    have hempty : ∀ side, {p | levelQty S.orders symbolId side p ≠ 0} = (∅ : Set Nat) := by
      intro side
      rw [Set.eq_empty_iff_forall_notMem]
      exact fun p hp => hp (hzero side p)
    exact ⟨Or.inr ⟨hempty _, rfl⟩, (hzero _ _).symm, Or.inr ⟨hempty _, rfl⟩, (hzero _ _).symm⟩

end BookBuilder

/-! ## Whole runs -/

open BookBuilder in
theorem runBook_refines (msgs : List BookMsg)
    (hsum : ∀ pre, pre <+: msgs → ∀ symbolId side price,
      levelQty (specBook pre).orders symbolId side price < 2 ^ 32) :
    Refines (specBook msgs) (runBook msgs) := by
  induction msgs using List.reverseRecOn with
  | nil => exact refines_init
  | append_singleton pre m ih =>
    rw [runBook_snoc, specBook_snoc]
    apply Refines.handle (ih fun q hq => hsum q (hq.trans (List.prefix_append pre [m])))
    have hlast := hsum (pre ++ [m]) (List.prefix_refl _)
    rw [specBook_snoc] at hlast
    exact hlast

/-- **The book refines the order map.** After any calls, as long as no level sum has reached `2^32`,
the queries return the sums and the best prices of the live orders, and a tick carries the last trade
of its symbol. -/
theorem book_refines_order_map (msgs : List BookMsg)
    (hsum : ∀ pre, pre <+: msgs → ∀ symbolId side price,
      levelQty (specBook pre).orders symbolId side price < 2 ^ 32) (symbolId : UInt32) :
    let b := runBook msgs
    let M := (specBook msgs).orders
    (∀ price : UInt32,
      (b.bidQtyAt symbolId price).toNat = levelQty M symbolId .buy price.toNat ∧
        (b.askQtyAt symbolId price).toNat = levelQty M symbolId .sell price.toNat) ∧
    (IsGreatest (BookBuilder.restingPrices M symbolId .buy) (b.top symbolId).bidPrice.toNat ∨
      BookBuilder.restingPrices M symbolId .buy = ∅ ∧ (b.top symbolId).bidPrice.toNat = 0) ∧
    (b.top symbolId).bidQty.toNat = levelQty M symbolId .buy (b.top symbolId).bidPrice.toNat ∧
    (IsLeast (BookBuilder.restingPrices M symbolId .sell) (b.top symbolId).askPrice.toNat ∨
      BookBuilder.restingPrices M symbolId .sell = ∅ ∧ (b.top symbolId).askPrice.toNat = 0) ∧
    (b.top symbolId).askQty.toNat = levelQty M symbolId .sell (b.top symbolId).askPrice.toNat ∧
    ∀ pre m post, msgs = pre ++ m :: post → ∀ t, ((runBook pre).handle m).2 = some t →
      (t.lastPrice, t.lastQty) = (specBook (pre ++ [m])).last t.symbolId := by
  intro b M
  have h := runBook_refines msgs hsum
  obtain ⟨hbid, hbidQty, hask, haskQty⟩ := h.top symbolId
  refine ⟨h.qtyAt symbolId, hbid, hbidQty, hask, haskQty, ?_⟩
  intro pre m post _ t ht
  obtain ⟨symbolId, seq, tsNs, cause, hsym, rfl⟩ := (runBook_holds pre).tick ht
  obtain ⟨hprice, hqty⟩ := (runBook_holds (pre ++ [m])).last symbolId hsym
  have hguard : symbolId.toNat < kMaxSymbols := hsym
  rw [runBook_snoc] at hprice hqty
  unfold BookBuilder.makeTick
  rw [if_pos hguard]
  exact Prod.ext hprice hqty

/-- An order id added again at another price: it moves. -/
def readdMsgs : List BookMsg :=
  [.add ⟨⟨.addOrder, 44, 1, 1⟩, 1, 3, .buy, 100, 5⟩, .add ⟨⟨.addOrder, 44, 2, 2⟩, 1, 3, .buy, 80, 4⟩]

theorem book_refines_order_map_readd :
    ((runBook readdMsgs).bidQtyAt 3 100).toNat = 0 ∧
      ((runBook readdMsgs).bidQtyAt 3 80).toNat = 4 := by
  have hsum : ∀ pre, pre <+: readdMsgs → ∀ symbolId side price,
      levelQty (specBook pre).orders symbolId side price < 2 ^ 32 := by
    intro pre hpre symbolId side price
    -- at most one order is live after any prefix
    have hone : (specBook pre).orders = ∅ ∨
        ∃ o : OrderFields, o.qty.toNat < 2 ^ 32 ∧
          (specBook pre).orders = (∅ : OrderMap).insert 1 o := by
      rw [List.prefix_iff_eq_take] at hpre
      have hlen : pre.length ≤ 2 := by
        rw [hpre, List.length_take]
        exact Nat.min_le_right _ _
      obtain h0 | h1 | h2 : pre.length = 0 ∨ pre.length = 1 ∨ pre.length = 2 := by omega
      · rw [hpre, h0]
        exact Or.inl rfl
      · rw [hpre, h1]
        exact Or.inr ⟨⟨3, .buy, 100, 5⟩, by decide, rfl⟩
      · rw [hpre, h2]
        exact Or.inr ⟨⟨3, .buy, 80, 4⟩, by decide, rfl⟩
    rcases hone with h0 | ⟨o, ho, h1⟩
    · rw [h0]
      exact Nat.two_pow_pos 32
    · rw [h1, levelQty_insert]
      simp only [share]
      split_ifs
      · exact Nat.lt_of_le_of_lt (Nat.le_of_eq (Nat.zero_add _)) ho
      · exact Nat.two_pow_pos 32
  obtain ⟨hqty, -⟩ := book_refines_order_map readdMsgs hsum 3
  exact ⟨(hqty 100).1.trans (by decide), (hqty 80).1.trans (by decide)⟩

end MarketDataPipeline.Book
