/-
# MarketDataPipeline.Book.Histories — the book depends on the orders' own histories only.

What becomes of an order is decided by the messages that carry its id (`history`), in their order:
`orderAfter` replays them on their own.  As long as no add meets a full pool, every run agrees with
that replay id by id (`specBook_lookup`), so two runs with the same histories end in the same abstract
book, however differently they were interleaved, and the refinement carries this over to everything
that the real book shows.
-/
import MarketDataPipeline.Book.Refinement
import MarketDataPipeline.Book.Ticks

namespace MarketDataPipeline.Book

open MarketDataPipeline.Wire

/-! ## The history of one order -/

/-- The order that a message is about. -/
def BookMsg.orderId? : BookMsg → Option UInt64
  | .add m => some m.orderId
  | .modify m => some m.orderId
  | .delete m => some m.orderId
  | .trade _ => none

/-- The quantity that a message can bring to a level. -/
def BookMsg.qty : BookMsg → Nat
  | .add m => m.qty.toNat
  | .modify m => m.qty.toNat
  | .delete _ => 0
  | .trade _ => 0

/-- **What a message can do to the orders**: nothing, or put in or take out the one it is about. -/
theorem BookSpec.step_orders (S : BookSpec) (m : BookMsg) :
    (S.step m).orders = S.orders ∨
      (∃ k o, m.orderId? = some k ∧ o.qty.toNat = m.qty ∧
        (S.step m).orders = S.orders.insert k o) ∨
      ∃ k, m.orderId? = some k ∧ (S.step m).orders = S.orders.erase k := by
  cases m with
  | add m =>
    simp only [BookSpec.step]
    split_ifs
    · exact Or.inr (Or.inl ⟨m.orderId, _, rfl, rfl, rfl⟩)
    · exact Or.inl rfl
  | modify m =>
    simp only [BookSpec.step]
    split_ifs
    · exact Or.inr (Or.inl ⟨m.orderId, _, rfl, rfl, rfl⟩)
    · exact Or.inl rfl
  | delete m => exact Or.inr (Or.inr ⟨m.orderId, rfl, rfl⟩)
  | trade m =>
    simp only [BookSpec.step]
    split_ifs <;> exact Or.inl rfl

/-- The messages about one order, in their order. -/
def history (orderId : UInt64) (msgs : List BookMsg) : List BookMsg :=
  msgs.filter fun m => m.orderId? == some orderId

/-- What a message makes of the order it is about. -/
def orderStep (r : Option OrderFields) : BookMsg → Option OrderFields
  | .add m =>
    let o : OrderFields := ⟨m.symbolId, m.side, m.price, m.qty⟩
    if ValidOrder o then some o else r
  | .modify m =>
    let o : OrderFields := ⟨m.symbolId, m.side, m.price, m.qty⟩
    if ValidOrder o ∧ r.isSome then some o else r
  | .delete _ => none
  | .trade _ => r

/-- An order after its history. -/
def orderAfter (msgs : List BookMsg) : Option OrderFields := msgs.foldl orderStep none

/-- No add meets a full pool. -/
def HasRoom (msgs : List BookMsg) : Prop :=
  ∀ pre m, pre ++ [.add m] <+: msgs → (runBook pre).liveCount ≠ 65536

theorem HasRoom.init {pre : List BookMsg} {m : BookMsg} (h : HasRoom (pre ++ [m])) : HasRoom pre :=
  fun q a hq => h q a (hq.trans (List.prefix_append pre [m]))

theorem card_lt_of_ne {pre : List BookMsg} (h : (runBook pre).liveCount ≠ 65536) :
    (specBook pre).orders.keys.card < 65536 := by
  have hpool := (runBook_holds pre).pool
  have hle := hpool.card_le
  rw [hpool.count] at h
  omega

/-- A message acts on the order it is about, and on no other. -/
theorem BookSpec.lookup_step {S : BookSpec} {m : BookMsg} (orderId : UInt64)
    (hroom : ∀ a, m = .add a → S.orders.keys.card < 65536) :
    (S.step m).orders.lookup orderId
      = if m.orderId? = some orderId then orderStep (S.orders.lookup orderId) m
        else S.orders.lookup orderId := by
  by_cases hid : m.orderId? = some orderId
  · rw [if_pos hid]
    cases m with
    | add m =>
      obtain rfl := Option.some.inj hid
      simp only [BookSpec.step, orderStep, hroom m rfl, and_true]
      split_ifs
      · exact Finmap.lookup_insert _
      · rfl
    | modify m =>
      obtain rfl := Option.some.inj hid
      simp only [BookSpec.step, orderStep, Finmap.lookup_isSome]
      split_ifs
      · exact Finmap.lookup_insert _
      · rfl
    | delete m =>
      obtain rfl := Option.some.inj hid
      exact Finmap.lookup_erase _ _
    | trade m => cases hid
  · rw [if_neg hid]
    rcases S.step_orders m with hsame | ⟨k, o, hk, -, hput⟩ | ⟨k, hk, htake⟩
    · rw [hsame]
    · rw [hput]
      exact Finmap.lookup_insert_of_ne _ fun h => hid (h ▸ hk)
    · rw [htake]
      exact Finmap.lookup_erase_ne fun h => hid (h ▸ hk)

/-- **Every order follows its own history.** -/
theorem specBook_lookup (msgs : List BookMsg) (hroom : HasRoom msgs) (orderId : UInt64) :
    (specBook msgs).orders.lookup orderId = orderAfter (history orderId msgs) := by
  induction msgs using List.reverseRecOn with
  | nil => rfl
  | append_singleton pre m ih =>
    have hcard : ∀ a, m = .add a → (specBook pre).orders.keys.card < 65536 := by
      rintro a rfl
      exact card_lt_of_ne (hroom pre a (List.prefix_refl _))
    rw [specBook_snoc, BookSpec.lookup_step orderId hcard, ih hroom.init]
    unfold history
    rw [List.filter_append, List.filter_cons, List.filter_nil]
    by_cases hid : m.orderId? = some orderId
    · rw [if_pos hid, if_pos (beq_iff_eq.mpr hid)]
      unfold orderAfter
      rw [List.foldl_append]
      rfl
    · rw [if_neg hid, if_neg fun h => hid (beq_iff_eq.mp h), List.append_nil]

/-! ## Two books over the same orders -/

namespace BookBuilder

variable {b b' : BookBuilder} {S S' : BookSpec}

/-- The record of a live order, as `find_order` returns it. -/
def liveRecord (b : BookBuilder) (orderId : UInt64) : Option OrderRecord :=
  (b.findOrder orderSlot orderId).map b.orders

theorem Holds.liveRecord (h : Holds S b) (orderId : UInt64) :
    b.liveRecord orderId = (S.orders.lookup orderId).map (recordOf orderId) :=
  h.pool.find orderId

theorem Holds.liveRecord_of_insert (h : Holds S b) {M : OrderMap} {orderId : UInt64}
    {o : OrderFields} (hput : S.orders = M.insert orderId o) :
    b.liveRecord orderId = some (recordOf orderId o) := by
  rw [h.liveRecord, hput, Finmap.lookup_insert]
  rfl

/-- The book shows what a message asks for: the order it puts in, none under the id it deletes, or its
price and quantity as the last trade. -/
def Applied (b : BookBuilder) : BookMsg → Prop
  | .add m =>
    b.liveRecord m.orderId = some (recordOf m.orderId ⟨m.symbolId, m.side, m.price, m.qty⟩)
  | .modify m =>
    b.liveRecord m.orderId = some (recordOf m.orderId ⟨m.symbolId, m.side, m.price, m.qty⟩)
  | .delete m => b.liveRecord m.orderId = none
  | .trade m => (b.book m.symbolId).lastPrice = m.price ∧ (b.book m.symbolId).lastQty = m.qty

theorem Holds.applied (h : Holds S b) {m : BookMsg} (hadm : S.Admits m) :
    (b.handle m).1.Applied m := by
  have hstep := h.handle m
  cases m with
  | add m =>
    have hput : (S.step (.add m)).orders
        = S.orders.insert m.orderId ⟨m.symbolId, m.side, m.price, m.qty⟩ := by
      simp only [BookSpec.step]
      rw [if_pos ⟨hadm.1, hadm.2⟩]
    exact hstep.liveRecord_of_insert hput
  | modify m =>
    have hput : (S.step (.modify m)).orders
        = S.orders.insert m.orderId ⟨m.symbolId, m.side, m.price, m.qty⟩ := by
      simp only [BookSpec.step]
      rw [if_pos ⟨hadm.1, hadm.2⟩]
    exact hstep.liveRecord_of_insert hput
  | delete m =>
    show (b.handle (.delete m)).1.liveRecord m.orderId = none
    rw [hstep.liveRecord]
    simp only [BookSpec.step]
    rw [Finmap.lookup_erase]
    rfl
  | trade m =>
    have hvalid : ValidOrder ⟨m.symbolId, m.side, m.price, m.qty⟩ := hadm
    have hlast : (S.step (.trade m)).last m.symbolId = (m.price, m.qty) := by
      simp only [BookSpec.step]
      rw [if_pos hvalid]
      exact Function.update_self ..
    obtain ⟨hprice, hqty⟩ := hstep.last m.symbolId hvalid.1
    rw [hlast] at hprice hqty
    exact ⟨hprice, hqty⟩

/-- **`rejects` tells what the handlers do**: nothing at all, or what the message asks for. -/
theorem Holds.rejects_or_applied (h : Holds S b) (m : BookMsg) :
    (b.rejects m = true ∧ b.handle m = (b, none)) ∨
      (b.rejects m = false ∧ (b.handle m).1.Applied m) := by
  cases hr : b.rejects m with
  | true => exact Or.inl ⟨rfl, h.handle_of_rejects hr⟩
  | false => exact Or.inr ⟨rfl, h.applied ((h.rejects_eq_false m).mp hr)⟩

theorem top_eq_of_prices {symbolId : UInt32}
    (h : (b.top symbolId).bbo = (b'.top symbolId).bbo) : b.top symbolId = b'.top symbolId := by
  unfold top TopOfBook.bbo at *
  split_ifs at * with hsym
  · rfl
  · simp only [Bbo.mk.injEq] at h
    obtain ⟨h1, h2, h3, h4⟩ := h
    simp only [h1, h2, h3, h4]

/-- An extreme price, or 0 on an empty side, is determined by the resting prices. -/
theorem eq_of_extreme {P : Set Nat} {Q : Set Nat → Nat → Prop} {p p' : Nat}
    (hQ : ∀ p p', Q P p → Q P p' → p = p') (hne : ∀ p, Q P p → P ≠ ∅)
    (h : Q P p ∨ P = ∅ ∧ p = 0) (h' : Q P p' ∨ P = ∅ ∧ p' = 0) : p = p' := by
  rcases h with h | ⟨hP, h0⟩ <;> rcases h' with h' | ⟨hP', h0'⟩
  · exact hQ p p' h h'
  · exact absurd hP' (hne p h)
  · exact absurd hP (hne p' h')
  · rw [h0, h0']

/-- What a book shows is determined by its live orders. -/
theorem Refines.top_unique (h : Refines S b) (h' : Refines S' b') (hS : S.orders = S'.orders)
    (symbolId : UInt32) : b.top symbolId = b'.top symbolId := by
  obtain ⟨hbid, hbidQty, hask, haskQty⟩ := h.top symbolId
  obtain ⟨hbid', hbidQty', hask', haskQty'⟩ := h'.top symbolId
  rw [← hS] at hbid' hbidQty' hask' haskQty'
  have hbids : (b.top symbolId).bidPrice.toNat = (b'.top symbolId).bidPrice.toNat :=
    eq_of_extreme (fun _ _ => IsGreatest.unique) (fun _ hp => hp.nonempty.ne_empty) hbid hbid'
  have hasks : (b.top symbolId).askPrice.toNat = (b'.top symbolId).askPrice.toNat :=
    eq_of_extreme (fun _ _ => IsLeast.unique) (fun _ hp => hp.nonempty.ne_empty) hask hask'
  rw [hbids, ← hbidQty'] at hbidQty
  rw [hasks, ← haskQty'] at haskQty
  apply top_eq_of_prices
  unfold TopOfBook.bbo
  rw [UInt32.toNat_inj.mp hbids, UInt32.toNat_inj.mp hbidQty, UInt32.toNat_inj.mp hasks,
    UInt32.toNat_inj.mp haskQty]

theorem Refines.qtyAt_unique (h : Refines S b) (h' : Refines S' b') (hS : S.orders = S'.orders)
    (symbolId price : UInt32) :
    b.bidQtyAt symbolId price = b'.bidQtyAt symbolId price ∧
      b.askQtyAt symbolId price = b'.askQtyAt symbolId price := by
  obtain ⟨hbid, hask⟩ := h.qtyAt symbolId price
  obtain ⟨hbid', hask'⟩ := h'.qtyAt symbolId price
  rw [← hS] at hbid' hask'
  exact ⟨UInt32.toNat_inj.mp (hbid.trans hbid'.symm), UInt32.toNat_inj.mp (hask.trans hask'.symm)⟩

end BookBuilder

/-! ## Bounds from the messages -/

/-- Every message makes at most one order live. -/
theorem specBook_card_le (msgs : List BookMsg) :
    (specBook msgs).orders.keys.card ≤ msgs.length := by
  induction msgs using List.reverseRecOn with
  | nil => exact Nat.zero_le _
  | append_singleton pre m ih =>
    rw [specBook_snoc, List.length_append, List.length_singleton]
    rcases (specBook pre).step_orders m with hsame | ⟨k, o, -, -, hput⟩ | ⟨k, -, htake⟩
    · rw [hsame]
      exact Nat.le_succ_of_le ih
    · rw [hput, OrderPool.keys_insert]
      exact (Finset.card_insert_le _ _).trans (Nat.succ_le_succ ih)
    · rw [htake, Finmap.keys_erase]
      exact Nat.le_succ_of_le (Finset.card_erase_le.trans ih)

/-- A run of at most 65536 messages never meets a full pool, even if its last message fills it. -/
theorem hasRoom_of_length {msgs : List BookMsg} (h : msgs.length ≤ 65536) : HasRoom msgs := by
  intro pre m hpre hfull
  have hlen := hpre.length_le
  have hcard := specBook_card_le pre
  rw [List.length_append, List.length_singleton] at hlen
  rw [(runBook_holds pre).pool.count] at hfull
  omega

/-- A level holds no more than the messages have brought. -/
theorem levelQty_le_total (msgs : List BookMsg) (symbolId : UInt32) (side : Side) (price : Nat) :
    levelQty (specBook msgs).orders symbolId side price ≤ (msgs.map BookMsg.qty).sum := by
  induction msgs using List.reverseRecOn with
  | nil => exact Nat.le_refl 0
  | append_singleton pre m ih =>
    have herase : ∀ k, levelQty ((specBook pre).orders.erase k) symbolId side price
        ≤ (pre.map BookMsg.qty).sum := by
      intro k
      rw [levelQty_erase (specBook pre).orders k] at ih
      exact Nat.le_of_add_right_le ih
    have hshare : ∀ o : OrderFields, share symbolId side price (some o) ≤ o.qty.toNat := by
      intro o
      simp only [share]
      split_ifs
      · exact Nat.le_refl _
      · exact Nat.zero_le _
    rw [specBook_snoc, List.map_append, List.sum_append, List.map_singleton, List.sum_singleton]
    rcases (specBook pre).step_orders m with hsame | ⟨k, o, -, hqty, hput⟩ | ⟨k, -, htake⟩
    · rw [hsame]
      exact Nat.le_add_right_of_le ih
    · rw [hput, levelQty_insert, ← hqty]
      exact Nat.add_le_add (herase k) (hshare o)
    · rw [htake]
      exact Nat.le_add_right_of_le (herase k)

theorem levelQty_lt_of_total {msgs : List BookMsg} (h : (msgs.map BookMsg.qty).sum < 2 ^ 32) :
    ∀ pre, pre <+: msgs → ∀ symbolId side price,
      levelQty (specBook pre).orders symbolId side price < 2 ^ 32 := by
  rintro pre ⟨post, rfl⟩ symbolId side price
  have hpre := levelQty_le_total pre symbolId side price
  rw [List.map_append, List.sum_append] at h
  omega

/-! ## Two interleavings -/

/-- **The book does not depend on the order of messages about different orders.** Two lists of
messages with the same history for every order id lead to books that show the same tops and
quantities and hold the same records, if no add met a full pool and no level sum reached `2^32`.
(Trades may stand anywhere in either list.) -/
theorem book_independent_of_interleaving (msgs msgs' : List BookMsg)
    (hsame : ∀ orderId, history orderId msgs = history orderId msgs')
    (hroom : HasRoom msgs) (hroom' : HasRoom msgs')
    (hsum : ∀ pre, pre <+: msgs → ∀ symbolId side price,
      levelQty (specBook pre).orders symbolId side price < 2 ^ 32)
    (hsum' : ∀ pre, pre <+: msgs' → ∀ symbolId side price,
      levelQty (specBook pre).orders symbolId side price < 2 ^ 32) :
    (∀ symbolId, (runBook msgs).top symbolId = (runBook msgs').top symbolId) ∧
    (∀ symbolId price,
      (runBook msgs).bidQtyAt symbolId price = (runBook msgs').bidQtyAt symbolId price ∧
        (runBook msgs).askQtyAt symbolId price = (runBook msgs').askQtyAt symbolId price) ∧
    ∀ orderId, (runBook msgs).liveRecord orderId = (runBook msgs').liveRecord orderId := by
  have hlookup : ∀ orderId, (specBook msgs).orders.lookup orderId
      = (specBook msgs').orders.lookup orderId := by
    intro orderId
    rw [specBook_lookup msgs hroom, specBook_lookup msgs' hroom', hsame]
  have horders : (specBook msgs).orders = (specBook msgs').orders := Finmap.ext_lookup hlookup
  have h := runBook_refines msgs hsum
  have h' := runBook_refines msgs' hsum'
  refine ⟨h.top_unique h' horders, h.qtyAt_unique h' horders, ?_⟩
  intro orderId
  rw [h.toHolds.liveRecord, h'.toHolds.liveRecord, hlookup]

/-- Two orders one after the other, the first of which changes its symbol. -/
def oneByOne : List BookMsg :=
  [.add ⟨⟨.addOrder, 44, 1, 1⟩, 1, 3, .buy, 100, 5⟩, .modify ⟨⟨.modifyOrder, 44, 2, 2⟩, 1, 4, .sell, 80, 6⟩,
    .add ⟨⟨.addOrder, 44, 3, 3⟩, 2, 3, .buy, 90, 7⟩]

/-- The same two orders, mixed. -/
def mixed : List BookMsg :=
  [.add ⟨⟨.addOrder, 44, 1, 1⟩, 1, 3, .buy, 100, 5⟩, .add ⟨⟨.addOrder, 44, 3, 3⟩, 2, 3, .buy, 90, 7⟩,
    .modify ⟨⟨.modifyOrder, 44, 2, 2⟩, 1, 4, .sell, 80, 6⟩]

theorem book_independent_of_interleaving_mixed :
    (runBook oneByOne).top 3 = (runBook mixed).top 3 ∧
      (runBook mixed).top 3 = { symbolId := 3, bidPrice := 90, bidQty := 7, valid := true } := by
  have hsame : ∀ orderId, history orderId oneByOne = history orderId mixed := by
    intro orderId
    by_cases h1 : (1 : UInt64) = orderId
    · subst h1
      rfl
    · by_cases h2 : (2 : UInt64) = orderId
      · subst h2
        rfl
      · simp [history, oneByOne, mixed, BookMsg.orderId?, h1, h2]
  obtain ⟨htop, -⟩ := book_independent_of_interleaving oneByOne mixed hsame
    (hasRoom_of_length (by decide)) (hasRoom_of_length (by decide))
    (levelQty_lt_of_total (by decide)) (levelQty_lt_of_total (by decide))
  exact ⟨htop 3, by decide +kernel⟩

end MarketDataPipeline.Book
