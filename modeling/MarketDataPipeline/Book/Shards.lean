/-
# MarketDataPipeline.Book.Shards — one book for each symbol.

All symbols share one order pool, and a message reaches its level through the pool.  If every order id
stays with one symbol, the symbols are independent all the same: what the book knows and publishes
about a symbol is what a book of its own would, which has been given only the messages about that
symbol (`Shard`).  No bound on quantities enters, level sums may wrap; what is needed is that the
shared pool does not fill up, because a full pool lets one symbol's orders keep out another's.
-/
import MarketDataPipeline.Book.Histories
import MarketDataPipeline.Book.Ticks

namespace MarketDataPipeline.Book

open MarketDataPipeline.Wire

variable {listing : UInt64 → UInt32} {symbolId : UInt32}

/-! ## Listings -/

/-- The symbol that a message is about. -/
def BookMsg.listedSymbol (listing : UInt64 → UInt32) : BookMsg → UInt32
  | .add m => listing m.orderId
  | .modify m => listing m.orderId
  | .delete m => listing m.orderId
  | .trade m => m.symbolId

/-- The message names the symbol that its order is listed under.  The symbol of a delete is never
read. -/
def BookMsg.Listed (listing : UInt64 → UInt32) : BookMsg → Prop
  | .add m => m.symbolId = listing m.orderId
  | .modify m => m.symbolId = listing m.orderId
  | .delete _ => True
  | .trade _ => True

/-- The messages about one symbol. -/
def shard (listing : UInt64 → UInt32) (symbolId : UInt32) (msgs : List BookMsg) : List BookMsg :=
  msgs.filter fun m => m.listedSymbol listing == symbolId

theorem shard_snoc (pre : List BookMsg) (m : BookMsg) :
    shard listing symbolId (pre ++ [m]) = shard listing symbolId pre
      ++ if m.listedSymbol listing = symbolId then [m] else [] := by
  unfold shard
  rw [List.filter_append, List.filter_cons, List.filter_nil]
  simp only [beq_iff_eq]

theorem BookMsg.listedSymbol_of_orderId {m : BookMsg} {k : UInt64} (hk : m.orderId? = some k) :
    m.listedSymbol listing = listing k := by
  cases m with
  | trade m => cases hk
  | add m | modify m | delete m =>
    obtain rfl := Option.some.inj hk
    rfl

namespace BookBuilder

variable {S S' : BookSpec} {b b' : BookBuilder}

/-! ## What one symbol's book depends on -/

theorem makeTick_congr (h : symbolId.toNat < 32 → b.book symbolId = b'.book symbolId)
    (seq tsNs : UInt64) (cause : MsgType) :
    b.makeTick symbolId seq tsNs cause = b'.makeTick symbolId seq tsNs cause := by
  unfold makeTick
  dsimp only
  split_ifs with hsym
  · rw [h hsym]
  · rfl

theorem tickIfChanged_congr {before after : TopOfBook}
    (h : symbolId.toNat < 32 → b.book symbolId = b'.book symbolId) (hdr : Header)
    (cause : MsgType) : b.tickIfChanged before after symbolId hdr cause
      = b'.tickIfChanged before after symbolId hdr cause := by
  unfold tickIfChanged
  rw [makeTick_congr h]

theorem tickIfChanged_symbolId {before after : TopOfBook} {hdr : Header} {cause : MsgType}
    {t : NormalizedTick} (ht : b.tickIfChanged before after symbolId hdr cause = some t) :
    t.symbolId = symbolId := by
  rw [eq_of_tickIfChanged ht, makeTick_symbolId]

theorem book_setBook_self (hsym : symbolId.toNat < 32) (sb : SymbolBook) :
    (b.setBook symbolId sb).book symbolId = sb := by
  rw [book_setBook hsym hsym, if_pos rfl]

theorem book_withdraw_congr {o : OrderFields} (hsym : o.symbolId.toNat < 32)
    (h : b.book o.symbolId = b'.book o.symbolId) :
    (b.withdraw (some o)).book o.symbolId = (b'.withdraw (some o)).book o.symbolId := by
  show (b.setBook o.symbolId _).book o.symbolId = (b'.setBook o.symbolId _).book o.symbolId
  rw [book_setBook_self hsym, book_setBook_self hsym, h]

theorem book_deposit_congr {o : OrderFields} (hsym : o.symbolId.toNat < 32)
    (h : b.book o.symbolId = b'.book o.symbolId) (pool pool' : OrderPool) :
    (b.deposit o pool).book o.symbolId = (b'.deposit o pool').book o.symbolId := by
  show (b.setBook o.symbolId _).book o.symbolId = (b'.setBook o.symbolId _).book o.symbolId
  rw [book_setBook_self hsym, book_setBook_self hsym, h]

/-! ## The simulation -/

/-- **`b'` is the symbol's part of `b`.** -/
structure Shard (listing : UInt64 → UInt32) (symbolId : UInt32) (S S' : BookSpec)
    (b b' : BookBuilder) : Prop where
  whole : Holds S b
  part : Holds S' b'
  book : symbolId.toNat < 32 → b.book symbolId = b'.book symbolId
  listed : ∀ k o, S.orders.lookup k = some o → o.symbolId = listing k
  orders : ∀ k, S'.orders.lookup k = if listing k = symbolId then S.orders.lookup k else none

theorem shard_init : Shard listing symbolId {} {} {} {} where
  whole := holds_init
  part := holds_init
  book := fun _ => rfl
  listed := by
    intro k o h
    rw [Finmap.lookup_empty] at h
    cases h
  orders := by
    intro k
    rw [Finmap.lookup_empty, ite_self]

/-- The part has no more orders than the whole. -/
theorem Shard.card_le (h : Shard listing symbolId S S' b b') :
    S'.orders.keys.card ≤ S.orders.keys.card := by
  apply Finset.card_le_card
  intro k hk
  rw [Finmap.mem_keys, ← Finmap.lookup_isSome, h.orders] at hk
  rw [Finmap.mem_keys, ← Finmap.lookup_isSome]
  split_ifs at hk
  · exact hk
  · cases hk

/-- The orders of the whole book stay where they are listed. -/
theorem Shard.step_listed (h : Shard listing symbolId S S' b b') {m : BookMsg}
    (hm : m.Listed listing) (hroom : ∀ a, m = .add a → S.orders.keys.card < 65536) :
    ∀ k o, (S.step m).orders.lookup k = some o → o.symbolId = listing k := by
  intro k o hk
  rw [BookSpec.lookup_step k hroom] at hk
  split_ifs at hk with hid
  · cases m with
    | add m | modify m =>
      obtain rfl := Option.some.inj hid
      simp only [orderStep] at hk
      split_ifs at hk
      · rw [← Option.some.inj hk]
        exact hm
      · exact h.listed _ o hk
    | delete m => cases hk
    | trade m => cases hid
  · exact h.listed k o hk

/-- A message about the symbol acts on the orders of both books alike. -/
theorem Shard.step_orders (h : Shard listing symbolId S S' b b') {m : BookMsg}
    (hm : m.listedSymbol listing = symbolId)
    (hroom : ∀ a, m = .add a → S.orders.keys.card < 65536) (k : UInt64) :
    (S'.step m).orders.lookup k
      = if listing k = symbolId then (S.step m).orders.lookup k else none := by
  have hroom' : ∀ a, m = .add a → S'.orders.keys.card < 65536 :=
    fun a ha => Nat.lt_of_le_of_lt h.card_le (hroom a ha)
  rw [BookSpec.lookup_step k hroom, BookSpec.lookup_step k hroom', h.orders]
  by_cases hid : m.orderId? = some k
  · have hk : listing k = symbolId := (BookMsg.listedSymbol_of_orderId hid).symm.trans hm
    simp only [hid, hk, if_true]
  · simp only [hid, if_false]

/-- Any other message leaves the symbol's orders alone. -/
theorem Shard.step_orders_other (h : Shard listing symbolId S S' b b') {m : BookMsg}
    (hm : m.listedSymbol listing ≠ symbolId)
    (hroom : ∀ a, m = .add a → S.orders.keys.card < 65536) (k : UInt64) :
    S'.orders.lookup k = if listing k = symbolId then (S.step m).orders.lookup k else none := by
  rw [BookSpec.lookup_step k hroom, h.orders]
  by_cases hid : m.orderId? = some k
  · have hk : listing k ≠ symbolId := fun hk => hm ((BookMsg.listedSymbol_of_orderId hid).trans hk)
    simp only [hk, if_false]
  · simp only [hid, if_false]

/-! ## One message -/

/-- The two books after a message agree on the symbol and have answered alike. -/
def Agree (symbolId : UInt32) (r r' : BookBuilder × Option NormalizedTick) : Prop :=
  (symbolId.toNat < 32 → r.1.book symbolId = r'.1.book symbolId) ∧ r.2 = r'.2

/-- Books that agree on a symbol compare the same pictures of it. -/
theorem agree_of_tickIfChanged {c c' : BookBuilder} {hdr : Header} {cause : MsgType}
    (hbefore : symbolId.toNat < 32 → b.book symbolId = b'.book symbolId)
    (hafter : symbolId.toNat < 32 → c.book symbolId = c'.book symbolId) :
    Agree symbolId (c, c.tickIfChanged (b.top symbolId) (c.top symbolId) symbolId hdr cause)
      (c', c'.tickIfChanged (b'.top symbolId) (c'.top symbolId) symbolId hdr cause) := by
  refine ⟨hafter, ?_⟩
  show c.tickIfChanged _ _ symbolId hdr cause = c'.tickIfChanged _ _ symbolId hdr cause
  by_cases hsym : symbolId.toNat < 32
  · rw [top_congr (hbefore hsym), top_congr (hafter hsym), tickIfChanged_congr hafter]
  · unfold top
    simp only [show kMaxSymbols ≤ symbolId.toNat from Nat.not_lt.mp hsym, if_true]
    exact tickIfChanged_congr hafter hdr cause

/-- The level entry of an order of the symbol is taken out of both books. -/
theorem Shard.withdraw (h : Shard listing symbolId S S' b b') {k : UInt64}
    (hk : listing k = symbolId) (hsym : symbolId.toNat < 32) :
    (b.withdraw (S.orders.lookup k)).book symbolId
      = (b'.withdraw (S'.orders.lookup k)).book symbolId := by
  rw [h.orders, if_pos hk]
  cases hl : S.orders.lookup k with
  | none => exact h.book hsym
  | some o =>
    obtain rfl : o.symbolId = symbolId := (h.listed k o hl).trans hk
    exact book_withdraw_congr hsym (h.book hsym)

theorem Shard.lookup_eq (h : Shard listing symbolId S S' b b') {k : UInt64}
    (hk : listing k = symbolId) : S'.orders.lookup k = S.orders.lookup k := by
  rw [h.orders, if_pos hk]

/-- **A message about the symbol does the same to both books.** -/
theorem Shard.handle_agree (h : Shard listing symbolId S S' b b') {m : BookMsg}
    (hm : m.Listed listing) (hc : m.listedSymbol listing = symbolId)
    (hroom : ∀ a, m = .add a → S.orders.keys.card < 65536) :
    Agree symbolId (b.handle m) (b'.handle m) := by
  cases m with
  | add m =>
    have hk : listing m.orderId = symbolId := hc
    obtain rfl : m.symbolId = symbolId := Eq.trans hm hk
    have hcard := hroom m rfl
    have hcard' := Nat.lt_of_le_of_lt h.card_le hcard
    simp only [BookBuilder.handle]
    rcases onAdd_cases h.whole m with ⟨hno, heq⟩ | ⟨ho, -, pool, -, heq⟩ <;>
      rcases onAdd_cases h.part m with ⟨hno', heq'⟩ | ⟨ho', -, pool', -, heq'⟩
    · rw [heq, heq']
      exact ⟨h.book, rfl⟩
    · exact absurd ⟨ho', hcard⟩ hno
    · exact absurd ⟨ho, hcard'⟩ hno'
    · rw [heq, heq']
      apply agree_of_tickIfChanged
      · exact h.withdraw hk
      · intro hsym
        exact book_deposit_congr hsym (h.withdraw hk hsym) pool pool'
  | modify m =>
    have hk : listing m.orderId = symbolId := hc
    obtain rfl : m.symbolId = symbolId := Eq.trans hm hk
    have hlook := h.lookup_eq hk
    simp only [BookBuilder.handle]
    rcases onModify_cases h.whole m with ⟨hno, heq⟩ | ⟨ho, o₀, hl, pool, -, heq⟩ <;>
      rcases onModify_cases h.part m with ⟨hno', heq'⟩ | ⟨ho', o₀', hl', pool', -, heq'⟩
    · rw [heq, heq']
      exact ⟨h.book, rfl⟩
    · rw [hlook] at hl'
      exact absurd ⟨ho', Finmap.mem_of_lookup_eq_some hl'⟩ hno
    · rw [← hlook] at hl
      exact absurd ⟨ho, Finmap.mem_of_lookup_eq_some hl⟩ hno'
    · have hsame : o₀.symbolId = m.symbolId := (h.listed _ _ hl).trans hk
      have hwithdraw := h.withdraw hk ho.1
      obtain rfl : o₀ = o₀' := Option.some.inj (hl.symm.trans (hlook.symm.trans hl'))
      rw [hl, hl'] at hwithdraw
      rw [heq, heq', hsame]
      apply agree_of_tickIfChanged h.book
      intro hsym
      exact book_deposit_congr hsym hwithdraw pool pool'
  | delete m =>
    have hk : listing m.orderId = symbolId := hc
    have hlook := h.lookup_eq hk
    simp only [BookBuilder.handle]
    rcases onDelete_cases h.whole m with ⟨hl, heq⟩ | ⟨o₀, hl, pool, -, heq⟩ <;>
      rcases onDelete_cases h.part m with ⟨hl', heq'⟩ | ⟨o₀', hl', pool', -, heq'⟩
    · rw [heq, heq']
      exact ⟨h.book, rfl⟩
    · rw [hlook, hl] at hl'
      cases hl'
    · rw [hlook, hl] at hl'
      cases hl'
    · obtain rfl : o₀.symbolId = symbolId := (h.listed _ _ hl).trans hk
      obtain rfl : o₀ = o₀' := Option.some.inj (hl.symm.trans (hlook.symm.trans hl'))
      rw [heq, heq']
      apply agree_of_tickIfChanged h.book
      intro hsym
      exact book_withdraw_congr hsym (h.book hsym)
  | trade m =>
    obtain rfl : m.symbolId = symbolId := hc
    simp only [BookBuilder.handle]
    rcases onTrade_cases b m with ⟨hno, heq⟩ | ⟨ho, heq⟩ <;>
      rcases onTrade_cases b' m with ⟨hno', heq'⟩ | ⟨ho', heq'⟩
    · rw [heq, heq']
      exact ⟨h.book, rfl⟩
    · exact absurd ho' hno
    · exact absurd ho hno'
    · rw [heq, heq', h.book ho.1]
      have hbook : ∀ sb, m.symbolId.toNat < 32 →
          (b.setBook m.symbolId sb).book m.symbolId = (b'.setBook m.symbolId sb).book m.symbolId := by
        intro sb hsym
        rw [book_setBook_self hsym, book_setBook_self hsym]
      exact ⟨hbook _, congrArg some (makeTick_congr (hbook _) _ _ _)⟩

/-- The level entry of an order listed elsewhere. -/
theorem Shard.withdraw_other (h : Shard listing symbolId S S' b b') {k : UInt64}
    (hk : listing k ≠ symbolId) (hsym : symbolId.toNat < 32) :
    (b.withdraw (S.orders.lookup k)).book symbolId = b.book symbolId := by
  cases hl : S.orders.lookup k with
  | none => rfl
  | some o =>
    have hne : symbolId ≠ o.symbolId := fun heq => hk ((h.listed k o hl).symm.trans heq.symm)
    exact book_withdraw_of_ne (h.whole.valid k o hl).1 hsym hne

/-- **Any other message leaves the symbol's book alone.** -/
theorem Shard.handle_other (h : Shard listing symbolId S S' b b') {m : BookMsg}
    (hm : m.Listed listing) (hc : m.listedSymbol listing ≠ symbolId) (hsym : symbolId.toNat < 32) :
    (b.handle m).1.book symbolId = b.book symbolId := by
  cases m with
  | add m =>
    have hne : symbolId ≠ m.symbolId := fun heq => hc (hm.symm.trans heq.symm)
    simp only [BookBuilder.handle]
    rcases onAdd_cases h.whole m with ⟨-, heq⟩ | ⟨ho, -, pool, -, heq⟩
    · rw [heq]
    · rw [heq]
      exact (book_deposit_of_ne ho.1 hsym hne pool).trans (h.withdraw_other hc hsym)
  | modify m =>
    have hne : symbolId ≠ m.symbolId := fun heq => hc (hm.symm.trans heq.symm)
    simp only [BookBuilder.handle]
    rcases onModify_cases h.whole m with ⟨-, heq⟩ | ⟨ho, o₀, hl, pool, -, heq⟩
    · rw [heq]
    · rw [heq, ← hl]
      exact (book_deposit_of_ne ho.1 hsym hne pool).trans (h.withdraw_other hc hsym)
  | delete m =>
    simp only [BookBuilder.handle]
    rcases onDelete_cases h.whole m with ⟨-, heq⟩ | ⟨o₀, hl, pool, -, heq⟩
    · rw [heq]
    · rw [heq, ← hl]
      exact h.withdraw_other hc hsym
  | trade m =>
    simp only [BookBuilder.handle]
    rcases onTrade_cases b m with ⟨-, heq⟩ | ⟨ho, heq⟩
    · rw [heq]
    · rw [heq]
      dsimp only
      rw [book_setBook ho.1 hsym]
      exact if_neg hc

/-- A message is answered for the symbol it is about. -/
theorem Shard.tick_symbolId (h : Shard listing symbolId S S' b b') {m : BookMsg}
    (hm : m.Listed listing) {t : NormalizedTick} (ht : (b.handle m).2 = some t) :
    t.symbolId = m.listedSymbol listing := by
  cases m with
  | add m =>
    simp only [BookBuilder.handle] at ht
    rcases onAdd_cases h.whole m with ⟨-, heq⟩ | ⟨-, -, pool, -, heq⟩ <;> rw [heq] at ht
    · cases ht
    · exact (tickIfChanged_symbolId ht).trans hm
  | modify m =>
    simp only [BookBuilder.handle] at ht
    rcases onModify_cases h.whole m with ⟨-, heq⟩ | ⟨-, o₀, -, pool, -, heq⟩ <;> rw [heq] at ht
    · cases ht
    · exact (tickIfChanged_symbolId ht).trans hm
  | delete m =>
    simp only [BookBuilder.handle] at ht
    rcases onDelete_cases h.whole m with ⟨-, heq⟩ | ⟨o₀, hl, pool, -, heq⟩ <;> rw [heq] at ht
    · cases ht
    · exact (tickIfChanged_symbolId ht).trans (h.listed _ _ hl)
  | trade m =>
    simp only [BookBuilder.handle] at ht
    rcases onTrade_cases b m with ⟨-, heq⟩ | ⟨-, heq⟩ <;> rw [heq] at ht
    · cases ht
    · rw [← Option.some.inj ht]
      exact makeTick_symbolId ..

/-- **One message.** The whole book takes it; the part takes it if it is about the symbol. -/
theorem Shard.step (h : Shard listing symbolId S S' b b') {m : BookMsg} (hm : m.Listed listing)
    (hroom : ∀ a, m = .add a → S.orders.keys.card < 65536) :
    if m.listedSymbol listing = symbolId then
      Shard listing symbolId (S.step m) (S'.step m) (b.handle m).1 (b'.handle m).1
    else Shard listing symbolId (S.step m) S' (b.handle m).1 b' := by
  split_ifs with hc
  · exact ⟨h.whole.handle m, h.part.handle m, (h.handle_agree hm hc hroom).1, h.step_listed hm hroom,
      h.step_orders hc hroom⟩
  · exact ⟨h.whole.handle m, h.part, fun hsym => (h.handle_other hm hc hsym).trans (h.book hsym),
      h.step_listed hm hroom, h.step_orders_other hc hroom⟩

end BookBuilder

/-! ## Whole runs -/

theorem room_of_hasRoom {pre : List BookMsg} {m : BookMsg} (h : HasRoom (pre ++ [m])) :
    ∀ a, m = .add a → (specBook pre).orders.keys.card < 65536 := by
  rintro a rfl
  exact card_lt_of_ne (h pre a (List.prefix_refl _))

theorem runBook_shard (msgs : List BookMsg) (hlisted : ∀ m ∈ msgs, m.Listed listing)
    (hroom : HasRoom msgs) :
    BookBuilder.Shard listing symbolId (specBook msgs) (specBook (shard listing symbolId msgs))
      (runBook msgs) (runBook (shard listing symbolId msgs)) := by
  induction msgs using List.reverseRecOn with
  | nil => exact BookBuilder.shard_init
  | append_singleton pre m ih =>
    have hpre := ih (fun m' hm' => hlisted m' (List.mem_append_left _ hm')) hroom.init
    have hstep := hpre.step (hlisted m (by simp)) (room_of_hasRoom hroom)
    rw [shard_snoc, runBook_snoc, specBook_snoc]
    split_ifs at hstep ⊢
    · rw [runBook_snoc, specBook_snoc]
      exact hstep
    · rw [List.append_nil]
      exact hstep

theorem ticksFrom_runBook_snoc (pre : List BookMsg) (m : BookMsg) :
    ticksFrom {} (pre ++ [m]) = ticksFrom {} pre ++ ((runBook pre).handle m).2.toList :=
  ticksFrom_snoc {} pre m

/-- The ticks of one symbol are those of its own book. -/
theorem ticksFrom_shard (msgs : List BookMsg) (hlisted : ∀ m ∈ msgs, m.Listed listing)
    (hroom : HasRoom msgs) :
    (ticksFrom {} msgs).filter (fun t => t.symbolId == symbolId)
      = ticksFrom {} (shard listing symbolId msgs) := by
  induction msgs using List.reverseRecOn with
  | nil => rfl
  | append_singleton pre m ih =>
    have hlisted' : ∀ m ∈ pre, m.Listed listing :=
      fun m' hm' => hlisted m' (List.mem_append_left _ hm')
    have hpre : BookBuilder.Shard listing symbolId _ _ (runBook pre) _ :=
      runBook_shard pre hlisted' hroom.init
    have hm := hlisted m (by simp)
    rw [shard_snoc, ticksFrom_runBook_snoc, List.filter_append, ih hlisted' hroom.init]
    split_ifs with hc
    · rw [ticksFrom_runBook_snoc, ← (hpre.handle_agree hm hc (room_of_hasRoom hroom)).2,
        List.filter_eq_self.mpr]
      intro t ht
      rw [hpre.tick_symbolId hm (Option.mem_toList.mp ht), hc, beq_self_eq_true]
    · rw [List.append_nil, List.filter_eq_nil_iff.mpr, List.append_nil]
      intro t ht
      rw [hpre.tick_symbolId hm (Option.mem_toList.mp ht), beq_iff_eq]
      exact hc

/-- **The book can be split by symbol.** If no order id is used under two symbols and no add meets a
full pool, then for every symbol the levels, best prices and last trade, the records of its orders and
the stream of its ticks are those of a book that has been given the messages about this symbol
alone. -/
theorem book_splits_by_symbol (listing : UInt64 → UInt32) (msgs : List BookMsg)
    (hlisted : ∀ m ∈ msgs, m.Listed listing) (hroom : HasRoom msgs) (symbolId : UInt32) :
    let own := shard listing symbolId msgs
    (symbolId.toNat < 32 → (runBook msgs).book symbolId = (runBook own).book symbolId) ∧
    (∀ orderId, listing orderId = symbolId →
      (runBook msgs).liveRecord orderId = (runBook own).liveRecord orderId) ∧
    (ticksFrom {} msgs).filter (fun t => t.symbolId == symbolId) = ticksFrom {} own := by
  intro own
  have h : BookBuilder.Shard listing symbolId _ _ (runBook msgs) (runBook own) :=
    runBook_shard msgs hlisted hroom
  refine ⟨h.book, ?_, ticksFrom_shard msgs hlisted hroom⟩
  intro orderId hid
  unfold BookBuilder.liveRecord
  rw [h.whole.pool.find, h.part.pool.find, h.lookup_eq hid]

/-- Two symbols, one of which has its level sum wrap around. -/
def twoSymbols : List BookMsg :=
  [.add ⟨⟨.addOrder, 44, 1, 1⟩, 1, 3, .buy, 100, 0xffffffff⟩,
    .add ⟨⟨.addOrder, 44, 2, 2⟩, 2, 4, .buy, 100, 5⟩,
    .add ⟨⟨.addOrder, 44, 3, 3⟩, 3, 3, .buy, 100, 2⟩,
    .delete ⟨⟨.deleteOrder, 36, 4, 4⟩, 2, 9⟩]

theorem book_splits_by_symbol_two :
    let listing : UInt64 → UInt32 := fun orderId => if orderId = 2 then 4 else 3
    (runBook twoSymbols).book 3 = (runBook (shard listing 3 twoSymbols)).book 3 ∧
    ((runBook twoSymbols).book 3).bid.qtyAt 100 = 1 ∧
    (ticksFrom {} twoSymbols).filter (fun t => t.symbolId == 4)
      = ticksFrom {} (shard listing 4 twoSymbols) ∧
    (ticksFrom {} (shard listing 4 twoSymbols)).length = 2 := by
  intro listing
  have hlisted : ∀ m ∈ twoSymbols, m.Listed listing := by
    intro m hm
    simp only [twoSymbols, List.mem_cons, List.not_mem_nil, or_false] at hm
    rcases hm with rfl | rfl | rfl | rfl
    · rfl
    · rfl
    · rfl
    · trivial
  have hroom : HasRoom twoSymbols := hasRoom_of_length (by decide)
  refine ⟨(book_splits_by_symbol listing twoSymbols hlisted hroom 3).1 (by decide), ?_,
    (book_splits_by_symbol listing twoSymbols hlisted hroom 4).2.2, ?_⟩
  · decide +kernel
  · decide +kernel

end MarketDataPipeline.Book
