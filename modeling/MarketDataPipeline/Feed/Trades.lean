/-
# MarketDataPipeline.Feed.Trades — the book and the trade consumers.

A trade reaches two places: the book, which refuses prices outside its levels and empty quantities, and
the queue behind which the tape and the bars stand.  `handle_parsed` publishes the tick of a trade only
if the book returned one, but the trade itself in any case.  The two sides agree on the last trade of
every symbol exactly in the runs without a trade that the book refuses.
-/
import MarketDataPipeline.Book.Steps
import MarketDataPipeline.Feed.Handler
import MarketDataPipeline.Wire.RoundTrip

namespace MarketDataPipeline.Feed

open MarketDataPipeline.Wire
open MarketDataPipeline.Book

/-! ## The last trade on both sides -/

/-- Price and quantity of the last trade event of a symbol, 0 and 0 if there is none. -/
def lastTrade (events : List PipelineEvent) (symbolId : UInt32) : UInt32 × UInt32 :=
  events.foldl (fun seen ev =>
    match ev with
    | .trade t => if t.symbolId = symbolId then (t.price, t.qty) else seen
    | .tick _ => seen) (0, 0)

/-- Price and quantity that the book keeps for a symbol. -/
def bookTrade (b : BookBuilder) (symbolId : UInt32) : UInt32 × UInt32 :=
  ((b.book symbolId).lastPrice, (b.book symbolId).lastQty)

/-- A trade that `on_trade` does not reject for its price or its quantity. -/
def Tradable (price qty : UInt32) : Prop := 1 ≤ price.toNat ∧ price.toNat ≤ 4096 ∧ qty ≠ 0

/-- Book and consumers agree on a symbol: they have the same last trade, and every trade that was
published is one that the book accepts. -/
structure TradesAgree (o : Outputs) (symbolId : UInt32) : Prop where
  last : bookTrade o.book symbolId = lastTrade o.published symbolId
  accepted : ∀ t : TradeEvent, .trade t ∈ o.published → t.symbolId = symbolId → Tradable t.price t.qty

theorem lastTrade_append (a b : List PipelineEvent) (symbolId : UInt32) :
    lastTrade (a ++ b) symbolId = b.foldl (fun seen ev =>
      match ev with
      | .trade t => if t.symbolId = symbolId then (t.price, t.qty) else seen
      | .tick _ => seen) (lastTrade a symbolId) := by
  unfold lastTrade
  rw [List.foldl_append]

/-- Ticks do not change the last trade; the trade event of a message does. -/
theorem lastTrade_events (events : List PipelineEvent) (b : BookBuilder) (m : BookMsg)
    (symbolId : UInt32) :
    lastTrade (events ++ eventsOf b m) symbolId =
      match m with
      | .trade m => if m.symbolId = symbolId then (m.price, m.qty) else lastTrade events symbolId
      | _ => lastTrade events symbolId := by
  have htick : ∀ tick : Option NormalizedTick,
      lastTrade (events ++ tick.toList.map .tick) symbolId = lastTrade events symbolId := by
    intro tick
    cases tick <;> simp [lastTrade_append]
  unfold eventsOf
  rw [← List.append_assoc, lastTrade_append, htick]
  cases m <;> rfl

/-- The trade events among those of a message. -/
theorem mem_eventsOf {b : BookBuilder} {m : BookMsg} {t : TradeEvent} :
    .trade t ∈ eventsOf b m ↔ ∃ m', m = .trade m' ∧ t = tradeEventOf m' := by
  unfold eventsOf
  rw [List.mem_append]
  constructor
  · rintro (hmem | hmem)
    · obtain ⟨tick, -, htick⟩ := List.mem_map.mp hmem
      cases htick
    · cases m with
      | trade m => exact ⟨m, rfl, PipelineEvent.trade.inj (List.mem_singleton.mp hmem)⟩
      | add m => cases hmem
      | modify m => cases hmem
      | delete m => cases hmem
  · rintro ⟨m', rfl, rfl⟩
    exact Or.inr (List.mem_singleton_self _)

/-! ## Runs -/

variable {symbolId : UInt32}

theorem tradable_iff {m : Trade} (hsym : m.symbolId.toNat < 32) :
    Tradable m.price m.qty ↔ ValidOrder ⟨m.symbolId, m.side, m.price, m.qty⟩ := by
  have hqty : m.qty ≠ 0 ↔ 0 < m.qty.toNat := by
    rw [Nat.pos_iff_ne_zero, ← UInt32.toNat_inj.ne]
    rfl
  unfold Tradable ValidOrder
  rw [hqty]
  exact ⟨fun h => ⟨hsym, h⟩, fun h => h.2⟩

theorem payload_of_trade {p : ParsedPayload} {m : Trade} (h : bookMsg? p = some (.trade m)) :
    p = .trade m := by
  cases p <;> cases h
  rfl

/-- The book's last trade is that of the abstract book. -/
theorem bookTrade_replay (frames : List (List UInt8)) (hsym : symbolId.toNat < 32) :
    bookTrade (Outputs.replay frames).book symbolId = (specBook (bookMsgs frames)).last symbolId := by
  rw [Outputs.replay_book]
  obtain ⟨hprice, hqty⟩ := (runBook_holds (bookMsgs frames)).last symbolId hsym
  exact Prod.ext hprice hqty

/-- The step: one more frame keeps the two sides together, if it is no trade of the symbol that the book
refuses. -/
theorem TradesAgree.snoc {pre : List (List UInt8)} {f : List UInt8} (hsym : symbolId.toNat < 32)
    (h : TradesAgree (Outputs.replay pre) symbolId)
    (hok : ∀ m, (parseMessage f).payload = .trade m → m.symbolId = symbolId →
      Tradable m.price m.qty) :
    TradesAgree (Outputs.replay (pre ++ [f])) symbolId := by
  have hlast := h.last
  rw [bookTrade_replay pre hsym] at hlast
  have hbook := bookTrade_replay (pre ++ [f]) hsym
  rw [bookMsgs_snoc] at hbook
  rw [Outputs.replay_snoc] at hbook ⊢
  cases hm : bookMsg? (parseMessage f).payload with
  | none =>
    rw [hm, Option.toList_none, List.append_nil, hlast] at hbook
    rw [Outputs.handleParsed_none hm] at hbook ⊢
    exact ⟨hbook, h.accepted⟩
  | some m =>
    rw [hm, Option.toList_some, specBook_snoc] at hbook
    rw [Outputs.handleParsed_some hm] at hbook ⊢
    refine ⟨?_, ?_⟩
    · rw [hbook, lastTrade_events, ← hlast]
      cases m with
      | add m | modify m =>
        simp only [BookSpec.step]
        split_ifs <;> rfl
      | delete m => rfl
      | trade m =>
        simp only [BookSpec.step]
        by_cases hat : m.symbolId = symbolId
        · subst hat
          have hvalid := (tradable_iff hsym).mp (hok m (payload_of_trade hm) rfl)
          rw [if_pos hvalid, if_pos rfl]
          exact Function.update_self ..
        · rw [if_neg hat]
          split_ifs
          · exact Function.update_of_ne (fun h0 => hat h0.symm) _ _
          · rfl
    · intro t ht hts
      rcases List.mem_append.mp ht with ht | ht
      · exact h.accepted t ht hts
      · obtain ⟨m', rfl, rfl⟩ := mem_eventsOf.mp ht
        exact hok m' (payload_of_trade hm) hts

theorem tradesAgree_init (symbolId : UInt32) : TradesAgree (Outputs.replay []) symbolId where
  last := rfl
  accepted := fun _ ht => absurd ht List.not_mem_nil

/-- A trade is among the events of its frame. -/
theorem published_trade {pre : List (List UInt8)} {f : List UInt8} {m : Trade}
    (h : (parseMessage f).payload = .trade m) :
    .trade (tradeEventOf m) ∈ (Outputs.replay (pre ++ [f])).published := by
  have hcall : bookMsg? (parseMessage f).payload = some (.trade m) := by rw [h]; rfl
  rw [Outputs.replay_snoc, Outputs.handleParsed_some hcall]
  exact List.mem_append_right _ (mem_eventsOf.mpr ⟨m, rfl, rfl⟩)

/-- **When book and trade consumers agree.** After every frame of a list both sides have the same last
trade for every symbol of the book, and no trade that the book refuses has been published for it, if
and only if every trade of such a symbol has a price in `1 … 4096` and a quantity. -/
theorem trade_consumers_agree (frames : List (List UInt8)) :
    (∀ pre, pre <+: frames → ∀ symbolId : UInt32, symbolId.toNat < 32 →
      TradesAgree (Outputs.replay pre) symbolId) ↔
    ∀ f ∈ frames, ∀ m, (parseMessage f).payload = .trade m → m.symbolId.toNat < 32 →
      Tradable m.price m.qty := by
  constructor
  · intro hall f hf m hm hsym
    obtain ⟨pre, post, rfl⟩ := List.append_of_mem hf
    have hpre : pre ++ [f] <+: pre ++ f :: post := ⟨post, by simp⟩
    exact (hall _ hpre m.symbolId hsym).accepted _ (published_trade hm) rfl
  · intro hok pre
    induction pre using List.reverseRecOn with
    | nil => exact fun _ symbolId _ => tradesAgree_init symbolId
    | append_singleton pre f ih =>
      intro hnext symbolId hsym
      have hmem : f ∈ frames :=
        hnext.subset (List.mem_append_right _ (List.mem_singleton_self f))
      have hagree := ih ((List.prefix_append pre [f]).trans hnext) symbolId hsym
      refine hagree.snoc hsym ?_
      rintro m hm rfl
      exact hok f hmem m hm hsym

/-- **A refused trade is published.** The price is outside the book: the book keeps no last trade, the
tape and the bars get one. -/
theorem refused_trade_published :
    let frames := [(EncodeCall.trade {} 1 10 9 0 .sell 5000 5).bytes]
    bookTrade (Outputs.replay frames).book 0 = (0, 0) ∧
      lastTrade (Outputs.replay frames).published 0 = (5000, 5) ∧
      ¬ TradesAgree (Outputs.replay frames) 0 := by
  intro frames
  have hbook : bookTrade (Outputs.replay frames).book 0 = (0, 0) := by decide +kernel
  have htape : lastTrade (Outputs.replay frames).published 0 = (5000, 5) := by decide +kernel
  refine ⟨hbook, htape, fun hagree => ?_⟩
  have hsame := hagree.last
  rw [hbook, htape] at hsame
  exact absurd hsame (by decide)

end MarketDataPipeline.Feed
