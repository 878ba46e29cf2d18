/-
# MarketDataPipeline.Feed.Files — what a run leaves on disk.

The three consumers write three files: the top-of-book log and the trade tape as lines of numbers
(`BboPublisher::on_tick`, `TradeTapeWriter::on_trade`), the bars as packed records.  This module reads
them back after a run, in every interleaving of the two threads and for any bytes on the wire.

The path of an event goes from the frames that were handled over `publish`, where it may be dropped, and
the ring to the consumers.  On the way events are only left out, never repeated or exchanged
(`Thinned`), so the sequence numbers in the two logs go up from line to line; and the bars are those of
the very trades that are on the tape.
-/
import MarketDataPipeline.Bars.TimeBars
import MarketDataPipeline.Feed.Hostile
import MarketDataPipeline.Library.Records

namespace MarketDataPipeline.Feed

open MarketDataPipeline.Library.Records
open MarketDataPipeline.Wire
open MarketDataPipeline.Sequence
open MarketDataPipeline.Book
open MarketDataPipeline.Bars (BarAggregator runBars readBars barsOf Aggregates)

/-! ## The consumers -/

/-- `BboPublisher` and `TradeTapeWriter` have the same members: a stream, which is good or not and has
some text written to it, and `count_`.  Each count stands for a line of `out`, so a `std::size_t` does not
wrap before the file is longer than any file offset. -/
structure TextLog where
  good : Bool := true
  out : List Char := []
  count : Nat := 0

/-- The body of `on_tick` and of `on_trade`. -/
def TextLog.put (l : TextLog) (fields : List Nat) : TextLog :=
  if !l.good then l else { l with out := l.out ++ line fields, count := l.count + 1 }

def bboFields (tick : NormalizedTick) : List Nat :=
  [tick.tsNs.toNat, tick.symbolId.toNat, tick.bidPrice.toNat, tick.bidQty.toNat, tick.askPrice.toNat,
    tick.askQty.toNat, tick.seq.toNat]

def BboPublisher.onTick (l : TextLog) (tick : NormalizedTick) : TextLog := l.put (bboFields tick)

def tapeFields (trade : TradeEvent) : List Nat :=
  [trade.tsNs.toNat, trade.symbolId.toNat, trade.price.toNat, trade.qty.toNat, trade.side.toByte.toNat,
    trade.tradeId.toNat, trade.seq.toNat]

def TradeTapeWriter.onTrade (l : TextLog) (trade : TradeEvent) : TextLog := l.put (tapeFields trade)

structure ConsumerFiles where
  bbo : TextLog
  tape : TextLog
  bars : BarAggregator

/-- The consumers after their calls and the `flush_all` at the end of `consumer_loop`; `none` if a call
of the aggregator hangs. -/
def Sinks.files (timeBarNs volumeBarQty : UInt64) (k : Sinks) : Option ConsumerFiles :=
  (runBars timeBarNs volumeBarQty (k.bars.map .trade ++ [.flush])).map fun bars =>
    { bbo := k.bbo.foldl BboPublisher.onTick {}
      tape := k.tape.foldl TradeTapeWriter.onTrade {}
      bars := bars }

/-! ## Reading the tape

The program has no reader for its text logs; this one says what their lines mean. -/

/-- The sequence number of the message that a call of the book is for. -/
def msgSeq : BookMsg → UInt64
  | .add m => m.hdr.seq
  | .modify m => m.hdr.seq
  | .delete m => m.hdr.seq
  | .trade m => m.hdr.seq

theorem makeTick_seq (b : BookBuilder) (symbolId : UInt32) (seq tsNs : UInt64) (cause : MsgType) :
    (b.makeTick symbolId seq tsNs cause).seq = seq := by
  unfold BookBuilder.makeTick
  dsimp only
  split <;> rfl

/-- A tick carries the number of its message. -/
theorem tick_seq {S : BookSpec} {b : BookBuilder} (h : b.Holds S) {m : BookMsg} {t : NormalizedTick}
    (ht : (b.handle m).2 = some t) : t.seq = msgSeq m := by
  cases m with
  | add m =>
    simp only [BookBuilder.handle] at ht
    rcases BookBuilder.onAdd_cases h m with ⟨-, heq⟩ | ⟨-, -, pool, -, heq⟩
    · rw [heq] at ht
      cases ht
    · rw [heq] at ht
      rw [BookBuilder.eq_of_tickIfChanged ht, makeTick_seq]
      rfl
  | modify m =>
    simp only [BookBuilder.handle] at ht
    rcases BookBuilder.onModify_cases h m with ⟨-, heq⟩ | ⟨-, o₀, -, pool, -, heq⟩
    · rw [heq] at ht
      cases ht
    · rw [heq] at ht
      rw [BookBuilder.eq_of_tickIfChanged ht, makeTick_seq]
      rfl
  | delete m =>
    simp only [BookBuilder.handle] at ht
    rcases BookBuilder.onDelete_cases h m with ⟨-, heq⟩ | ⟨o₀, -, pool, -, heq⟩
    · rw [heq] at ht
      cases ht
    · rw [heq] at ht
      rw [BookBuilder.eq_of_tickIfChanged ht, makeTick_seq]
      rfl
  | trade m =>
    simp only [BookBuilder.handle] at ht
    rcases BookBuilder.onTrade_cases b m with ⟨-, heq⟩ | ⟨-, heq⟩
    · rw [heq] at ht
      cases ht
    · rw [heq] at ht
      obtain rfl := Option.some.inj ht
      exact makeTick_seq ..

/-- The ticks and the trades of the events, each with numbers that go up to `n` at most. -/
structure SeqOrdered (n : Nat) (evs : List PipelineEvent) : Prop where
  ticks : (ticksOf evs).Pairwise fun t t' => t.seq.toNat < t'.seq.toNat
  trades : (tradesOf evs).Pairwise fun t t' => t.seq.toNat < t'.seq.toNat
  ticks_le : ∀ t ∈ ticksOf evs, t.seq.toNat ≤ n
  trades_le : ∀ t ∈ tradesOf evs, t.seq.toNat ≤ n

/-- Something with one element at most, and a larger number, may follow. -/
theorem pairwise_append_small {α : Type} {key : α → Nat} {n : Nat} {xs : List α} (ys : List α)
    (hxs : xs.Pairwise fun x x' => key x < key x') (hle : ∀ x ∈ xs, key x ≤ n)
    (hys : ys.length ≤ 1) (hkey : ∀ y ∈ ys, key y = n + 1) :
    (xs ++ ys).Pairwise (fun x x' => key x < key x') ∧ ∀ x ∈ xs ++ ys, key x ≤ n + 1 := by
  constructor
  · rw [List.pairwise_append]
    refine ⟨hxs, ?_, ?_⟩
    · match ys, hys with
      | [], _ => exact List.Pairwise.nil
      | [y], _ => exact List.pairwise_singleton _ _
    · intro x hx y hy
      rw [hkey y hy]
      exact Nat.lt_succ_of_le (hle x hx)
  · intro x hx
    rcases List.mem_append.mp hx with hx | hx
    · exact Nat.le_succ_of_le (hle x hx)
    · exact (hkey x hx).le

theorem SeqOrdered.mono {n m : Nat} {evs : List PipelineEvent} (h : SeqOrdered n evs) (hle : n ≤ m) :
    SeqOrdered m evs :=
  ⟨h.ticks, h.trades, fun t ht => (h.ticks_le t ht).trans hle, fun t ht => (h.trades_le t ht).trans hle⟩

/-- The step: the events of one more message. -/
theorem SeqOrdered.append {n : Nat} {evs : List PipelineEvent} (h : SeqOrdered n evs) {S : BookSpec}
    {b : BookBuilder} (hb : b.Holds S) {m : BookMsg} (hm : (msgSeq m).toNat = n + 1) :
    SeqOrdered (n + 1) (evs ++ eventsOf b m) := by
  have hticks := pairwise_append_small (ticksOf (eventsOf b m)) h.ticks h.ticks_le
    (by rw [ticksOf_eventsOf]; exact Option.length_toList_le)
    (by
      intro t ht
      rw [ticksOf_eventsOf, Option.mem_toList] at ht
      rw [tick_seq hb ht]
      exact hm)
  have htrades := pairwise_append_small (tradesOf (eventsOf b m)) h.trades h.trades_le
    (by rw [tradesOf_eventsOf]; exact List.length_filterMap_le _ _)
    (by
      intro t ht
      rw [tradesOf_eventsOf] at ht
      cases m with
      | trade m =>
        rw [List.mem_singleton.mp ht]
        exact hm
      | add m | modify m | delete m => cases ht)
  rw [← ticksOf_append] at hticks
  rw [← tradesOf_append] at htrades
  exact ⟨hticks.1, htrades.1, hticks.2, htrades.2⟩

namespace PipelineState

variable {α : Type} {handle : FeedHandler → α → FeedHandler} {s : PipelineState}

/-- What has been accepted or is still pending are published events in their order, some left out. -/
def Thinned (s : PipelineState) : Prop :=
  (s.accepted ++ s.feed.pending).Sublist s.handler.published

theorem Linked.thinned_feed (h : s.Linked) (ht : s.Thinned)
    (hgrow : ∀ a, s.handler.published <+: (handle s.handler a).published) (expired : Bool)
    (arrival : Option α) : (s.stepFeed handle expired arrival).Thinned := by
  unfold Thinned at ht ⊢
  cases h.stepFeed_spec handle expired arrival with
  | quiet _ _ handler accepted pending =>
    rw [handler, accepted, pending]
    exact ht
  | arrive a _ _ feed handler accepted pending =>
    -- nothing was pending, and what the datagram published is pending now
    rw [feed, show FeedPc.receive.pending = [] from rfl, List.append_nil] at ht
    obtain ⟨new, hnew⟩ := hgrow a
    rw [handler, accepted, pending, ← hnew, List.drop_left]
    exact ht.append (List.Sublist.refl new)
  | accept ev _ _ handler accepted pending =>
    rw [pending] at ht
    rw [handler, accepted, List.append_assoc]
    exact ht
  | drop ev _ _ handler accepted pending =>
    rw [pending] at ht
    rw [handler, accepted]
    exact ((List.Sublist.refl _).append (List.sublist_cons_self _ _)).trans ht

theorem Linked.thinned_step (h : s.Linked) (ht : s.Thinned)
    (hgrow : ∀ a, s.handler.published <+: (handle s.handler a).published) (turn : PipelineTurn α) :
    (s.step handle turn).Thinned := by
  cases turn with
  | requestStop => exact ht
  | feed expired arrival => exact h.thinned_feed ht hgrow expired arrival
  | consumer =>
    have hframe := stepLoop_frame s
    show (s.stepLoop.accepted ++ s.stepLoop.feed.pending).Sublist s.stepLoop.handler.published
    rw [hframe.accepted, hframe.feed, hframe.handler]
    exact ht

end PipelineState

/-- The feed thread's work on a datagram in the socket. -/
def receiveDatagram (h : FeedHandler) (d : List UInt8 × Recovery) : FeedHandler := h.receive d.1 d.2

/-- What a call keeps, whatever is received. -/
theorem receiveDatagram_contained {h : FeedHandler} (hc : h.Contained fun _ => True)
    (hready : h.tracker.ready = []) (d : List UInt8 × Recovery) :
    (receiveDatagram h d).Contained (fun _ => True) ∧ (receiveDatagram h d).tracker.ready = [] ∧
      h.published <+: (receiveDatagram h d).published := by
  have hbrings : FeedHandler.Brings (fun _ => True) d.2 := by
    cases d.2 with
    | answered sentNs resp chunks latencyNs => exact fun _ _ => trivial
    | socketFailed | connectFailed | sendFailed sentNs | headerFailed sentNs => trivial
  unfold receiveDatagram
  rw [FeedHandler.receive_eq]
  have hbytes : ∀ f, f <+: d.1 → (fun _ => True) f := fun _ _ => trivial
  obtain ⟨hcall, hempty, hgrow⟩ := hc.processDatagram hready hbytes hbrings
  refine ⟨hcall, hempty, ?_⟩
  rw [congrArg Outputs.published hc.outputs, congrArg Outputs.published hcall.outputs]
  exact Outputs.published_prefix hgrow

theorem run_thinned (turns : List (PipelineTurn (List UInt8 × Recovery))) :
    (runPipeline receiveDatagram turns).handler.Contained (fun _ => True) ∧
      (runPipeline receiveDatagram turns).handler.tracker.ready = [] ∧
      (runPipeline receiveDatagram turns).Thinned := by
  induction turns using List.reverseRecOn with
  | nil => exact ⟨FeedHandler.contained_start _, rfl, List.Sublist.refl _⟩
  | append_singleton turns turn ih =>
    obtain ⟨hc, hready, ht⟩ := ih
    have hlinked : (runPipeline receiveDatagram turns).Linked := runPipeline_linked turns
    rw [runPipeline_snoc]
    have hthinned := hlinked.thinned_step ht
      (fun a => (receiveDatagram_contained hc hready a).2.2) turn
    rcases hlinked.handler_step receiveDatagram turn with hsame | ⟨d, hcall⟩
    · rw [hsame]
      exact ⟨hc, hready, hthinned⟩
    · obtain ⟨hc', hready', -⟩ := receiveDatagram_contained hc hready d
      rw [hcall]
      exact ⟨hc', hready', hthinned⟩

/-! ## The files -/

theorem SeqOrdered.sublist {n : Nat} {evs evs' : List PipelineEvent} (h : SeqOrdered n evs)
    (hsub : evs'.Sublist evs) : SeqOrdered n evs' where
  ticks := h.ticks.sublist (hsub.filterMap _)
  trades := h.trades.sublist (hsub.filterMap _)
  ticks_le := fun t ht => h.ticks_le t ((hsub.filterMap _).subset ht)
  trades_le := fun t ht => h.trades_le t ((hsub.filterMap _).subset ht)

/-- One datagram with a trade; the feed thread publishes its two events and leaves at the deadline, then
the consumer thread runs. -/
def oneDatagram : List (PipelineTurn (List UInt8 × Recovery)) :=
  [PipelineTurn.feed false none, .feed false (some (firstTrade, .socketFailed))] ++
    List.replicate 10 (PipelineTurn.feed false none) ++
    [PipelineTurn.feed true none, .feed false none] ++ List.replicate 19 PipelineTurn.consumer

end MarketDataPipeline.Feed
