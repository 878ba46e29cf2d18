/-
# MarketDataPipeline.Feed.Handler — `process_datagram`, from the wire to the published events.

`FeedHandler` ties the parser, the sequence tracker and the book together.  What the network does
during a call is an argument (`Recovery`): where a recovery attempt fails, or what the server sends and
how the bytes arrive.  Clock readings are part of it where the handler's state depends on them.

Not modelled: the latency histograms, which nothing reads back, and the queue behind `publish`; the
events are recorded in the order in which `publish` is called.  Two more logs are kept that the program
does not have, the frames that were handled and the requests that were sent.
-/
import MarketDataPipeline.Book.Builder
import MarketDataPipeline.Feed.Payload
import MarketDataPipeline.Sequence.Window
import MarketDataPipeline.Wire.Acceptance

namespace MarketDataPipeline.Feed

open MarketDataPipeline.Library.Framing
open MarketDataPipeline.Wire
open MarketDataPipeline.Sequence
open MarketDataPipeline.Book

/-! ## Handling one message -/

structure TradeEvent where
  symbolId : UInt32
  price : UInt32
  qty : UInt32
  side : Side
  seq : UInt64
  tsNs : UInt64
  tradeId : UInt64
  deriving DecidableEq

inductive PipelineEvent where
  | tick (t : NormalizedTick)
  | trade (t : TradeEvent)
  deriving DecidableEq

/-- The part of the handler that `handle_parsed` works on: the book, the events handed to `publish` and
`stats_.messages`. -/
structure Outputs where
  book : BookBuilder := {}
  published : List PipelineEvent := []
  messages : UInt64 := 0

namespace Outputs

def publish (o : Outputs) (ev : PipelineEvent) : Outputs :=
  { o with published := o.published ++ [ev] }

/-- Keep the new book, and publish the tick if there is one. -/
def bookTick (o : Outputs) (r : BookBuilder × Option NormalizedTick) : Outputs :=
  let o := { o with book := r.1 }
  match r.2 with
  | some tick => o.publish (.tick tick)
  | none => o

def handleParsed (o : Outputs) (msg : ParsedMessage) : Outputs :=
  let o := { o with messages := o.messages + 1 }
  match msg.payload with
  | .addOrder m => o.bookTick (o.book.onAdd m)
  | .modifyOrder m => o.bookTick (o.book.onModify m)
  | .deleteOrder m => o.bookTick (o.book.onDelete m)
  | .trade m =>
    (o.bookTick (o.book.onTrade m)).publish (.trade {
      symbolId := m.symbolId
      price := m.price
      qty := m.qty
      side := m.side
      seq := m.hdr.seq
      tsNs := m.hdr.tsNs
      tradeId := m.tradeId })
  -- heartbeats and the recovery messages are counted, nothing more
  | .heartbeat _ | .gapRequest _ | .gapResponse _ | .monostate => o

/-- Handle the messages in a list of frames, one after the other. -/
def replay (frames : List (List UInt8)) : Outputs :=
  frames.foldl (fun o f => o.handleParsed (parseMessage f)) {}

end Outputs

/-! ## The handler -/

/-- A request as it went out, and `next_expected` at that moment. -/
structure SentRequest where
  request : WireGapRequest
  nextExpected : UInt64

def SentRequest.start (r : SentRequest) : UInt64 := loadBe64 r.request.startSeq
def SentRequest.stop (r : SentRequest) : UInt64 := loadBe64 r.request.endSeq

structure FeedHandler extends Outputs where
  tracker : SequenceTracker := {}
  handled : List (List UInt8) := []
  requests : List SentRequest := []

/-- What happens to a recovery attempt.  In the last case the server's response has arrived and
`chunks` is what the following `recv` calls have to offer. -/
inductive Recovery where
  | socketFailed
  | connectFailed
  | sendFailed (sentNs : UInt64)
  | headerFailed (sentNs : UInt64)
  | answered (sentNs : UInt64) (resp : WireGapResponse) (chunks : List (List UInt8))
      (latencyNs : UInt64)

/-- The payload bytes that arrive in the last case. -/
def payloadOf (resp : WireGapResponse) (chunks : List (List UInt8)) : List UInt8 :=
  receivePayload (loadBe32 resp.payloadBytes).toNat [] chunks

theorem payloadLoop_isSome {σ : Type} (push : σ → List UInt8 → σ) (got : List UInt8) (s : σ) :
    (payloadLoop push got s).isSome := by
  obtain ⟨pieces, hsplit⟩ := exists_splits (F := wireFrames) got
  rw [payloadLoop_eq hsplit]
  rfl

/-- The parse loop of `try_recover`, pushing into the tracker. -/
def pushPayload (t : SequenceTracker) (got : List UInt8) : SequenceTracker :=
  (payloadLoop (fun t f => (t.push f).1) got t).get (payloadLoop_isSome _ got t)

namespace FeedHandler

def sendRequest (h : FeedHandler) (sentNs : UInt64) : FeedHandler :=
  let req := encodeGapRequest {} 0 sentNs h.tracker.gapStart h.tracker.gapEnd
  { h with requests := h.requests ++ [⟨req, h.tracker.stats.nextExpected⟩] }

def tryRecover (h : FeedHandler) (rec : Recovery) : FeedHandler :=
  if !h.tracker.gapPending then h
  else
    match rec with
    | .socketFailed | .connectFailed => h
    -- these leave the gap pending
    | .sendFailed sentNs | .headerFailed sentNs => h.sendRequest sentNs
    -- here the gap is dropped at the end, filled or not
    | .answered sentNs resp chunks latencyNs =>
      let h := h.sendRequest sentNs
      let t := pushPayload h.tracker (payloadOf resp chunks)
      { h with tracker := (t.noteRecovery latencyNs).clearGap }

/-- The body of the loop over `ready()`. -/
def handleReady (h : FeedHandler) (frame : List UInt8) : FeedHandler :=
  let ordered := parseMessage frame
  if ordered.status = .ok then
    { h with toOutputs := h.toOutputs.handleParsed ordered, handled := h.handled ++ [frame] }
  else h

/-- The loop over `ready()` and the `clear_ready` after it. -/
def drain (h : FeedHandler) : FeedHandler :=
  let h := h.tracker.ready.foldl handleReady h
  { h with tracker := h.tracker.clearReady }

def processDatagram (h : FeedHandler) (bytes : List UInt8) (rec : Recovery) : FeedHandler :=
  let parsed := parseMessage bytes
  if parsed.status ≠ .ok then h
  else
    -- bytes behind the first message of a datagram are not looked at
    let h := { h with tracker := (h.tracker.push (bytes.take parsed.consumed)).1 }
    let h := if h.tracker.gapPending then h.tryRecover rec else h
    h.drain

/-! ## What the parts do -/

/-- The tracker after the push of an accepted datagram, which is the one `try_recover` starts from. -/
def afterPush (h : FeedHandler) (bytes : List UInt8) : SequenceTracker :=
  (h.tracker.push (bytes.take (parseMessage bytes).consumed)).1

theorem tryRecover_idle {h : FeedHandler} (rec : Recovery) (hnone : h.tracker.gapPending = false) :
    h.tryRecover rec = h := by
  unfold tryRecover
  rw [if_pos (by rw [hnone]; rfl)]

theorem tryRecover_answered {h : FeedHandler} {sentNs latencyNs : UInt64} {resp : WireGapResponse}
    {chunks : List (List UInt8)} (hpend : h.tracker.gapPending = true) :
    h.tryRecover (.answered sentNs resp chunks latencyNs) =
      { h.sendRequest sentNs with
        tracker := ((pushPayload h.tracker (payloadOf resp chunks)).noteRecovery
          latencyNs).clearGap } := by
  unfold tryRecover
  rw [if_neg (by rw [hpend]; decide)]
  rfl

/-- **The outcomes of `try_recover`**: nothing to do, a failure (before or after the request was sent),
an answer. -/
theorem tryRecover_cases (h : FeedHandler) (rec : Recovery) :
    (h.tracker.gapPending = false ∧ h.tryRecover rec = h) ∨
    (h.tracker.gapPending = true ∧
      (h.tryRecover rec = h ∨ (∃ sentNs, h.tryRecover rec = h.sendRequest sentNs) ∨
        ∃ sentNs resp chunks latencyNs, rec = .answered sentNs resp chunks latencyNs ∧
          h.tryRecover rec =
            { h.sendRequest sentNs with
              tracker := ((pushPayload h.tracker (payloadOf resp chunks)).noteRecovery
                latencyNs).clearGap })) := by
  cases hp : h.tracker.gapPending with
  | false => exact Or.inl ⟨rfl, tryRecover_idle rec hp⟩
  | true =>
    refine Or.inr ⟨rfl, ?_⟩
    have hgo : ¬ (!h.tracker.gapPending) = true := by rw [hp]; decide
    cases rec with
    | socketFailed | connectFailed => exact Or.inl (if_neg hgo)
    | sendFailed sentNs | headerFailed sentNs => exact Or.inr (Or.inl ⟨sentNs, if_neg hgo⟩)
    | answered sentNs resp chunks latencyNs =>
      exact Or.inr (Or.inr ⟨sentNs, resp, chunks, latencyNs, rfl, tryRecover_answered hp⟩)

theorem processDatagram_rejected {h : FeedHandler} {bytes : List UInt8} (rec : Recovery)
    (hbad : (parseMessage bytes).status ≠ .ok) : h.processDatagram bytes rec = h := by
  simp only [processDatagram]
  rw [if_pos hbad]

theorem processDatagram_accepted {h : FeedHandler} {bytes : List UInt8} (rec : Recovery)
    (hok : (parseMessage bytes).status = .ok) :
    h.processDatagram bytes rec
      = (tryRecover { h with tracker := h.afterPush bytes } rec).drain := by
  simp only [processDatagram]
  rw [if_neg (not_ne_iff.mpr hok)]
  -- `try_recover` tests for a pending gap once more
  split
  case isTrue => rfl
  case isFalse hnone =>
    rw [tryRecover_idle rec (Bool.eq_false_of_not_eq_true hnone)]
    rfl

/-- The loop over `ready()` handles every frame that parses, and leaves the tracker alone. -/
theorem foldl_handleReady {frames : List (List UInt8)} (hok : ∀ f ∈ frames, IsFrame f)
    (h : FeedHandler) :
    frames.foldl handleReady h =
      { h with
        toOutputs := frames.foldl (fun o f => o.handleParsed (parseMessage f)) h.toOutputs
        handled := h.handled ++ frames } := by
  induction frames generalizing h with
  | nil => simp
  | cons f frames ih =>
    have hf : (parseMessage f).status = .ok := (hok f (List.mem_cons_self ..)).1
    rw [List.foldl_cons, ih (fun g hg => hok g (List.mem_cons_of_mem _ hg))]
    simp only [handleReady, hf, if_true, List.foldl_cons, List.append_assoc, List.singleton_append]

theorem foldl_handleReady_frame (frames : List (List UInt8)) (h : FeedHandler) :
    (frames.foldl handleReady h).tracker = h.tracker ∧
      (frames.foldl handleReady h).requests = h.requests := by
  induction frames generalizing h with
  | nil => exact ⟨rfl, rfl⟩
  | cons f frames ih =>
    have hone : (h.handleReady f).tracker = h.tracker ∧ (h.handleReady f).requests = h.requests := by
      simp only [handleReady]
      split <;> exact ⟨rfl, rfl⟩
    rw [List.foldl_cons, ← hone.1, ← hone.2]
    exact ih _

/-- Handling the delivered frames does not touch the tracker, except that they are cleared. -/
theorem drain_tracker (h : FeedHandler) : h.drain.tracker = h.tracker.clearReady := by
  simp only [drain]
  rw [(foldl_handleReady_frame _ h).1]

theorem drain_requests (h : FeedHandler) : h.drain.requests = h.requests :=
  (foldl_handleReady_frame _ h).2

theorem drain_eq {h : FeedHandler} (hok : ∀ f ∈ h.tracker.ready, IsFrame f) :
    h.drain =
      { h with
        toOutputs := h.tracker.ready.foldl (fun o f => o.handleParsed (parseMessage f)) h.toOutputs
        handled := h.handled ++ h.tracker.ready
        tracker := h.tracker.clearReady } := by
  unfold drain
  rw [foldl_handleReady hok]

end FeedHandler

theorem pushPayload_eq {got : List UInt8} {pieces : List (List UInt8)}
    (h : Splits wireFrames got pieces) (t : SequenceTracker) :
    pushPayload t got = pieces.foldl (fun t f => (t.push f).1) t := by
  unfold pushPayload
  rw [Option.get_of_eq_some _ (payloadLoop_eq h _ t)]

@[simp] theorem Outputs.replay_append (a b : List (List UInt8)) :
    replay (a ++ b) = b.foldl (fun o f => o.handleParsed (parseMessage f)) (replay a) := by
  unfold replay
  rw [List.foldl_append]

/-! ## The book behind the handler -/

/-- The call of the book that `handle_parsed` makes for a message. -/
def bookMsg? : ParsedPayload → Option BookMsg
  | .addOrder m => some (.add m)
  | .modifyOrder m => some (.modify m)
  | .deleteOrder m => some (.delete m)
  | .trade m => some (.trade m)
  | .heartbeat _ | .gapRequest _ | .gapResponse _ | .monostate => none

/-- The calls of the book for a list of frames. -/
def bookMsgs (frames : List (List UInt8)) : List BookMsg :=
  frames.filterMap fun f => bookMsg? (parseMessage f).payload

theorem bookMsgs_snoc (pre : List (List UInt8)) (f : List UInt8) :
    bookMsgs (pre ++ [f]) = bookMsgs pre ++ (bookMsg? (parseMessage f).payload).toList := by
  unfold bookMsgs
  rw [List.filterMap_append]
  cases h : bookMsg? (parseMessage f).payload <;> simp [h]

/-- The event of a trade message. -/
def tradeEventOf (m : Trade) : TradeEvent where
  symbolId := m.symbolId
  price := m.price
  qty := m.qty
  side := m.side
  seq := m.hdr.seq
  tsNs := m.hdr.tsNs
  tradeId := m.tradeId

/-- The events that `handle_parsed` publishes for a call of the book: its tick, and behind it every
trade, accepted by the book or not. -/
def eventsOf (b : BookBuilder) (m : BookMsg) : List PipelineEvent :=
  (b.handle m).2.toList.map .tick ++
    match m with
    | .trade m => [.trade (tradeEventOf m)]
    | _ => []

namespace Outputs

theorem bookTick_eq (o : Outputs) (r : BookBuilder × Option NormalizedTick) :
    o.bookTick r = { o with book := r.1, published := o.published ++ r.2.toList.map .tick } := by
  unfold bookTick
  cases r.2 with
  | none => simp
  | some tick => rfl

theorem handleParsed_none {msg : ParsedMessage} (h : bookMsg? msg.payload = none) (o : Outputs) :
    o.handleParsed msg = { o with messages := o.messages + 1 } := by
  unfold handleParsed
  cases hp : msg.payload <;> rw [hp] at h <;> first | rfl | cases h

/-- **What `handle_parsed` does** with a message for the book. -/
theorem handleParsed_some {msg : ParsedMessage} {m : BookMsg} (h : bookMsg? msg.payload = some m)
    (o : Outputs) :
    o.handleParsed msg =
      { book := (o.book.handle m).1
        published := o.published ++ eventsOf o.book m
        messages := o.messages + 1 } := by
  unfold handleParsed eventsOf
  cases hp : msg.payload <;> rw [hp] at h <;> cases h <;>
    simp only [bookTick_eq, publish, BookBuilder.handle, tradeEventOf, List.append_nil,
      List.append_assoc]

@[simp] theorem replay_snoc (pre : List (List UInt8)) (f : List UInt8) :
    replay (pre ++ [f]) = (replay pre).handleParsed (parseMessage f) := by
  rw [replay_append]
  rfl

/-- The book after some frames. -/
theorem replay_book (frames : List (List UInt8)) :
    (replay frames).book = runBook (bookMsgs frames) := by
  induction frames using List.reverseRecOn with
  | nil => rfl
  | append_singleton pre f ih =>
    rw [replay_snoc, bookMsgs_snoc]
    cases h : bookMsg? (parseMessage f).payload with
    | none => rw [handleParsed_none h, Option.toList_none, List.append_nil, ← ih]
    | some m => rw [handleParsed_some h, Option.toList_some, runBook_snoc, ← ih]

end Outputs

/-! ## The second parse -/

/-- **What the parser accepts, and that it accepts it twice.** The verdict is that of the raw bytes and
no copy leaves them; an accepted message is as long as its length field says, fits the tracker, and
parses to the same result from its own bytes, whatever follows them and whatever the window slot held
in which it was stored. -/
theorem parser_acceptance_exact (b : List UInt8) :
    ((parseMessage b).status = .ok ↔ Acceptable b) ∧
    (parseChecked b).isSome = true ∧
    ((parseMessage b).status = .ok →
      let frame := b.take (parseMessage b).consumed
      (parseMessage b).consumed = lengthField b ∧
      20 ≤ (parseMessage b).consumed ∧ (parseMessage b).consumed ≤ 44 ∧
      ¬ (frame.length < WireHeader.image.size ∨ kMaxStoredMessage < frame.length) ∧
      (∀ rest, parseMessage (frame ++ rest) = parseMessage b) ∧
      ∀ occupied data, parseMessage
        (Slot.frame ⟨occupied, UInt16.ofNat frame.length, copyInto data frame⟩) = parseMessage b) := by
  refine ⟨parseMessage_ok_iff b, parseChecked_isSome b, ?_⟩
  intro h frame
  obtain ⟨h20, h44, hle⟩ := parseMessage_ok_bounds h
  have hlen : frame.length = (parseMessage b).consumed := List.length_take_of_le hle
  have hfield : (parseMessage b).consumed = lengthField b := by
    obtain ⟨hdr, payload, hh, -, -, -, -, -, heq⟩ := parseMessage_ok h
    rw [heq, ← (headerOf_bytes hh).2]
  refine ⟨hfield, h20, h44, ?_, parseMessage_take_append h, ?_⟩
  · simp only [WireHeader.image_size, kMaxStoredMessage, kMaxMessageSize_eq]
    omega
  · intro occupied data
    rw [frame_copyInto (by omega)]
    exact parseMessage_take h

end MarketDataPipeline.Feed
