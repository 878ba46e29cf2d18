/-
# MarketDataPipeline.Feed.Threads — the feed thread, the consumer thread and the stop flag.

`FeedHandler::run` with `publish`, `consumer_loop` and `request_stop` over the ring of `Queue.Spsc`.  A
run is a list of turns: a step of the feed thread, a step of the consumer thread, or a call of
`request_stop` by some other thread.  Within `try_push` and `try_pop` the steps are those of the ring.
What a thread does on data that only it touches is not cut into steps: a datagram is processed at once
and leaves the events that are still to be published, and `tail_`, which only the consumer stores, is
loaded together with `head_`.

The feed thread's work on one arrival is a parameter (`handle`): a whole datagram, or a single delivered
frame.  The log `accepted` is not part of the program; an event enters it when its `publish` returns
true.

The consumer leaves its loop when it has read the flag and then found the ring empty.  At that moment
everything accepted has been handed on (`Linked.leave`), so what decides is whether a publish returns
true after it (`Late`).
-/
import MarketDataPipeline.Feed.Handler
import MarketDataPipeline.Queue.Spsc

namespace MarketDataPipeline.Feed

open MarketDataPipeline.Wire
open MarketDataPipeline.Book
open MarketDataPipeline.Queue

/-! ## The program -/

/-- Where the feed thread is in `run`. -/
inductive FeedPc where
  /-- At the test of the receive loop. -/
  | check
  /-- In `select` or `recvfrom`. -/
  | receive
  /-- In `publish`, after so many calls of `try_push` that failed; `later` is published after it. -/
  | publishing (failed : Nat) (ev : PipelineEvent) (later : List PipelineEvent)
  /-- Behind the loop, before `request_stop`. -/
  | leaving
  /-- In `consumer_.join()`. -/
  | joining
  | done
  deriving DecidableEq

/-- Where the consumer thread is in `consumer_loop`. -/
inductive LoopPc where
  /-- Before the load of `stop_`. -/
  | test
  /-- `stop_` was set; before the loads of `empty()`. -/
  | empty
  /-- In `try_pop`. -/
  | popping
  /-- `try_pop` has returned true. -/
  | handing
  /-- The loop is left; before `flush_all`. -/
  | flushing
  | exited
  deriving DecidableEq

/-- The loop has been left. -/
def LoopPc.left : LoopPc → Bool
  | .flushing | .exited => true
  | .test | .empty | .popping | .handing => false

/-- The calls of `BboPublisher::on_tick`, `TradeTapeWriter::on_trade` and `BarAggregator::on_trade`. -/
structure Sinks where
  bbo : List NormalizedTick := []
  tape : List TradeEvent := []
  bars : List TradeEvent := []
  deriving DecidableEq

/-- The body of `consumer_loop` behind a successful pop. -/
def Sinks.hand (k : Sinks) : PipelineEvent → Sinks
  | .tick t => { k with bbo := k.bbo ++ [t] }
  | .trade t => { k with tape := k.tape ++ [t], bars := k.bars ++ [t] }

/-- `kEventQueueCapacity` is `2^14`. -/
structure PipelineState where
  ring : SpscState PipelineEvent 14 := .init PipelineEvent 14 (.tick {})
  stop : Bool := false
  feed : FeedPc := .check
  loop : LoopPc := .test
  handler : FeedHandler := {}
  accepted : List PipelineEvent := []
  sinks : Sinks := {}

/-- A turn.  `expired` is what the test of the deadline says, `arrival` what there is to receive; both
are read only where the feed thread asks. -/
inductive PipelineTurn (α : Type) where
  | feed (expired : Bool) (arrival : Option α)
  | consumer
  | requestStop

/-- The feed thread goes on with the next event of the datagram, or with the next turn of its loop. -/
def FeedPc.next : List PipelineEvent → FeedPc
  | [] => .check
  | ev :: later => .publishing 0 ev later

namespace PipelineState

variable {α : Type} (handle : FeedHandler → α → FeedHandler)

/-- An event is moved into the ring as a copy: it has no resources. -/
def stepFeed (expired : Bool) (arrival : Option α) (s : PipelineState) : PipelineState :=
  match s.feed with
  | .check => if s.stop || expired then { s with feed := .leaving } else { s with feed := .receive }
  | .receive =>
    match arrival with
    -- the timeout of `select`, or nothing received
    | none => { s with feed := .check }
    | some a =>
      let h := handle s.handler a
      { s with handler := h, feed := .next (h.published.drop s.handler.published.length) }
  | .publishing failed ev later =>
    let ring := s.ring.stepProducer id ev
    match s.ring.pushReturns id ev with
    | none => { s with ring := ring }
    | some true => { s with ring := ring, accepted := s.accepted ++ [ev], feed := .next later }
    -- 64 calls in the loop and one behind it; the result of `publish` is not looked at
    | some false =>
      if failed < 64 then { s with ring := ring, feed := .publishing (failed + 1) ev later }
      else { s with ring := ring, feed := .next later }
  | .leaving => { s with stop := true, feed := .joining }
  | .joining => if s.loop = .exited then { s with feed := .done } else s
  | .done => s

def stepLoop (s : PipelineState) : PipelineState :=
  match s.loop with
  | .test => if s.stop then { s with loop := .empty } else { s with loop := .popping }
  | .empty =>
    if s.ring.head = s.ring.tail then { s with loop := .flushing } else { s with loop := .popping }
  | .popping =>
    let ring := s.ring.stepConsumer id
    match s.ring.popReturns id with
    | none => { s with ring := ring }
    | some true => { s with ring := ring, loop := .handing }
    -- `yield` and `continue`
    | some false => { s with ring := ring, loop := .test }
  | .handing => { s with sinks := s.sinks.hand s.ring.out, loop := .test }
  | .flushing => { s with loop := .exited }
  | .exited => s

def step (s : PipelineState) : PipelineTurn α → PipelineState
  | .feed expired arrival => s.stepFeed handle expired arrival
  | .consumer => s.stepLoop
  | .requestStop => { s with stop := true }

/-! What a step inside `try_push` or `try_pop` does, by what the call returns with it. -/

section Calls

variable {handle : FeedHandler → α → FeedHandler} {s : PipelineState} {expired : Bool}
  {arrival : Option α} {failed : Nat} {ev : PipelineEvent} {later : List PipelineEvent}

theorem step_push_none (hfeed : s.feed = .publishing failed ev later)
    (hcall : s.ring.pushReturns id ev = none) :
    s.step handle (.feed expired arrival) = { s with ring := s.ring.stepProducer id ev } := by
  simp only [step, stepFeed, hfeed, hcall]

theorem step_push_true (hfeed : s.feed = .publishing failed ev later)
    (hcall : s.ring.pushReturns id ev = some true) :
    s.step handle (.feed expired arrival)
      = { s with
          ring := s.ring.stepProducer id ev
          accepted := s.accepted ++ [ev]
          feed := .next later } := by
  simp only [step, stepFeed, hfeed, hcall]

theorem step_push_false (hfeed : s.feed = .publishing failed ev later)
    (hcall : s.ring.pushReturns id ev = some false) :
    s.step handle (.feed expired arrival)
      = { s with
          ring := s.ring.stepProducer id ev
          feed := if failed < 64 then .publishing (failed + 1) ev later else .next later } := by
  simp only [step, stepFeed, hfeed, hcall]
  split <;> rfl

theorem stepLoop_pop_none (hloop : s.loop = .popping) (hcall : s.ring.popReturns id = none) :
    s.stepLoop = { s with ring := s.ring.stepConsumer id } := by
  simp only [stepLoop, hloop, hcall]

theorem stepLoop_pop_true (hloop : s.loop = .popping) (hcall : s.ring.popReturns id = some true) :
    s.stepLoop = { s with ring := s.ring.stepConsumer id, loop := .handing } := by
  simp only [stepLoop, hloop, hcall]

theorem stepLoop_pop_false (hloop : s.loop = .popping) (hcall : s.ring.popReturns id = some false) :
    s.stepLoop = { s with ring := s.ring.stepConsumer id, loop := .test } := by
  simp only [stepLoop, hloop, hcall]

end Calls

end PipelineState

/-- The state after a list of turns. -/
def runPipeline {α : Type} (handle : FeedHandler → α → FeedHandler) (turns : List (PipelineTurn α)) :
    PipelineState :=
  turns.foldl (PipelineState.step handle) {}

@[simp] theorem runPipeline_snoc {α : Type} (handle : FeedHandler → α → FeedHandler)
    (pre : List (PipelineTurn α)) (turn : PipelineTurn α) :
    runPipeline handle (pre ++ [turn]) = (runPipeline handle pre).step handle turn := by
  unfold runPipeline
  rw [List.foldl_append]
  rfl

/-- The ticks and the trades among some events. -/
def ticksOf (evs : List PipelineEvent) : List NormalizedTick :=
  evs.filterMap fun
    | .tick t => some t
    | .trade _ => none

def tradesOf (evs : List PipelineEvent) : List TradeEvent :=
  evs.filterMap fun
    | .tick _ => none
    | .trade t => some t

/-- The consumers after the calls for some events. -/
def Sinks.after (evs : List PipelineEvent) : Sinks := ⟨ticksOf evs, tradesOf evs, tradesOf evs⟩

theorem Sinks.after_snoc (evs : List PipelineEvent) (ev : PipelineEvent) :
    Sinks.after (evs ++ [ev]) = (Sinks.after evs).hand ev := by
  unfold Sinks.after ticksOf tradesOf
  cases ev <;> simp [Sinks.hand]

/-! ## The invariant -/

namespace PipelineState

/-- The producer's side: what has been accepted is what has been pushed, but for a push that has not
returned, and the ring is at rest outside `publish`. -/
structure FeedOk (s : PipelineState) : Prop where
  head : s.ring.HeadOk
  accepted : s.ring.pushed = s.accepted ++ s.ring.inFlight
  pc : match s.feed with
    | .publishing failed ev _ => failed ≤ 64 ∧ (s.ring.producer ≠ .idle → s.ring.offered = ev)
    | _ => s.ring.producer = .idle

/-- The consumer's side: what has been popped has been handed on, but for the event in hand, and once
the loop is left nothing that was handed on is unaccounted for. -/
structure LoopOk (s : PipelineState) : Prop where
  pc : s.loop ≠ .popping → s.ring.consumer = .idle
  stopped : s.loop = .empty ∨ s.loop.left = true → s.stop = true
  handed : ∃ handed, s.sinks = .after handed ∧
    s.ring.returned = handed ++ if s.loop = .handing then [s.ring.out] else []
  left : s.loop.left = true → s.ring.returned <+: s.accepted

/-- **What ties the two threads and the ring together.** -/
structure Linked (s : PipelineState) : Prop where
  ring : s.ring.Inv
  feed : s.FeedOk
  loop : s.LoopOk

variable {α : Type} {handle : FeedHandler → α → FeedHandler} {s : PipelineState}

theorem linked_init : Linked {} where
  ring := .init PipelineEvent 14 _
  feed := ⟨True.intro, rfl, rfl⟩
  loop := by
    refine ⟨fun _ => rfl, ?_, ⟨[], rfl, rfl⟩, ?_⟩
    · rintro (h | h) <;> cases h
    · intro h
      cases h

/-! ## Frames -/

/-- What a step of the feed thread leaves alone. -/
structure FeedFrame (s s' : PipelineState) : Prop where
  loop : s'.loop = s.loop
  sinks : s'.sinks = s.sinks
  consumer : s'.ring.consumer = s.ring.consumer
  out : s'.ring.out = s.ring.out
  returned : s'.ring.returned = s.ring.returned
  stop : s.stop = true → s'.stop = true
  accepted : s.accepted <+: s'.accepted

theorem stepFeed_frame (handle : FeedHandler → α → FeedHandler) (expired : Bool) (arrival : Option α)
    (s : PipelineState) :
    FeedFrame s (s.stepFeed handle expired arrival) := by
  unfold stepFeed
  cases s.feed with
  | check =>
    dsimp only
    split <;> exact ⟨rfl, rfl, rfl, rfl, rfl, id, List.prefix_rfl⟩
  | receive =>
    cases arrival <;> exact ⟨rfl, rfl, rfl, rfl, rfl, id, List.prefix_rfl⟩
  | publishing failed ev later =>
    obtain ⟨hconsumer, -, hout, -, hreturned⟩ := s.ring.stepProducer_frame id ev
    dsimp only
    split
    · exact ⟨rfl, rfl, hconsumer, hout, hreturned, id, List.prefix_rfl⟩
    · exact ⟨rfl, rfl, hconsumer, hout, hreturned, id, List.prefix_append _ _⟩
    · split <;> exact ⟨rfl, rfl, hconsumer, hout, hreturned, id, List.prefix_rfl⟩
  | leaving => exact ⟨rfl, rfl, rfl, rfl, rfl, fun _ => rfl, List.prefix_rfl⟩
  | joining =>
    dsimp only
    split <;> exact ⟨rfl, rfl, rfl, rfl, rfl, id, List.prefix_rfl⟩
  | done => exact ⟨rfl, rfl, rfl, rfl, rfl, id, List.prefix_rfl⟩

/-- What a step of the consumer thread leaves alone. -/
structure LoopFrame (s s' : PipelineState) : Prop where
  feed : s'.feed = s.feed
  stop : s'.stop = s.stop
  handler : s'.handler = s.handler
  accepted : s'.accepted = s.accepted
  producer : s'.ring.producer = s.ring.producer
  head : s'.ring.head = s.ring.head
  offered : s'.ring.offered = s.ring.offered
  pushed : s'.ring.pushed = s.ring.pushed

theorem stepLoop_frame (s : PipelineState) : LoopFrame s s.stepLoop := by
  unfold stepLoop
  cases s.loop with
  | test | empty =>
    dsimp only
    split <;> exact ⟨rfl, rfl, rfl, rfl, rfl, rfl, rfl, rfl⟩
  | popping =>
    obtain ⟨hproducer, hhead, hoffered, hpushed⟩ := s.ring.stepConsumer_frame id
    dsimp only
    split <;> exact ⟨rfl, rfl, rfl, rfl, hproducer, hhead, hoffered, hpushed⟩
  | handing | flushing | exited => exact ⟨rfl, rfl, rfl, rfl, rfl, rfl, rfl, rfl⟩

theorem LoopOk.frame {s' : PipelineState} (h : s.LoopOk) (hf : FeedFrame s s') : s'.LoopOk := by
  refine ⟨?_, ?_, ?_, ?_⟩
  · rw [hf.loop, hf.consumer]
    exact h.pc
  · rw [hf.loop]
    exact fun hl => hf.stop (h.stopped hl)
  · obtain ⟨handed, hh, hret⟩ := h.handed
    refine ⟨handed, hf.sinks.trans hh, ?_⟩
    rw [hf.returned, hf.loop, hf.out]
    exact hret
  · rw [hf.loop, hf.returned]
    exact fun hl => (h.left hl).trans hf.accepted

theorem FeedOk.frame {s' : PipelineState} (h : s.FeedOk) (hf : LoopFrame s s') : s'.FeedOk := by
  refine ⟨?_, ?_, ?_⟩
  · have hhead := h.head
    unfold SpscState.HeadOk at hhead ⊢
    rw [hf.producer, hf.head]
    exact hhead
  · have hacc := h.accepted
    unfold SpscState.inFlight at hacc ⊢
    rw [hf.pushed, hf.accepted, hf.producer, hf.offered]
    exact hacc
  · rw [hf.feed, hf.producer, hf.offered]
    exact h.pc

/-! ## Steps of the feed thread -/

/-- With the ring at rest the feed thread may be at the start of any event. -/
theorem FeedOk.atNext {s' : PipelineState} {later : List PipelineEvent} (head : s'.ring.HeadOk)
    (accepted : s'.ring.pushed = s'.accepted ++ s'.ring.inFlight) (hidle : s'.ring.producer = .idle)
    (hfeed : s'.feed = .next later) : s'.FeedOk := by
  refine ⟨head, accepted, ?_⟩
  rw [hfeed]
  cases later with
  | nil => exact hidle
  | cons ev later => exact ⟨Nat.zero_le _, fun hne => absurd hidle hne⟩

/-- A step inside a push. -/
theorem FeedOk.stepPush {failed : Nat} {ev : PipelineEvent} {later : List PipelineEvent}
    (h : s.FeedOk) (hfeed : s.feed = .publishing failed ev later) (expired : Bool)
    (arrival : Option α) : (s.step handle (.feed expired arrival)).FeedOk := by
  have hpc := h.pc
  rw [hfeed] at hpc
  have hhead := h.head.stepProducer id ev
  have heffect := s.ring.push_effect id ev h.accepted hpc.2
  cases hcall : s.ring.pushReturns id ev with
  | none =>
    rw [hcall] at heffect
    rw [step_push_none hfeed hcall]
    refine ⟨hhead, heffect.2.2, ?_⟩
    dsimp only
    rw [hfeed]
    exact ⟨hpc.1, fun _ => heffect.2.1⟩
  | some pushed =>
    rw [hcall] at heffect
    cases pushed with
    | true =>
      rw [step_push_true hfeed hcall]
      exact .atNext hhead heffect.2 heffect.1 rfl
    | false =>
      rw [step_push_false hfeed hcall]
      split
      case isTrue hlt => exact ⟨hhead, heffect.2, ⟨hlt, fun hne => absurd heffect.1 hne⟩⟩
      case isFalse => exact .atNext hhead heffect.2 heffect.1 rfl

theorem FeedOk.stepFeed (h : s.FeedOk) (expired : Bool) (arrival : Option α) :
    (s.stepFeed handle expired arrival).FeedOk := by
  have hpc := h.pc
  cases hfeed : s.feed with
  | publishing failed ev later => exact h.stepPush hfeed expired arrival
  | check =>
    rw [hfeed] at hpc
    simp only [PipelineState.stepFeed, hfeed]
    split <;> exact ⟨h.head, h.accepted, hpc⟩
  | receive =>
    rw [hfeed] at hpc
    simp only [PipelineState.stepFeed, hfeed]
    cases arrival with
    | none => exact ⟨h.head, h.accepted, hpc⟩
    | some a => exact .atNext h.head h.accepted hpc rfl
  | leaving =>
    rw [hfeed] at hpc
    simp only [PipelineState.stepFeed, hfeed]
    exact ⟨h.head, h.accepted, hpc⟩
  | joining =>
    rw [hfeed] at hpc
    simp only [PipelineState.stepFeed, hfeed]
    split
    · exact ⟨h.head, h.accepted, hpc⟩
    · exact h
  | done =>
    simp only [PipelineState.stepFeed, hfeed]
    exact h

/-! ## Steps of the consumer thread -/

/-- **Leaving the loop.** When the ring is found empty, what has been accepted has been popped. -/
theorem Linked.leave (h : s.Linked) (hloop : s.loop = .empty) (hempty : s.ring.head = s.ring.tail) :
    s.accepted = s.ring.returned := by
  have hidle : s.ring.consumer = .idle := h.loop.pc (by rw [hloop]; decide)
  exact (h.ring.empty_iff h.feed.head (by decide) hidle h.feed.accepted).mp hempty

/-- Inside the loop, away from the test, only the popped events matter. -/
theorem LoopOk.inside (pc : LoopPc) (hloop : s.loop = pc) (hin : pc ≠ .empty ∧ pc.left = false)
    (hidle : pc ≠ .popping → s.ring.consumer = .idle)
    (handed : ∃ handed, s.sinks = .after handed ∧
      s.ring.returned = handed ++ if pc = .handing then [s.ring.out] else []) : s.LoopOk := by
  subst hloop
  refine ⟨hidle, ?_, handed, ?_⟩
  · rintro (hl | hl)
    · exact absurd hl hin.1
    · rw [hin.2] at hl
      cases hl
  · intro hl
    rw [hin.2] at hl
    cases hl

/-- A step inside a pop. -/
theorem LoopOk.stepPop (h : s.LoopOk) (hloop : s.loop = .popping) : s.stepLoop.LoopOk := by
  obtain ⟨handed, hh, hret⟩ := h.handed
  rw [hloop, if_neg (by decide), List.append_nil] at hret
  have heffect := s.ring.pop_effect id
  cases hcall : s.ring.popReturns id with
  | none =>
    rw [hcall] at heffect
    rw [stepLoop_pop_none hloop hcall]
    refine .inside .popping hloop (by decide) (fun hne => absurd rfl hne) ⟨handed, hh, ?_⟩
    dsimp only at heffect ⊢
    rw [heffect, hret]
    exact (List.append_nil _).symm
  | some popped =>
    rw [hcall] at heffect
    cases popped with
    | true =>
      rw [stepLoop_pop_true hloop hcall]
      refine .inside .handing rfl (by decide) (fun _ => heffect.1) ⟨handed, hh, ?_⟩
      dsimp only
      rw [heffect.2, hret]
      rfl
    | false =>
      rw [stepLoop_pop_false hloop hcall]
      refine .inside .test rfl (by decide) (fun _ => heffect.1) ⟨handed, hh, ?_⟩
      dsimp only
      rw [heffect.2, hret]
      exact (List.append_nil _).symm

theorem Linked.stepLoop_ok (h : s.Linked) : s.stepLoop.LoopOk := by
  obtain ⟨handed, hh, hret⟩ := h.loop.handed
  have hpc := h.loop.pc
  have hstop := h.loop.stopped
  cases hloop : s.loop with
  | popping => exact h.loop.stepPop hloop
  | test =>
    rw [hloop] at hpc hret
    simp only [stepLoop, hloop]
    split
    case isTrue hset =>
      refine ⟨fun _ => hpc (by decide), fun _ => hset, ⟨handed, hh, hret⟩, ?_⟩
      intro hl
      cases hl
    case isFalse =>
      exact .inside .popping rfl (by decide) (fun hne => absurd rfl hne) ⟨handed, hh, hret⟩
  | empty =>
    rw [hloop] at hpc hret hstop
    simp only [stepLoop, hloop]
    split
    case isTrue hempty =>
      refine ⟨fun _ => hpc (by decide), fun _ => hstop (Or.inl rfl), ⟨handed, hh, hret⟩, ?_⟩
      intro _
      rw [h.leave hloop hempty]
    case isFalse =>
      exact .inside .popping rfl (by decide) (fun hne => absurd rfl hne) ⟨handed, hh, hret⟩
  | handing =>
    rw [hloop, if_pos rfl] at hret
    rw [hloop] at hpc
    simp only [stepLoop, hloop]
    refine .inside .test rfl (by decide) (fun _ => hpc (by decide)) ⟨handed ++ [s.ring.out], ?_, ?_⟩
    · dsimp only
      rw [hh, Sinks.after_snoc]
    · dsimp only
      rw [hret]
      exact (List.append_nil _).symm
  | flushing =>
    have hleft := h.loop.left
    rw [hloop] at hpc hret hstop hleft
    simp only [stepLoop, hloop]
    exact ⟨fun _ => hpc (by decide), fun _ => hstop (Or.inr rfl), ⟨handed, hh, hret⟩,
      fun _ => hleft rfl⟩
  | exited =>
    simp only [stepLoop, hloop]
    exact h.loop

/-- The ring moves only by steps of the two calls. -/
theorem stepFeed_ring (handle : FeedHandler → α → FeedHandler) (expired : Bool) (arrival : Option α)
    (s : PipelineState) :
    (s.stepFeed handle expired arrival).ring = s.ring ∨
      ∃ ev, (s.stepFeed handle expired arrival).ring = s.ring.stepProducer id ev := by
  unfold stepFeed
  cases s.feed with
  | publishing failed ev later =>
    refine Or.inr ⟨ev, ?_⟩
    dsimp only
    split
    · rfl
    · rfl
    · split <;> rfl
  | receive => cases arrival <;> exact Or.inl rfl
  | check | joining =>
    dsimp only
    split <;> exact Or.inl rfl
  | leaving | done => exact Or.inl rfl

theorem stepLoop_ring (s : PipelineState) :
    s.stepLoop.ring = s.ring ∨ s.stepLoop.ring = s.ring.stepConsumer id := by
  unfold stepLoop
  cases s.loop with
  | popping =>
    dsimp only
    split <;> exact Or.inr rfl
  | test | empty =>
    dsimp only
    split <;> exact Or.inl rfl
  | handing | flushing | exited => exact Or.inl rfl

/-- **Every turn keeps the threads and the ring linked.** -/
theorem Linked.step (h : s.Linked) (turn : PipelineTurn α) : (s.step handle turn).Linked := by
  cases turn with
  | feed expired arrival =>
    refine ⟨?_, h.feed.stepFeed expired arrival, h.loop.frame (stepFeed_frame handle expired arrival s)⟩
    rcases stepFeed_ring handle expired arrival s with heq | ⟨ev, heq⟩
    · show (s.stepFeed handle expired arrival).ring.Inv
      rw [heq]
      exact h.ring
    · show (s.stepFeed handle expired arrival).ring.Inv
      rw [heq]
      exact h.ring.stepProducer (by decide) (by decide) id ev
  | consumer =>
    refine ⟨?_, h.feed.frame (stepLoop_frame s), h.stepLoop_ok⟩
    show s.stepLoop.ring.Inv
    rcases s.stepLoop_ring with heq | heq
    · rw [heq]
      exact h.ring
    · rw [heq]
      exact h.ring.stepConsumer (by decide) id
  | requestStop =>
    exact ⟨h.ring, ⟨h.feed.head, h.feed.accepted, h.feed.pc⟩,
      ⟨h.loop.pc, fun _ => rfl, h.loop.handed, h.loop.left⟩⟩

end PipelineState

variable {α : Type} {handle : FeedHandler → α → FeedHandler}

theorem runPipeline_linked (turns : List (PipelineTurn α)) : (runPipeline handle turns).Linked :=
  List.foldlRecOn turns _ PipelineState.linked_init fun _ h turn _ => h.step turn

/-! ## What a step of the feed thread does to the events -/

/-- The events of the datagram that are still to be published. -/
def FeedPc.pending : FeedPc → List PipelineEvent
  | .publishing _ ev later => ev :: later
  | .check | .receive | .leaving | .joining | .done => []

@[simp] theorem FeedPc.pending_next (evs : List PipelineEvent) : (FeedPc.next evs).pending = evs := by
  cases evs <;> rfl

namespace PipelineState

/-- The next step of the feed thread returns true from `publish`. -/
def Returning (s : PipelineState) : Prop := ∃ pos, s.ring.producer = .published pos

/-- The last call of `try_push` that `publish` makes is about to find the ring full. -/
def Dropping (s : PipelineState) : Prop :=
  ∃ ev later pos, s.feed = .publishing 64 ev later ∧ s.ring.producer = .loaded pos ∧
    s.ring.outstanding = 2 ^ 14

/-- The four kinds of steps: nothing happens to an event, some arrive, one is accepted, one is dropped. -/
inductive FeedStep (handle : FeedHandler → α → FeedHandler) (s s' : PipelineState) : Prop
  | quiet (hret : ¬ s.Returning) (hdrop : ¬ s.Dropping) (handler : s'.handler = s.handler)
      (accepted : s'.accepted = s.accepted) (pending : s'.feed.pending = s.feed.pending)
  | arrive (a : α) (hret : ¬ s.Returning) (hdrop : ¬ s.Dropping) (feed : s.feed = .receive)
      (handler : s'.handler = handle s.handler a) (accepted : s'.accepted = s.accepted)
      (pending : s'.feed.pending
        = (handle s.handler a).published.drop s.handler.published.length)
  | accept (ev : PipelineEvent) (hret : s.Returning) (hdrop : ¬ s.Dropping)
      (handler : s'.handler = s.handler) (accepted : s'.accepted = s.accepted ++ [ev])
      (pending : s.feed.pending = ev :: s'.feed.pending)
  | drop (ev : PipelineEvent) (hret : ¬ s.Returning) (hdrop : s.Dropping)
      (handler : s'.handler = s.handler) (accepted : s'.accepted = s.accepted)
      (pending : s.feed.pending = ev :: s'.feed.pending)

variable {s : PipelineState}

/-- With nothing to publish the feed thread is not in a push. -/
theorem FeedOk.idle_of_pending (h : s.FeedOk) (hnone : s.feed.pending = []) :
    s.ring.producer = .idle := by
  have hpc := h.pc
  cases hfeed : s.feed with
  | publishing failed ev later =>
    rw [hfeed] at hnone
    cases hnone
  | check | receive | leaving | joining | done =>
    rw [hfeed] at hpc
    exact hpc

theorem FeedOk.not_returning (h : s.FeedOk) (hnone : s.feed.pending = []) : ¬ s.Returning := by
  rintro ⟨pos, hpos⟩
  rw [h.idle_of_pending hnone] at hpos
  cases hpos

theorem not_dropping_of_pending (h : s.feed.pending = []) : ¬ s.Dropping := by
  rintro ⟨ev, later, pos, hfeed, -⟩
  rw [hfeed] at h
  cases h

/-- The kind of a step inside a push. -/
theorem Linked.stepPush_spec {failed : Nat} {ev : PipelineEvent} {later : List PipelineEvent}
    (h : s.Linked) (hfeed : s.feed = .publishing failed ev later)
    (handle : FeedHandler → α → FeedHandler) (expired : Bool) (arrival : Option α) :
    FeedStep handle s (s.step handle (.feed expired arrival)) := by
  have htrue : s.ring.pushReturns id ev = some true ↔ s.Returning := SpscState.pushReturns_true
  have hfalse : s.ring.pushReturns id ev = some false ↔ _ :=
    h.ring.pushReturns_false (by decide) (by decide)
  have hnodrop : s.ring.pushReturns id ev ≠ some false → ¬ s.Dropping := by
    rintro hne ⟨ev', later', pos, -, hprod, hfull⟩
    exact hne (hfalse.mpr ⟨⟨pos, hprod⟩, hfull⟩)
  have hpending : s.feed.pending = ev :: (FeedPc.next later).pending := by
    rw [hfeed, FeedPc.pending_next]
    rfl
  cases hcall : s.ring.pushReturns id ev with
  | none =>
    rw [step_push_none hfeed hcall]
    refine .quiet ?_ (hnodrop (by rw [hcall]; simp)) rfl rfl rfl
    rw [← htrue, hcall]
    simp
  | some pushed =>
    cases pushed with
    | true =>
      rw [step_push_true hfeed hcall]
      exact .accept ev (htrue.mp hcall) (hnodrop (by rw [hcall]; simp)) rfl rfl hpending
    | false =>
      have hret : ¬ s.Returning := by
        rw [← htrue, hcall]
        simp
      rw [step_push_false hfeed hcall]
      split
      case isTrue hlt =>
        refine .quiet hret ?_ rfl rfl ?_
        · rintro ⟨ev', later', pos, hfeed', -⟩
          rw [hfeed] at hfeed'
          injection hfeed' with hfailed
          omega
        · rw [hfeed]
          rfl
      case isFalse hge =>
        obtain ⟨⟨pos, hprod⟩, hfull⟩ := hfalse.mp hcall
        have hlast : failed = 64 := by
          have hpc := h.feed.pc
          rw [hfeed] at hpc
          have hle := hpc.1
          omega
        exact .drop ev hret ⟨ev, later, pos, by rw [hfeed, hlast], hprod, hfull⟩ rfl rfl hpending

/-- **Every step of the feed thread is of one of these kinds.** -/
theorem Linked.stepFeed_spec (h : s.Linked) (handle : FeedHandler → α → FeedHandler)
    (expired : Bool) (arrival : Option α) :
    FeedStep handle s (s.stepFeed handle expired arrival) := by
  have hquiet : ∀ s' : PipelineState, s.feed.pending = [] → s'.handler = s.handler →
      s'.accepted = s.accepted → s'.feed.pending = [] → FeedStep handle s s' := by
    intro s' hnone hhandler haccepted hnone'
    exact .quiet (h.feed.not_returning hnone) (not_dropping_of_pending hnone) hhandler haccepted
      (hnone'.trans hnone.symm)
  cases hfeed : s.feed with
  | publishing failed ev later => exact h.stepPush_spec hfeed handle expired arrival
  | receive =>
    have hnone : s.feed.pending = [] := congrArg FeedPc.pending hfeed
    simp only [stepFeed, hfeed]
    cases arrival with
    | none => exact hquiet _ hnone rfl rfl rfl
    | some a =>
      exact .arrive a (h.feed.not_returning hnone) (not_dropping_of_pending hnone) hfeed rfl rfl
        (FeedPc.pending_next _)
  | check =>
    simp only [stepFeed, hfeed]
    split <;> exact hquiet _ (congrArg FeedPc.pending hfeed) rfl rfl rfl
  | leaving =>
    simp only [stepFeed, hfeed]
    exact hquiet _ (congrArg FeedPc.pending hfeed) rfl rfl rfl
  | joining =>
    have hnone : s.feed.pending = [] := congrArg FeedPc.pending hfeed
    simp only [stepFeed, hfeed]
    split
    · exact hquiet _ hnone rfl rfl rfl
    · exact hquiet s hnone rfl rfl hnone
  | done =>
    have hnone : s.feed.pending = [] := congrArg FeedPc.pending hfeed
    simp only [stepFeed, hfeed]
    exact hquiet s hnone rfl rfl hnone

/-- The handler changes only by handling an arrival. -/
theorem Linked.handler_step (h : s.Linked) (handle : FeedHandler → α → FeedHandler)
    (turn : PipelineTurn α) :
    (s.step handle turn).handler = s.handler ∨
      ∃ a, (s.step handle turn).handler = handle s.handler a := by
  cases turn with
  | requestStop => exact Or.inl rfl
  | consumer => exact Or.inl (stepLoop_frame s).handler
  | feed expired arrival =>
    cases h.stepFeed_spec handle expired arrival with
    | quiet _ _ handler => exact Or.inl handler
    | arrive a _ _ _ handler => exact Or.inr ⟨a, handler⟩
    | accept _ _ _ handler => exact Or.inl handler
    | drop _ _ _ handler => exact Or.inl handler

end PipelineState

/-! ## Shutdown -/

namespace PipelineState

/-- Once the loop is left, every accepted event has been handed to its consumers, in order. -/
def Drained (s : PipelineState) : Prop := s.loop.left = true → s.sinks = .after s.accepted

instance (s : PipelineState) : Decidable s.Drained :=
  inferInstanceAs (Decidable (s.loop.left = true → s.sinks = .after s.accepted))

/-- The feed thread is about to return true from `try_push`, and the consumer has left its loop. -/
def Late (s : PipelineState) : PipelineTurn α → Prop
  | .feed _ _ => s.loop.left = true ∧ s.Returning
  | .consumer | .requestStop => False

variable {s : PipelineState}

theorem length_eq_ticks_trades (evs : List PipelineEvent) :
    evs.length = (ticksOf evs).length + (tradesOf evs).length := by
  induction evs with
  | nil => rfl
  | cons ev evs ih =>
    cases ev with
    | tick t =>
      show evs.length + 1 = (ticksOf evs).length + 1 + (tradesOf evs).length
      omega
    | trade t =>
      show evs.length + 1 = (ticksOf evs).length + ((tradesOf evs).length + 1)
      omega

theorem length_of_after {evs evs' : List PipelineEvent} (h : Sinks.after evs = Sinks.after evs') :
    evs.length = evs'.length := by
  have hticks : ticksOf evs = ticksOf evs' := congrArg Sinks.bbo h
  have htrades : tradesOf evs = tradesOf evs' := congrArg Sinks.tape h
  rw [length_eq_ticks_trades evs, hticks, htrades, ← length_eq_ticks_trades]

/-- Behind the loop nothing is in hand. -/
theorem LoopOk.sinks_eq (h : s.LoopOk) (hne : s.loop ≠ .handing) :
    s.sinks = .after s.ring.returned := by
  obtain ⟨handed, hh, hret⟩ := h.handed
  rw [if_neg hne, List.append_nil] at hret
  rw [hret]
  exact hh

theorem ne_handing_of_left (h : s.loop.left = true) : s.loop ≠ .handing := by
  intro heq
  rw [heq] at h
  cases h

/-- The only way out of the loop. -/
theorem stepLoop_leaves (hbefore : s.loop.left ≠ true) (hafter : s.stepLoop.loop.left = true) :
    s.loop = .empty ∧ s.ring.head = s.ring.tail ∧ s.stepLoop.ring = s.ring := by
  unfold stepLoop at hafter ⊢
  cases hloop : s.loop with
  | test =>
    rw [hloop] at hafter
    dsimp only at hafter
    split at hafter <;> cases hafter
  | empty =>
    rw [hloop] at hafter
    dsimp only at hafter ⊢
    split at hafter
    case isTrue hempty =>
      rw [if_pos hempty]
      exact ⟨rfl, hempty, rfl⟩
    case isFalse => cases hafter
  | popping =>
    rw [hloop] at hafter
    dsimp only at hafter
    split at hafter <;> cases hafter
  | handing =>
    rw [hloop] at hafter
    cases hafter
  | flushing | exited =>
    rw [hloop] at hbefore
    exact absurd rfl hbefore

/-- Behind the loop the ring is not touched any more. -/
theorem stepLoop_ring_of_left (h : s.loop.left = true) : s.stepLoop.ring = s.ring := by
  unfold stepLoop
  cases hloop : s.loop with
  | flushing | exited => rfl
  | test | empty | popping | handing => exact absurd h (by rw [hloop]; decide)

/-- A step that is not late keeps the accepted events drained. -/
theorem Linked.drained_step (h : s.Linked) (hs : s.Drained) {turn : PipelineTurn α}
    (hlate : ¬ s.Late turn) (handle : FeedHandler → α → FeedHandler) :
    (s.step handle turn).Drained := by
  cases turn with
  | requestStop => exact hs
  | feed expired arrival =>
    intro hleft
    have hframe := stepFeed_frame handle expired arrival s
    have hleft' : s.loop.left = true := hframe.loop ▸ hleft
    have hsame : (s.stepFeed handle expired arrival).accepted = s.accepted := by
      cases h.stepFeed_spec handle expired arrival with
      | quiet _ _ _ accepted _ => exact accepted
      | arrive _ _ _ _ _ accepted _ => exact accepted
      | accept _ hret => exact absurd ⟨hleft', hret⟩ hlate
      | drop _ _ _ _ accepted _ => exact accepted
    show (s.stepFeed handle expired arrival).sinks = .after (s.stepFeed handle expired arrival).accepted
    rw [hframe.sinks, hsame]
    exact hs hleft'
  | consumer =>
    intro hleft
    show s.stepLoop.sinks = .after s.stepLoop.accepted
    rw [h.stepLoop_ok.sinks_eq (ne_handing_of_left hleft), (stepLoop_frame s).accepted]
    -- the loop was left before, or it is left now
    by_cases hbefore : s.loop.left = true
    · rw [stepLoop_ring_of_left hbefore, ← h.loop.sinks_eq (ne_handing_of_left hbefore)]
      exact hs hbefore
    · obtain ⟨hempty, htest, hring⟩ := stepLoop_leaves hbefore hleft
      rw [hring, h.leave hempty htest]

/-- A late step leaves an accepted event behind. -/
theorem Linked.not_drained_of_late (h : s.Linked) {turn : PipelineTurn α} (hlate : s.Late turn)
    (handle : FeedHandler → α → FeedHandler) : ¬ (s.step handle turn).Drained := by
  cases turn with
  | requestStop | consumer => exact hlate.elim
  | feed expired arrival =>
    obtain ⟨hleft, hret⟩ := hlate
    have hframe := stepFeed_frame handle expired arrival s
    intro hs
    have hsinks : s.sinks = .after (s.stepFeed handle expired arrival).accepted :=
      hframe.sinks.symm.trans (hs (hframe.loop.symm ▸ hleft))
    rw [h.loop.sinks_eq (ne_handing_of_left hleft)] at hsinks
    have hlen := length_of_after hsinks
    have hle := (h.loop.left hleft).length_le
    cases h.stepFeed_spec handle expired arrival with
    | quiet hno => exact hno hret
    | arrive _ hno => exact hno hret
    | drop _ hno => exact hno hret
    | accept ev _ _ _ accepted _ =>
      rw [accepted, List.length_append, List.length_singleton] at hlen
      omega

end PipelineState

/-- **When shutdown drains the queue.** In a run of the feed thread, the consumer thread and calls of
`request_stop` at any moments, every accepted event has been handed on when the consumer leaves its
loop, in every state of the run, exactly if no publish returns true after that. -/
theorem shutdown_drains_queue (turns : List (PipelineTurn (List UInt8 × Recovery))) :
    (∀ pre, pre <+: turns →
        (runPipeline (fun h d => h.processDatagram d.1 d.2) pre).Drained) ↔
      ∀ pre turn, pre ++ [turn] <+: turns →
        ¬ (runPipeline (fun h d => h.processDatagram d.1 d.2) pre).Late turn := by
  constructor
  · intro hall pre turn hpre hlate
    have hdrained := hall _ hpre
    rw [runPipeline_snoc] at hdrained
    exact (runPipeline_linked pre).not_drained_of_late hlate _ hdrained
  · intro hnone pre
    induction pre using List.reverseRecOn with
    | nil =>
      intro _ hleft
      cases hleft
    | append_singleton pre turn ih =>
      intro hpre
      rw [runPipeline_snoc]
      exact (runPipeline_linked pre).drained_step (ih ((List.prefix_append _ _).trans hpre))
        (hnone pre turn hpre) _

/-- A trade of symbol 0 with the first sequence number. -/
def firstTrade : List UInt8 := WireOrder.image.put (encodeTrade {} 1 1 7 0 .buy 100 5)

/-- The feed thread has taken the datagram out of the socket when another thread requests the stop; the
consumer sees the flag and an empty ring, and leaves; then both events of the trade are published. -/
def stopWithinDatagram : List (PipelineTurn (List UInt8 × Recovery)) :=
  [PipelineTurn.feed false none, .feed false (some (firstTrade, .socketFailed)), .requestStop,
    .consumer, .consumer, .consumer] ++ List.replicate 10 (PipelineTurn.feed false none)

theorem stop_within_datagram_loses_events :
    let s := runPipeline (fun h (d : List UInt8 × Recovery) => h.processDatagram d.1 d.2)
      stopWithinDatagram
    s.loop = .exited ∧ s.accepted.length = 2 ∧ ¬ s.Drained := by
  decide +kernel

end MarketDataPipeline.Feed
